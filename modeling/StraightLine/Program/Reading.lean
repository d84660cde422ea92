import StraightLine.Stream
import StraightLine.Program.Parser

/-!
# Programs from streams and from sources

Reading starts at the cursor of a stream and leaves the cursor behind what was
taken: at the end of a program, or at the lexeme that a fault is about.
-/

namespace StraightLine

def Stream.parse (stream : Stream) : Except Fault Program × Stream :=
  let (outcome, rest) := Rule.program stream.ending stream.ahead
  (outcome, stream.skip (stream.ahead.length - rest.length))

@[simp] theorem Stream.toList_parse (stream : Stream) : stream.parse.2.toList = stream.toList :=
  Stream.toList_skip _ stream

def Program.ofLexemes (lexemes : List Lexeme) : Except Fault Program :=
  (Stream.ofList lexemes).parse.1

def Program.ofSource (mode : Mode) (source : String) : Except Fault Program := do
  let lexemes ← Lexeme.analyze mode source
  ofLexemes lexemes

end StraightLine
