import StraightLine.Program.Reading

/-!
# Using a stream

The uses that a stream can be put to, one after another. No use changes the
list of lexemes; only the cursor moves.
-/

namespace StraightLine.Stream

inductive Request
  | peek
  | next
  | isExhausted
  | endSpan
  | restart
  | parse
  deriving DecidableEq, Inhabited, Repr

inductive Answer
  | lexeme (found? : Option Lexeme)
  | flag (value : Bool)
  | span (value : Span)
  | done
  | program (outcome : Except Fault Program)

def use (stream : Stream) : Request → Answer × Stream
  | .peek => (.lexeme stream.peek?, stream)
  | .next => (.lexeme stream.next.1, stream.next.2)
  | .isExhausted => (.flag stream.isExhausted, stream)
  | .endSpan => (.span stream.endSpan, stream)
  | .restart => (.done, stream.restart)
  | .parse => (.program stream.parse.1, stream.parse.2)

@[simp] theorem toList_use (stream : Stream) (request : Request) :
    (stream.use request).2.toList = stream.toList := by
  cases request <;> simp [use, next, restart]

/-- The answers to requests made in order, each with the lexeme then under the cursor. -/
def replay (stream : Stream) : List Request → List (Answer × Option Lexeme)
  | [] => []
  | request :: rest =>
    let (answer, stream) := stream.use request
    (answer, stream.peek?) :: replay stream rest

end StraightLine.Stream
