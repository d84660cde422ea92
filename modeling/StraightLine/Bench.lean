import StraightLine.Program.Reading
import StraightLine.Tools

/-!
# Benches

A bench has one tool of each sort on it and takes any work on sources and
programs, in any order. Between two pieces of work it can be asked for the
values that the last run and for the slots that the last translation left.
-/

namespace StraightLine

structure Bench where
  analyzer : Analyzer
  runner : Runner
  translator : Translator
  writer : TreeWriter
  deriving Inhabited, Repr

namespace Bench

inductive Request
  | analyze (source : String)
  | interpret (program : Program)
  | compile (program : Program)
  | tree (program : Program)
  | valueOf (name : String)
  | addressOf (name : String)
  deriving DecidableEq, Inhabited, Repr

inductive Answer
  | lexemes (outcome : Except Fault (List Lexeme))
  | text (value : String)
  | value (found? : Option Int32)
  | address (found? : Option Nat)

def fresh (mode : Mode) : Bench :=
  ⟨.fresh mode, .fresh, .fresh, .fresh⟩

def handle (bench : Bench) : Request → Answer × Bench
  | .analyze source =>
    let (outcome, analyzer) := bench.analyzer.analyze source
    (.lexemes outcome, { bench with analyzer })
  | .interpret program =>
    let (output, runner) := bench.runner.run program
    (.text output, { bench with runner })
  | .compile program =>
    let (output, translator) := bench.translator.translate program
    (.text output, { bench with translator })
  | .tree program =>
    let (output, writer) := bench.writer.print program
    (.text output, { bench with writer })
  | .valueOf name => (.value (bench.runner.store.value? name), bench)
  | .addressOf name => (.address (bench.translator.slots.address? name), bench)

def after (bench : Bench) (requests : List Request) : Bench :=
  requests.foldl (fun bench request => (bench.handle request).2) bench

end Bench

end StraightLine
