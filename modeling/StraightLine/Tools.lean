import StraightLine.Assembly.Compilation
import StraightLine.Program.Evaluation
import StraightLine.Program.Tree
import StraightLine.Lexeme

/-!
# Tools

A tool does one kind of work again and again and keeps something of its own
while it works: the analyzer whether it is inside a comment, the runner the
values of the names, the translator the slots and the text written so far, and
the tree writer the text and the indentation. Each of them begins its work by
clearing what it has kept.
-/

namespace StraightLine

structure Analyzer where
  mode : Mode
  inComment : Bool
  deriving DecidableEq, Inhabited, Repr

namespace Analyzer

def fresh (mode : Mode) : Analyzer :=
  ⟨mode, false⟩

/-- Passes over a token: a delimiter leads into a comment or out of one, and what is neither space
nor a delimiter is kept outside of comments. The last lexeme kept stands in front. -/
def pass (analyzer : Analyzer) (kept : List Lexeme) (token : Lexeme) : List Lexeme × Analyzer :=
  match token.kind with
  | .openComment => (kept, { analyzer with inComment := true })
  | .closeComment => (kept, { analyzer with inComment := false })
  | .whiteSpace => (kept, analyzer)
  | _ => (if analyzer.inComment then kept else token :: kept, analyzer)

/-- Works through a text that begins at the given offset, and stops where no token can be taken. -/
def scan (analyzer : Analyzer) (offset : Nat) (kept : List Lexeme) :
    List Char → Except Fault (List Lexeme) × Analyzer
  | [] => (.ok kept.reverse, analyzer)
  | c :: cs =>
    match analyzer.mode.carve (c :: cs) with
    | none => (.error (.unreadable offset), analyzer)
    | some carving =>
      let text := carving.text (c :: cs)
      let stop := offset + Text.byteSize text
      let (kept, analyzer) := analyzer.pass kept ⟨String.ofList text, carving.kind, ⟨offset, stop⟩⟩
      scan analyzer stop kept (carving.rest (c :: cs))
termination_by source => source.length
decreasing_by exact carving.length_rest_lt (List.cons_ne_nil c cs)

def analyze (analyzer : Analyzer) (source : String) : Except Fault (List Lexeme) × Analyzer :=
  scan { analyzer with inComment := false } 0 [] source.toList

@[simp] theorem mode_pass (analyzer : Analyzer) (kept : List Lexeme) (token : Lexeme) :
    (analyzer.pass kept token).2.mode = analyzer.mode := by
  rw [pass]
  split <;> rfl

theorem mode_scan (analyzer : Analyzer) (offset : Nat) (kept : List Lexeme) (source : List Char) :
    (analyzer.scan offset kept source).2.mode = analyzer.mode := by
  fun_induction scan analyzer offset kept source with
  | case1 => rfl
  | case2 => rfl
  | case3 analyzer offset kept c cs carving hcarve text stop more next hpass ih =>
    rw [ih]
    exact (congrArg (fun passed => passed.2.mode) hpass).symm.trans (mode_pass _ _ _)

theorem mode_analyze (analyzer : Analyzer) (source : String) :
    (analyzer.analyze source).2.mode = analyzer.mode :=
  mode_scan _ _ _ _

end Analyzer

structure Runner where
  store : Store
  deriving DecidableEq, Inhabited, Repr

namespace Runner

def fresh : Runner :=
  ⟨.empty⟩

/-- Runs a statement, and gives what it prints. -/
def step (runner : Runner) : Statement → Option String × Runner
  | .assignment target expression =>
    (none, { runner with store := runner.store.set target (expression.value runner.store) })
  | .output expression =>
    (some (Decimal.ofValue (expression.value runner.store) ++ "\n"), runner)

def steps (runner : Runner) (output : String) : List Statement → String × Runner
  | [] => (output, runner)
  | statement :: rest =>
    let (fragment?, runner) := runner.step statement
    steps runner (output ++ fragment?.getD "") rest

def run (runner : Runner) (program : Program) : String × Runner :=
  steps { runner with store := .empty } "" program.statements

end Runner

structure Translator where
  output : String
  slots : Assembly.Slots
  deriving DecidableEq, Inhabited, Repr

namespace Translator

open Assembly

def fresh : Translator :=
  ⟨"", .empty⟩

def write (translator : Translator) (lines : List Line) : Translator :=
  { translator with output := translator.output ++ listing lines }

def statement (translator : Translator) : Statement → Translator
  | .assignment target expression =>
    let translator := { translator with slots := translator.slots.allocate target }
    translator.write (assignmentLines translator.slots target expression)
  | .output expression => translator.write (outputLines translator.slots expression)

/-- Hands the text over and keeps the slots. -/
def translate (translator : Translator) (program : Program) : String × Translator :=
  let cleared := { translator with output := "", slots := .empty }
  let opened := cleared.write (prologue program.frameSize)
  let closed := (program.statements.foldl statement opened).write epilogue
  (closed.output, { closed with output := "" })

end Translator

structure TreeWriter where
  output : String
  indent : Nat
  deriving DecidableEq, Inhabited, Repr

namespace TreeWriter

def fresh : TreeWriter :=
  ⟨"", 0⟩

def line (writer : TreeWriter) (text : String) : TreeWriter :=
  { writer with output := writer.output ++ Tree.render (writer.indent, text) }

def nested (label : String) (body : TreeWriter → TreeWriter) (writer : TreeWriter) : TreeWriter :=
  let labelled := writer.line label
  let inside := body { labelled with indent := labelled.indent + 1 }
  { inside with indent := inside.indent - 1 }

def expression (written : Expression) : TreeWriter → TreeWriter :=
  let label :=
    match written with
    | .identifier _ => "<identifier>"
    | .number _ => "<number>"
  nested "<expression>" (nested label fun writer => writer.line written.source)

def statement (writer : TreeWriter) : Statement → TreeWriter
  | .assignment target value =>
    nested "<assignment_statement>"
      (fun inside => expression value ((inside.line target).line "=")) writer
  | .output value =>
    nested "<output_statement>"
      (fun inside => (expression value ((inside.line "print").line "(")).line ")") writer

/-- Hands the text over. -/
def print (writer : TreeWriter) (program : Program) : String × TreeWriter :=
  let cleared := { writer with output := "", indent := 0 }
  let written := nested "<program>"
    (fun inside => (program.statements.foldl statement (inside.line "start")).line "end") cleared
  (written.output, { written with output := "" })

end TreeWriter

end StraightLine
