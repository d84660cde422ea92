import StraightLine.Assembly.Compilation
import StraightLine.Command.Arguments
import StraightLine.Command.Path
import StraightLine.Lexeme.Json
import StraightLine.Program.Evaluation
import StraightLine.Program.Json
import StraightLine.Program.Reading
import StraightLine.Program.Tree
import StraightLine.Report

/-!
# Carrying out an invocation

An invocation reads its input and works on it, and a build then writes a
listing and looks for a compiler. All that is done to the outside goes through
a host. What an invocation says is one text on success and one failure
otherwise.
-/

namespace StraightLine.Command

/-- The outside: files, and compilers that answer with their exit status when they are there. -/
structure Host (m : Type → Type) where
  read : String → m (Except String ByteArray)
  write : String → String → m (Except String Unit)
  remove : String → m Unit
  compile : String → List String → m (Option Nat)

inductive Failure
  | reading (path reason : String)
  | fault (report : Report)
  | overwriting (output path : String)
  | writing (path reason : String)
  deriving DecidableEq, Inhabited, Repr

def Failure.message : Failure → String
  | reading path reason => "reading " ++ path ++ ": " ++ reason
  | fault report => report.human
  | overwriting output path => output ++ " output " ++ path ++ " would overwrite the input"
  | writing path reason => "writing " ++ path ++ ": " ++ reason

/-- The exit status and what is written on either channel. -/
structure Outcome where
  status : Nat
  output : String
  errors : String
  deriving DecidableEq, Inhabited, Repr

namespace Outcome

def success (text : String) : Outcome :=
  ⟨0, text, ""⟩

/-- Of all failures only a fault has a report to be shown as JSON. -/
def ofFailure (jsonErrors : Bool) : Failure → Outcome
  | .fault report =>
    if jsonErrors then ⟨1, report.pretty ++ "\n", ""⟩
    else ⟨1, "", "Error: " ++ report.human ++ "\n"⟩
  | failure => ⟨1, "", "Error: " ++ failure.message ++ "\n"⟩

def misuse : Outcome :=
  ⟨2, "", "usage: startc [--mode pattern|scan] [--json-errors] lex|parse|run|build|check FILE\n"⟩

end Outcome

def padLeft (width : Nat) (text : String) : String :=
  String.ofList (List.replicate (width - text.length) ' ') ++ text

def row (number : Nat) (lexeme : Lexeme) : String :=
  padLeft 4 (Decimal.ofNat number) ++ "  " ++ lexeme.kind.name ++ " " ++ lexeme.source ++ "\n"

def rows (number : Nat) : List Lexeme → List String
  | [] => []
  | lexeme :: rest => row number lexeme :: rows (number + 1) rest

def table (lexemes : List Lexeme) : String :=
  String.join (rows 1 lexemes)

/-- The report of a fault found in a file. Every fault found by reading has a location. -/
def reportOf (fault : Fault) (file source : String) : Report :=
  (Report.ofFault? fault file source).getD ⟨fault.code, .error, fault.message, none⟩

/-- The listing and the executable of a build. An output that is given names the listing if
nothing else is wanted, and the executable otherwise. -/
def outputPaths (input : String) (output? : Option String) (emitAssembly : Bool) :
    Except Failure (String × String) :=
  let listing := if emitAssembly then output?.getD (Path.withExtension input "s")
    else Path.withExtension input "s"
  let executable := if emitAssembly then Path.withExtension input "out"
    else output?.getD (Path.withExtension input "out")
  if Path.alike listing input then .error (.overwriting "assembly" listing)
  else if !emitAssembly && Path.alike executable input then
    .error (.overwriting "executable" executable)
  else .ok (listing, executable)

theorem not_alike_of_outputPaths {input : String} {output? : Option String}
    {emitAssembly : Bool} {listing executable : String}
    (h : outputPaths input output? emitAssembly = .ok (listing, executable)) :
    Path.alike listing input = false ∧
      (emitAssembly = false → Path.alike executable input = false) := by
  simp only [outputPaths] at h
  grind

section Steps

variable {m : Type → Type} [Monad m] (host : Host m)

def readSource (input : String) : ExceptT Failure m String := do
  match ← host.read input with
  | .error reason => throw (.reading input reason)
  | .ok content =>
    match String.fromUTF8? content with
    | some source => return source
    | none => throw (.reading input "stream did not contain valid UTF-8")

/-- Turns a fault in a source into a failure with a report. -/
def reported {α : Type} (file source : String) : Except Fault α → ExceptT Failure m α
  | .ok a => pure a
  | .error fault => throw (.fault (reportOf fault file source))

def readProgram (mode : Mode) (input : String) : ExceptT Failure m Program := do
  let source ← readSource host input
  reported input source (Program.ofSource mode source)

def firstCompiler (arguments : List String) : List String → m (Option String)
  | [] => pure none
  | compiler :: rest => do
    if (← host.compile compiler arguments) = some 0 then return some compiler
    firstCompiler arguments rest

def compilers : List String :=
  ["cc", "gcc", "clang"]

def build (input : String) (output? : Option String) (emitAssembly : Bool) (program : Program) :
    ExceptT Failure m String := do
  let (listing, executable) ← liftM (outputPaths input output? emitAssembly)
  match ← host.write listing program.assembly with
  | .error reason => throw (.writing listing reason)
  | .ok () =>
    if emitAssembly then return "  [✓] Generated assembly: " ++ listing ++ "\n"
    let compiler? ← ExceptT.lift
      (firstCompiler host ["-no-pie", "-o", executable, listing] compilers)
    host.remove listing
    match compiler? with
    | some compiler =>
      return "  [✓] Assembled with " ++ compiler ++ "\n\n✅ Output: " ++ executable ++ "\n"
    | none =>
      let fault : Fault := .assembler "could not assemble with cc, gcc or clang"
      throw (.fault (reportOf fault input ""))

def perform (invocation : Invocation) : ExceptT Failure m String := do
  let input := invocation.input
  match invocation.job with
  | .lex json =>
    let source ← readSource host input
    let lexemes ← reported input source (Lexeme.analyze invocation.mode source)
    if json then return (Lexeme.listToJson lexemes).text .pretty ++ "\n"
    return table lexemes
  | .parse json =>
    let program ← readProgram host invocation.mode input
    if json then return program.toJson.text .pretty ++ "\n"
    return program.tree
  | .run =>
    let program ← readProgram host invocation.mode input
    return program.output
  | .build output? emitAssembly =>
    let program ← readProgram host invocation.mode input
    build host input output? emitAssembly program
  | .check =>
    let program ← readProgram host invocation.mode input
    return "✅ No errors found (" ++ Decimal.ofNat program.statements.length ++ " statements)\n"

def invoke (invocation : Invocation) : m Outcome := do
  match ← (perform host invocation).run with
  | .ok text => return .success text
  | .error failure => return .ofFailure invocation.jsonErrors failure

def execute (arguments : List String) : m Outcome :=
  match Request.ofArguments? arguments with
  | none => pure .misuse
  | some .version => pure (.success "startc 0.1.0\n")
  | some (.invoke invocation) => invoke host invocation

end Steps

end StraightLine.Command
