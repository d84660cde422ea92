import StraightLine.Assembly
import StraightLine.Assembly.Slots

/-!
# Compilation to assembly

A statement becomes a comment and a fixed row of instructions. The slot of a
target is given out before the right-hand side is read, so a name assigned to
itself for the first time reads its own fresh slot. A name without a slot
reads as zero.
-/

namespace StraightLine.Assembly

def Operand.ofExpression (slots : Slots) : Expression → Operand
  | .identifier name =>
    match slots.address? name with
    | some address => .slot address
    | none => .immediate 0
  | .number literal => .immediate (Decimal.literal literal)

def assignmentLines (slots : Slots) (target : String) (expression : Expression) : List Line :=
  [.comment (target ++ " = " ++ expression.source),
   .code (.load .eax (.ofExpression slots expression)),
   .code (.store (slots.address target))]

def outputLines (slots : Slots) (expression : Expression) : List Line :=
  [.comment ("print(" ++ expression.source ++ ")"),
   .code (.load .esi (.ofExpression slots expression)),
   .code .loadFormat,
   .code (.load .eax (.immediate 0)),
   .code .callPrint]

/-- The slots after the statements, and their lines. -/
def compile (slots : Slots) : List Statement → Slots × List Line
  | [] => (slots, [])
  | .assignment target expression :: rest =>
    let slots := slots.allocate target
    let (final, lines) := compile slots rest
    (final, assignmentLines slots target expression ++ lines)
  | .output expression :: rest =>
    let (final, lines) := compile slots rest
    (final, outputLines slots expression ++ lines)

theorem compile_append (slots : Slots) (first second : List Statement) :
    compile slots (first ++ second) =
      ((compile (compile slots first).1 second).1,
        (compile slots first).2 ++ (compile (compile slots first).1 second).2) := by
  induction first generalizing slots with
  | nil => rfl
  | cons statement rest ih => cases statement <;> simp [compile, ih]

/-- Compilation gives slots to the assigned names and to no others. -/
theorem names_compile (slots : Slots) (statements : List Statement) :
    (compile slots statements).1.names = Program.assignedAfter slots.names statements := by
  induction statements generalizing slots with
  | nil => rfl
  | cons statement rest ih =>
    cases statement with
    | assignment target expression => exact ih (slots.allocate target)
    | output expression => exact ih slots

def prologue (frame : Nat) : List Line :=
  [.directive ".intel_syntax noprefix",
   .directive ".section .rodata",
   .label ".LC0",
   .directive ".string \"%d\\n\"",
   .directive ".text",
   .directive ".globl main",
   .directive ".type main, @function",
   .label "main",
   .comment "prologue",
   .code .saveBase,
   .code .setBase,
   .code (.reserve frame)]

def epilogue : List Line :=
  [.comment "epilogue",
   .code (.load .eax (.immediate 0)),
   .code .leave,
   .code .ret,
   .directive ".section .note.GNU-stack,\"\",@progbits"]

end StraightLine.Assembly

namespace StraightLine.Program

open Assembly

def frameSize (program : Program) : Nat :=
  Assembly.frameSize program.assigned.length

def slots (program : Program) : Slots :=
  (compile .empty program.statements).1

def lines (program : Program) : List Line :=
  prologue program.frameSize ++ (compile .empty program.statements).2 ++ epilogue

def assembly (program : Program) : String :=
  listing program.lines

end StraightLine.Program
