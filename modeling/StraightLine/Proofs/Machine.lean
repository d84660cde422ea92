import StraightLine.Proofs.Machine.Memory
import StraightLine.Proofs.Machine.Reader

/-!
# A machine for listings

The machine has the three registers that listings use and a stack of bytes. It
assumes nothing about what is there at the start, nor about what a call of
`printf` leaves in the registers and below the reserved frame. It stops at an
instruction that comes before the frame is set up or after it is left, and at
a call without the address of the format string.
-/

namespace StraightLine

namespace Machine

open Assembly

inductive Stage
  | called
  | saved
  | based
  | left
  | returned
  deriving DecidableEq, Inhabited, Repr

structure Contents where
  eax : Int32
  esi : Int32
  edi : Int32
  memory : Memory

/-- All that a listing has no say in: where the format string is, what there is at the start, and
what each call leaves behind. -/
structure Surroundings where
  format : Int32
  atStart : Contents
  afterCall : Nat → Contents

structure State extends Contents where
  stage : Stage
  reserved : Nat
  calls : Nat
  printed : String

def start (outside : Surroundings) : State :=
  { outside.atStart with stage := .called, reserved := 0, calls := 0, printed := "" }

namespace State

def operand (state : State) : Operand → Int32
  | .immediate value => value
  | .slot address => state.memory.cell (-(address : Int))

def put (state : State) (register : Register) (value : Int32) : State :=
  match register with
  | .eax => { state with eax := value }
  | .esi => { state with esi := value }
  | .edi => { state with edi := value }

def store (state : State) (address : Nat) : State :=
  { state with memory := state.memory.store (-(address : Int)) state.eax }

/-- A call prints `esi` in decimal, on a line of its own, and keeps only the reserved frame. -/
def print (outside : Surroundings) (state : State) : State :=
  let left := outside.afterCall state.calls
  { state with
    eax := left.eax
    esi := left.esi
    edi := left.edi
    memory := state.memory.clobber left.memory state.reserved
    calls := state.calls + 1
    printed := state.printed ++ (toString state.esi.toInt ++ "\n") }

end State

def step (outside : Surroundings) (state : State) (instruction : Instruction) : Option State :=
  match state.stage, instruction with
  | .called, .saveBase => some { state with stage := .saved }
  | .saved, .setBase => some { state with stage := .based }
  | .based, .reserve size => some { state with reserved := state.reserved + size }
  | .based, .load register operand => some (state.put register (state.operand operand))
  | .based, .store address => some (state.store address)
  | .based, .loadFormat => some (state.put .edi outside.format)
  | .based, .callPrint => if state.edi = outside.format then some (state.print outside) else none
  | .based, .leave => some { state with stage := .left }
  | .left, .ret => some { state with stage := .returned }
  | _, _ => none

def run (outside : Surroundings) (state : State) (instructions : List Instruction) :
    Option State :=
  instructions.foldlM (step outside) state

/-- Reads a listing and runs all its instructions in order. -/
def execute (outside : Surroundings) (listing : String) : Option State :=
  (read? listing).bind (run outside (start outside))

theorem run_cons (outside : Surroundings) (state : State) (instruction : Instruction)
    (rest : List Instruction) :
    run outside state (instruction :: rest) =
      (step outside state instruction).bind fun next => run outside next rest := rfl

theorem run_append (outside : Surroundings) (state : State) (first second : List Instruction) :
    run outside state (first ++ second) =
      (run outside state first).bind fun next => run outside next second := by
  rw [run, List.foldlM_append]
  rfl

theorem execute_listing (outside : Surroundings) {lines : List Line}
    (h : ∀ line ∈ lines, line.ReadsBack) :
    execute outside (listing lines) =
      run outside (start outside) (lines.flatMap Line.instructions) := by
  rw [execute, read?_listing h]
  rfl

end Machine

end StraightLine
