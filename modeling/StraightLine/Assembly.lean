import StraightLine.Text.Decimal

/-!
# Assembly listings

The instructions a listing is made of, and how each line is written. A slot is
addressed by its distance below the frame base.
-/

namespace StraightLine.Assembly

inductive Register
  | eax
  | esi
  | edi
  deriving DecidableEq, Inhabited, Repr

inductive Operand
  | immediate (value : Int32)
  | slot (address : Nat)
  deriving DecidableEq, Inhabited, Repr

inductive Instruction
  | saveBase
  | setBase
  | reserve (size : Nat)
  | load (register : Register) (operand : Operand)
  /-- Stores `eax`. -/
  | store (address : Nat)
  /-- Loads the address of the format string into `edi`. -/
  | loadFormat
  | callPrint
  | leave
  | ret
  deriving DecidableEq, Inhabited, Repr

inductive Line
  | directive (text : String)
  | label (name : String)
  | comment (text : String)
  | code (instruction : Instruction)
  deriving DecidableEq, Inhabited, Repr

def Register.text : Register → String
  | eax => "eax"
  | esi => "esi"
  | edi => "edi"

def slotText (address : Nat) : String :=
  "DWORD PTR [rbp-" ++ Decimal.ofNat address ++ "]"

def Operand.text : Operand → String
  | immediate value => Decimal.ofValue value
  | slot address => slotText address

def Instruction.text : Instruction → String
  | saveBase => "push rbp"
  | setBase => "mov rbp, rsp"
  | reserve size => "sub rsp, " ++ Decimal.ofNat size
  | load register operand => "mov " ++ register.text ++ ", " ++ operand.text
  | store address => "mov " ++ slotText address ++ ", eax"
  | loadFormat => "mov edi, OFFSET FLAT:.LC0"
  | callPrint => "call    printf"
  | leave => "leave"
  | ret => "ret"

def Line.text : Line → String
  | directive text => "    " ++ text
  | label name => name ++ ":"
  | comment text => "# " ++ text
  | code instruction => "    " ++ instruction.text

/-- A listing ends every line with a line feed. -/
def listing (lines : List Line) : String :=
  String.join (lines.map fun line => line.text ++ "\n")

@[simp] theorem listing_append (first second : List Line) :
    listing (first ++ second) = listing first ++ listing second := by
  simp [listing]

end StraightLine.Assembly
