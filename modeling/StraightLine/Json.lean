/-!
# JSON values

A number without sign, fraction and exponent is a natural number; any other
number keeps its text. An object is a list of members in the order in which
they stand, and the last member of a name counts.
-/

namespace StraightLine

inductive Json
  | null
  | bool (value : Bool)
  | nat (value : Nat)
  | number (text : String)
  | string (text : String)
  | array (items : List Json)
  | object (members : List (String × Json))
  deriving Inhabited, Repr

namespace Json

/-- The value of the last member of a name. -/
def lookup (name : String) : List (String × Json) → Option Json
  | [] => none
  | member :: rest =>
    match lookup name rest with
    | some value => some value
    | none => if member.1 = name then some member.2 else none

def member? (name : String) : Json → Option Json
  | object members => lookup name members
  | _ => none

/-- The parts of a record: the members of the given names, where one that is missing counts as
null, or the items of an array of as many. -/
def record? (names : List String) : Json → Option (List Json)
  | object members => some (names.map fun name => (lookup name members).getD null)
  | array items => if items.length = names.length then some items else none
  | _ => none

/-- The name and the content of a variant: the only member of an object. -/
def variant? : Json → Option (String × Json)
  | object [member] => some member
  | _ => none

/-- The name of a variant without content. -/
def tag? : Json → Option String
  | string name => some name
  | object [(name, null)] => some name
  | _ => none

def string? : Json → Option String
  | string text => some text
  | _ => none

def natBelow? (bound : Nat) : Json → Option Nat
  | nat value => if value < bound then some value else none
  | _ => none

def list? {α : Type} (item? : Json → Option α) : Json → Option (List α)
  | array items => items.mapM item?
  | _ => none

end Json

end StraightLine
