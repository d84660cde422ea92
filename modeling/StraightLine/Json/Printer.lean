import StraightLine.Json
import StraightLine.Text.Decimal

/-!
# Writing JSON

There are two layouts, and they differ in blanks alone: one writes none, the
other puts each member and each item on a line of its own, indented by two
spaces for each value it is inside.
-/

namespace StraightLine.Json

inductive Layout
  | compact
  | pretty
  deriving DecidableEq, Inhabited, Repr

/-- What stands in front of an item or a closing bracket at the given depth. -/
def Layout.gap : Layout → Nat → List Char
  | compact, _ => []
  | pretty, depth => '\n' :: List.replicate (2 * depth) ' '

def Layout.colon : Layout → List Char
  | compact => [':']
  | pretty => [':', ' ']

def hexDigit (d : Nat) : Char :=
  if d < 10 then Char.ofNat (48 + d) else Char.ofNat (87 + d)

/-- Quotes, backslashes and the characters below the space are escaped, all others stand as
they are. -/
def escape (c : Char) : List Char :=
  if c = '"' then ['\\', '"']
  else if c = '\\' then ['\\', '\\']
  else if c = '\x08' then ['\\', 'b']
  else if c = '\x0c' then ['\\', 'f']
  else if c = '\n' then ['\\', 'n']
  else if c = '\r' then ['\\', 'r']
  else if c = '\t' then ['\\', 't']
  else if c.toNat < 0x20 then
    ['\\', 'u', '0', '0', hexDigit (c.toNat / 16), hexDigit (c.toNat % 16)]
  else [c]

def quote (text : String) : List Char :=
  '"' :: text.toList.flatMap escape ++ ['"']

mutual

def print (layout : Layout) (depth : Nat) : Json → List Char
  | null => ['n', 'u', 'l', 'l']
  | bool true => ['t', 'r', 'u', 'e']
  | bool false => ['f', 'a', 'l', 's', 'e']
  | nat value => Decimal.digits value
  | number text => text.toList
  | string text => quote text
  | array [] => ['[', ']']
  | array (item :: rest) =>
    '[' :: layout.gap (depth + 1) ++ print layout (depth + 1) item ++
      printItems layout (depth + 1) rest ++ layout.gap depth ++ [']']
  | object [] => ['\x7b', '\x7d']
  | object ((name, value) :: rest) =>
    '\x7b' :: layout.gap (depth + 1) ++ quote name ++ layout.colon ++
      print layout (depth + 1) value ++ printMembers layout (depth + 1) rest ++
        layout.gap depth ++ ['\x7d']

/-- The items after the first, each behind a comma. -/
def printItems (layout : Layout) (depth : Nat) : List Json → List Char
  | [] => []
  | item :: rest =>
    ',' :: layout.gap depth ++ print layout depth item ++ printItems layout depth rest

/-- The members after the first, each behind a comma. -/
def printMembers (layout : Layout) (depth : Nat) : List (String × Json) → List Char
  | [] => []
  | (name, value) :: rest =>
    ',' :: layout.gap depth ++ quote name ++ layout.colon ++ print layout depth value ++
      printMembers layout depth rest

end

def text (layout : Layout) (value : Json) : String :=
  String.ofList (print layout 0 value)

end StraightLine.Json
