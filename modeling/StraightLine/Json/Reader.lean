import StraightLine.Json
import StraightLine.Text.Character
import StraightLine.Text.Decimal

/-!
# Reading JSON

The reader takes one value and nothing behind it but blanks. An escaped
character outside the sixteen-bit range is written as two surrogates, and a
surrogate that stands alone is refused.
-/

namespace StraightLine.Json

def skipBlanks (text : List Char) : List Char :=
  text.dropWhile Text.isBlank

def hexValue? (c : Char) : Option Nat :=
  if c.isDigit then some (c.toNat - 48)
  else if 'a' ≤ c ∧ c ≤ 'f' then some (c.toNat - 87)
  else if 'A' ≤ c ∧ c ≤ 'F' then some (c.toNat - 55)
  else none

def unit? (a b c d : Char) : Option Nat := do
  return 4096 * (← hexValue? a) + 256 * (← hexValue? b) + 16 * (← hexValue? c) + (← hexValue? d)

/-- The characters of a row of units, where two surrogates make up one character. -/
def joinUnits? : List Nat → Option (List Char)
  | [] => some []
  | unit :: rest =>
    if unit < 0xD800 ∨ 0xDFFF < unit then (joinUnits? rest).map (Char.ofNat unit :: ·)
    else
      match rest with
      | low :: rest =>
        if unit ≤ 0xDBFF ∧ 0xDC00 ≤ low ∧ low ≤ 0xDFFF then
          (joinUnits? rest).map
            (Char.ofNat (0x10000 + 0x400 * (unit - 0xD800) + (low - 0xDC00)) :: ·)
        else none
      | [] => none

def escapedUnit? : Char → Option Nat
  | '"' => some 0x22
  | '\\' => some 0x5C
  | '/' => some 0x2F
  | 'b' => some 0x08
  | 'f' => some 0x0C
  | 'n' => some 0x0A
  | 'r' => some 0x0D
  | 't' => some 0x09
  | _ => none

/-- The units up to the closing quote, and what stands behind it. -/
def readUnits : List Char → Option (List Nat × List Char)
  | [] => none
  | '"' :: rest => some ([], rest)
  | '\\' :: 'u' :: a :: b :: c :: d :: rest => do
    let unit ← unit? a b c d
    let (units, rest) ← readUnits rest
    return (unit :: units, rest)
  | '\\' :: c :: rest => do
    let unit ← escapedUnit? c
    let (units, rest) ← readUnits rest
    return (unit :: units, rest)
  | c :: rest =>
    if c.toNat < 0x20 then none
    else do
      let (units, rest) ← readUnits rest
      return (c.toNat :: units, rest)

/-- The string whose opening quote has been taken. -/
def readString (text : List Char) : Option (String × List Char) := do
  let (units, rest) ← readUnits text
  let chars ← joinUnits? units
  return (String.ofList chars, rest)

def isNumberChar (c : Char) : Bool :=
  c.isDigit || c == '-' || c == '+' || c == '.' || c == 'e' || c == 'E'

/-- Digits without a superfluous leading zero. -/
def isNatural (text : List Char) : Bool :=
  match text with
  | [] => false
  | ['0'] => true
  | c :: cs => c.isDigit && c != '0' && cs.all Char.isDigit

def isDigits (text : List Char) : Bool :=
  !text.isEmpty && text.all Char.isDigit

/-- Nothing, or the mark of an exponent, a sign that may be missing, and digits. -/
def isExponent : List Char → Bool
  | [] => true
  | mark :: rest =>
    (mark == 'e' || mark == 'E') &&
      match rest with
      | '+' :: digits => isDigits digits
      | '-' :: digits => isDigits digits
      | digits => isDigits digits

/-- Nothing, or a point and digits, and then perhaps an exponent. -/
def isFraction : List Char → Bool
  | '.' :: rest =>
    isDigits (rest.takeWhile Char.isDigit) && isExponent (rest.dropWhile Char.isDigit)
  | rest => isExponent rest

def isUnsigned (text : List Char) : Bool :=
  isNatural (text.takeWhile Char.isDigit) && isFraction (text.dropWhile Char.isDigit)

def number? (text : List Char) : Option Json :=
  if isNatural text then some (nat (Decimal.value text))
  else
    match text with
    | '-' :: rest => if isUnsigned rest then some (number (String.ofList text)) else none
    | _ => if isUnsigned text then some (number (String.ofList text)) else none

mutual

/-- A value at the front of a text, and what stands behind it. Each call takes one of the steps. -/
def readValue (steps : Nat) (text : List Char) : Option (Json × List Char) :=
  match steps with
  | 0 => none
  | steps + 1 =>
    match skipBlanks text with
    | 'n' :: 'u' :: 'l' :: 'l' :: rest => some (null, rest)
    | 't' :: 'r' :: 'u' :: 'e' :: rest => some (bool true, rest)
    | 'f' :: 'a' :: 'l' :: 's' :: 'e' :: rest => some (bool false, rest)
    | '"' :: rest => do
      let (value, rest) ← readString rest
      return (string value, rest)
    | '[' :: rest =>
      match skipBlanks rest with
      | ']' :: rest => some (array [], rest)
      | _ => do
        let (items, rest) ← readItems steps rest
        return (array items, rest)
    | '\x7b' :: rest =>
      match skipBlanks rest with
      | '\x7d' :: rest => some (object [], rest)
      | _ => do
        let (members, rest) ← readMembers steps rest
        return (object members, rest)
    | other => do
      let value ← number? (other.takeWhile isNumberChar)
      return (value, other.dropWhile isNumberChar)

def readItems (steps : Nat) (text : List Char) : Option (List Json × List Char) :=
  match steps with
  | 0 => none
  | steps + 1 => do
    let (item, rest) ← readValue steps text
    match skipBlanks rest with
    | ']' :: rest => return ([item], rest)
    | ',' :: rest => do
      let (items, rest) ← readItems steps rest
      return (item :: items, rest)
    | _ => none

def readMembers (steps : Nat) (text : List Char) :
    Option (List (String × Json) × List Char) :=
  match steps with
  | 0 => none
  | steps + 1 =>
    match skipBlanks text with
    | '"' :: rest => do
      let (name, rest) ← readString rest
      match skipBlanks rest with
      | ':' :: rest => do
        let (value, rest) ← readValue steps rest
        match skipBlanks rest with
        | '\x7d' :: rest => return ([(name, value)], rest)
        | ',' :: rest => do
          let (members, rest) ← readMembers steps rest
          return ((name, value) :: members, rest)
        | _ => none
      | _ => none
    | _ => none

end

/-- The value a text stands for. Every character is worth two steps, which is enough: of two
calls in a row one takes a character. -/
def read? (source : String) : Option Json :=
  let text := source.toList
  match readValue (2 * text.length + 2) text with
  | some (value, rest) => if skipBlanks rest = [] then some value else none
  | none => none

end StraightLine.Json
