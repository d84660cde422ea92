import StraightLine.Carving
import StraightLine.Text.Character

/-!
# Carving at stop characters

The scanner takes everything up to the next stop character, or a run of
blanks, or a comment delimiter, or a single stop character. Only then does it
look at the text taken to find the kind.
-/

namespace StraightLine

def Text.isStop (c : Char) : Bool :=
  isBlank c || c == '(' || c == ')' || c == '=' || c == '*' || c == '/'

def Text.isIdentifier : List Char → Bool
  | [] => false
  | c :: cs => c.isAlpha && cs.all isWord

theorem Text.isIdentifier_eq_true_iff (cs : List Char) :
    isIdentifier cs = true ↔
      ∃ c rest, cs = c :: rest ∧ c.isAlpha = true ∧ ∀ d ∈ rest, isWord d = true := by
  cases cs with
  | nil => simp [isIdentifier]
  | cons c cs => simp [isIdentifier, and_assoc]

namespace Kind

def ofText (text : List Char) : Kind :=
  match keyword? (String.ofList text) with
  | some kind => kind
  | none =>
    if Text.isIdentifier text then identifier
    else if text = ['('] then openParen
    else if text = [')'] then closeParen
    else if text = ['='] then assignment
    else if text = ['/', '*'] then openComment
    else if text = ['*', '/'] then closeComment
    else if text.head?.any Text.isBlank then whiteSpace
    else if text.all Char.isDigit then number
    else unrecognized

end Kind

namespace Carving

def isDelimiter (c : Char) (next : Option Char) : Bool :=
  (c == '/' && next == some '*') || (c == '*' && next == some '/')

/-- How many characters after the first one belong to its token. -/
def tailSize (c : Char) (cs : List Char) : Nat :=
  if !Text.isStop c then (cs.takeWhile fun d => !Text.isStop d).length
  else if Text.isBlank c then (cs.takeWhile Text.isBlank).length
  else if isDelimiter c cs.head? then 1
  else 0

def byScan : List Char → Option Carving
  | [] => none
  | c :: cs =>
    let size := tailSize c cs + 1
    some ⟨Kind.ofText ((c :: cs).take size), size, Nat.succ_pos _⟩

@[simp] theorem byScan_nil : byScan [] = none := rfl

theorem isSome_byScan_cons (c : Char) (cs : List Char) : (byScan (c :: cs)).isSome := rfl

end Carving

end StraightLine
