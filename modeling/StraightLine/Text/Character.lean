/-!
# Classes of characters

White space is the Unicode property; a blank is one of the four characters
that separate words in either way of carving. Letters, digits and word
characters are those of ASCII: a letter outside ASCII belongs to no class.
-/

namespace StraightLine.Text

/-- First and last code point of each range with the property White_Space. -/
def whiteSpaceRanges : List (Nat × Nat) :=
  [(0x09, 0x0D), (0x20, 0x20), (0x85, 0x85), (0xA0, 0xA0), (0x1680, 0x1680),
   (0x2000, 0x200A), (0x2028, 0x2029), (0x202F, 0x202F), (0x205F, 0x205F), (0x3000, 0x3000)]

def isWhiteSpace (c : Char) : Bool :=
  whiteSpaceRanges.any fun range => decide (range.1 ≤ c.toNat ∧ c.toNat ≤ range.2)

theorem isWhiteSpace_eq_true_iff (c : Char) :
    isWhiteSpace c = true ↔ ∃ range ∈ whiteSpaceRanges, range.1 ≤ c.toNat ∧ c.toNat ≤ range.2 := by
  simp only [isWhiteSpace, List.any_eq_true, decide_eq_true_eq]

def isBlank (c : Char) : Bool :=
  c == ' ' || c == '\t' || c == '\r' || c == '\n'

theorem isBlank_eq_true_iff (c : Char) :
    isBlank c = true ↔ c = ' ' ∨ c = '\t' ∨ c = '\r' ∨ c = '\n' := by
  simp [isBlank, or_assoc]

theorem isWhiteSpace_of_isBlank {c : Char} (h : isBlank c = true) : isWhiteSpace c = true := by
  rcases (isBlank_eq_true_iff c).mp h with rfl | rfl | rfl | rfl <;> decide

def isWord (c : Char) : Bool :=
  c.isAlphanum || c == '_'

theorem isWord_of_isAlpha {c : Char} (h : c.isAlpha = true) : isWord c = true := by
  simp [isWord, Char.isAlphanum, h]

theorem isWord_of_isDigit {c : Char} (h : c.isDigit = true) : isWord c = true := by
  simp [isWord, Char.isAlphanum, h]

theorem toNat_of_isDigit {c : Char} (h : c.isDigit = true) : 48 ≤ c.toNat ∧ c.toNat ≤ 57 := by
  obtain ⟨hfirst, hlast⟩ := Bool.and_eq_true_iff.mp h
  exact ⟨of_decide_eq_true hfirst, of_decide_eq_true hlast⟩

end StraightLine.Text
