/-!
# Decimal numerals

Reading takes the digits of a text and passes over everything else. Writing
gives the shortest numeral: no leading zero, a sign only below zero.
-/

namespace StraightLine.Decimal

/-- The number written in base ten by the digits of the text, in order. -/
def value (text : List Char) : Nat :=
  text.foldl (fun n c => if c.isDigit then 10 * n + (c.toNat - 48) else n) 0

theorem value_nil : value [] = 0 := rfl

theorem value_concat (text : List Char) (c : Char) :
    value (text ++ [c]) =
      if c.isDigit then 10 * value text + (c.toNat - 48) else value text := by
  simp [value]

def digit (d : Nat) : Char :=
  Char.ofNat (48 + d)

theorem isDigit_digit {d : Nat} (h : d < 10) : (digit d).isDigit = true := by
  have : ∀ e < 10, (digit e).isDigit = true := by decide
  exact this d h

theorem toNat_digit {d : Nat} (h : d < 10) : (digit d).toNat = 48 + d := by
  have : ∀ e < 10, (digit e).toNat = 48 + e := by decide
  exact this d h

/-- The shortest numeral of a natural number. -/
def digits (n : Nat) : List Char :=
  if n < 10 then [digit n] else digits (n / 10) ++ [digit (n % 10)]
termination_by n

theorem value_digits (n : Nat) : value (digits n) = n := by
  fun_induction digits n with
  | case1 n h =>
    have := value_concat [] (digit n)
    rw [List.nil_append, isDigit_digit h, toNat_digit h] at this
    simpa [value_nil] using this
  | case2 n h ih =>
    have hlt : n % 10 < 10 := Nat.mod_lt _ (by decide)
    rw [value_concat, isDigit_digit hlt, toNat_digit hlt, ih, if_pos rfl]
    omega

theorem isDigit_of_mem_digits {n : Nat} {c : Char} (h : c ∈ digits n) : c.isDigit = true := by
  fun_induction digits n with
  | case1 n hn =>
    rw [List.mem_singleton.mp h]
    exact isDigit_digit hn
  | case2 n hn ih =>
    rcases List.mem_append.mp h with h | h
    · exact ih h
    · rw [List.mem_singleton.mp h]
      exact isDigit_digit (Nat.mod_lt _ (by decide))

theorem not_mem_digits {c : Char} (h : c.isDigit = false) (n : Nat) : c ∉ digits n := by
  intro hmem
  rw [isDigit_of_mem_digits hmem] at h
  cases h

theorem digits_ne_nil (n : Nat) : digits n ≠ [] := by
  rw [digits]
  split <;> simp

theorem head?_digits {n : Nat} (h : 0 < n) : (digits n).head? ≠ some '0' := by
  fun_induction digits n with
  | case1 n hlt =>
    have : ∀ d < 10, 0 < d → digit d ≠ '0' := by decide
    simpa using this n hlt h
  | case2 n hle ih =>
    obtain ⟨c, front, hdigits⟩ := List.exists_cons_of_ne_nil (digits_ne_nil (n / 10))
    rw [hdigits] at ih ⊢
    exact ih (by omega)

def numeral (n : Int) : List Char :=
  if n < 0 then '-' :: digits n.natAbs else digits n.natAbs

/-- The digits of the text read into a word, which wraps around whenever it overflows. -/
def word (text : List Char) : UInt32 :=
  text.foldl (fun w c => if c.isDigit then 10 * w + UInt32.ofNat (c.toNat - 48) else w) 0

theorem word_concat (text : List Char) (c : Char) :
    word (text ++ [c]) =
      if c.isDigit then 10 * word text + UInt32.ofNat (c.toNat - 48) else word text := by
  simp [word]

/-- The value of a literal: the word its digits are read into, taken as a signed one. -/
def literal (text : String) : Int32 :=
  (word text.toList).toInt32

def ofValue (v : Int32) : String :=
  String.ofList (numeral v.toInt)

def ofNat (n : Nat) : String :=
  String.ofList (digits n)

end StraightLine.Decimal
