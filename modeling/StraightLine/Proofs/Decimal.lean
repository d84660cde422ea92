import StraightLine.Assembly.Compilation
import StraightLine.Program.Evaluation
import StraightLine.Text.Character
import Mathlib.Data.Int.ModEq
import Mathlib.Data.List.Induction
import Mathlib.Data.Nat.Digits.Lemmas

/-!
# Literals and numerals

A literal is worth the number that its digits write in base ten, brought into
the range of a signed word. Every integer has one numeral, and the numeral of
a literal's value is what stands in a listing for it. So a listing has the
literal itself only where it is a numeral already and fits.
-/

namespace StraightLine.Decimal

/-- The number that the digits of a text write in base ten. The last of them counts the ones. -/
def written (text : List Char) : Nat :=
  Nat.ofDigits 10 ((text.filter Char.isDigit).map fun c => c.toNat - 48).reverse

theorem value_eq_written (text : List Char) : value text = written text := by
  induction text using List.reverseRecOn with
  | nil => rfl
  | append_singleton text c ih =>
    rw [value_concat, ih, written, written, List.filter_append, List.filter_singleton]
    cases c.isDigit with
    | false => simp
    | true =>
      simp only [if_true, cond_true, List.map_append, List.map_cons, List.map_nil,
        List.reverse_append, List.reverse_singleton, List.singleton_append, Nat.ofDigits_cons]
      exact Nat.add_comm _ _

/-- Wrapping around at each digit comes to the same as wrapping around once. -/
theorem word_eq_ofNat (text : List Char) : word text = UInt32.ofNat (written text) := by
  rw [← value_eq_written]
  induction text using List.reverseRecOn with
  | nil => rfl
  | append_singleton text c ih =>
    rw [word_concat, value_concat, ih]
    split
    · rw [UInt32.ofNat_add, UInt32.ofNat_mul]
      rfl
    · rfl

/-- What is left of a number modulo 2^32, read in two's complement. -/
def wrapped (n : Nat) : Int :=
  if n % 2 ^ 32 < 2 ^ 31 then (n % 2 ^ 32 : Nat) else (n % 2 ^ 32 : Nat) - 2 ^ 32

theorem eq_wrapped_iff (n : Nat) (z : Int) :
    z = wrapped n ↔ -2 ^ 31 ≤ z ∧ z < 2 ^ 31 ∧ z ≡ n [ZMOD 2 ^ 32] := by
  rw [wrapped, Int.ModEq]
  split <;> omega

theorem toInt_literal (text : String) :
    (literal text).toInt = wrapped (written text.toList) := by
  have hpos : 0 < Int32.size := by decide
  rw [literal, word_eq_ofNat, UInt32.toInt32_ofNat', Int32.toInt_ofNat', eq_wrapped_iff]
  obtain ⟨hlow, hhigh, hdvd⟩ := (Int.bmod_eq_iff hpos).mp (Eq.refl (Int.bmod _ Int32.size))
  exact ⟨hlow, hhigh, (Int.modEq_iff_dvd.mpr hdvd).symm⟩

theorem eq_toInt_literal_iff (text : String) (z : Int) :
    z = (literal text).toInt ↔
      -2 ^ 31 ≤ z ∧ z < 2 ^ 31 ∧ z ≡ written text.toList [ZMOD 2 ^ 32] := by
  rw [toInt_literal, eq_wrapped_iff]

/-! ### Numerals -/

theorem digits_eq_toDigits (n : Nat) : digits n = Nat.toDigits 10 n := by
  have hdigit : ∀ d < 10, digit d = Nat.digitChar d := by decide
  fun_induction digits n with
  | case1 n h => rw [Nat.toDigits_of_lt_base h, hdigit n h]
  | case2 n h ih =>
    rw [Nat.toDigits_of_base_le (by decide) (by omega), ih, hdigit _ (Nat.mod_lt n (by decide))]

theorem ofNat_eq_toString (n : Nat) : ofNat n = toString n := by
  rw [ofNat, digits_eq_toDigits]
  rfl

theorem ofValue_eq_toString (v : Int32) : ofValue v = toString v.toInt := by
  rw [ofValue, numeral]
  cases v.toInt with
  | ofNat n =>
    rw [if_neg (by simp)]
    exact ofNat_eq_toString n
  | negSucc n =>
    have hsigned : String.ofList ('-' :: digits (n + 1)) = "-" ++ ofNat (n + 1) := by
      rw [← String.toList_inj]
      simp [ofNat]
    rw [if_pos (Int.negSucc_lt_zero n), Int.natAbs_negSucc, hsigned, ofNat_eq_toString]
    rfl

/-- A row of digits with no zero in front, unless zero is all there is. -/
structure Shortest (text : List Char) : Prop where
  ne_nil : text ≠ []
  isDigit : ∀ c ∈ text, c.isDigit = true
  zero : text.head? = some '0' → text = ['0']

/-- The numerals and the integers that they are read as. -/
inductive Reads : List Char → Int → Prop
  | natural {text : List Char} (h : Shortest text) : Reads text (written text)
  | negative {text : List Char} (h : Shortest text) (hzero : text ≠ ['0']) :
      Reads ('-' :: text) (-written text)

theorem digits_zero : digits 0 = ['0'] := by
  rw [digits]
  rfl

theorem shortest_digits (n : Nat) : Shortest (digits n) where
  ne_nil := digits_ne_nil n
  isDigit := fun _ => isDigit_of_mem_digits
  zero := by
    intro hhead
    rcases Nat.eq_zero_or_pos n with rfl | hpos
    · exact digits_zero
    · exact absurd hhead (head?_digits hpos)

theorem digit_of_isDigit {c : Char} (h : c.isDigit = true) :
    c.toNat - 48 < 10 ∧ digit (c.toNat - 48) = c := by
  have hrange := Text.toNat_of_isDigit h
  have hcode : 48 + (c.toNat - 48) = c.toNat := by omega
  refine ⟨by omega, ?_⟩
  rw [digit, hcode, Char.ofNat_toNat]

/-- There is only one way to write a number without a zero in front. -/
theorem Shortest.digits_value {text : List Char} (h : Shortest text) :
    digits (value text) = text := by
  induction text using List.reverseRecOn with
  | nil => exact absurd rfl h.ne_nil
  | append_singleton front c ih =>
    have hc := h.isDigit c (by simp)
    obtain ⟨hlt, hdigit⟩ := digit_of_isDigit hc
    rw [value_concat, if_pos hc]
    rcases eq_or_ne front [] with rfl | hne
    · rw [value_nil, Nat.mul_zero, Nat.zero_add, digits, if_pos hlt, hdigit, List.nil_append]
    -- the front has no zero in front of it either, not even as its only digit
    · have hhead : front.head? ≠ some '0' := by
        intro hhead
        have hlength := congrArg List.length (h.zero (by rw [List.head?_append, hhead]; rfl))
        have := List.length_pos_iff.mpr hne
        simp only [List.length_append, List.length_singleton] at hlength
        omega
      have hfront : digits (value front) = front :=
        ih ⟨hne, fun d hd => h.isDigit d (List.mem_append_left _ hd), fun hzero => absurd hzero hhead⟩
      have hpos : value front ≠ 0 := by
        intro hzero
        rw [hzero, digits_zero] at hfront
        rw [← hfront] at hhead
        exact hhead rfl
      have hdiv : (10 * value front + (c.toNat - 48)) / 10 = value front := by omega
      have hmod : (10 * value front + (c.toNat - 48)) % 10 = c.toNat - 48 := by omega
      rw [digits, if_neg (by omega), hdiv, hmod, hfront, hdigit]

theorem written_digits (n : Nat) : written (digits n) = n := by
  rw [← value_eq_written, value_digits]

/-- Each integer has one numeral. -/
theorem reads_iff {text : List Char} {z : Int} : Reads text z ↔ text = numeral z := by
  constructor
  · intro h
    cases h with
    | natural h =>
      rw [numeral, if_neg (by omega), Int.natAbs_natCast, ← value_eq_written, h.digits_value]
    | @negative text h hzero =>
      have hne : written text ≠ 0 := by
        intro hnone
        rw [← h.digits_value, value_eq_written, hnone, digits_zero] at hzero
        exact hzero rfl
      rw [numeral, if_pos (by omega), Int.natAbs_neg, Int.natAbs_natCast, ← value_eq_written,
        h.digits_value]
  · rintro rfl
    rw [numeral]
    split
    · rename_i hneg
      have hread := Reads.negative (shortest_digits z.natAbs) (by
        intro hzero
        have hvalue := congrArg value hzero
        rw [value_digits, ← digits_zero, value_digits] at hvalue
        omega)
      rw [written_digits] at hread
      have hz : -(z.natAbs : Int) = z := by omega
      rwa [hz] at hread
    · rename_i hnonneg
      have hread := Reads.natural (shortest_digits z.natAbs)
      rw [written_digits] at hread
      have hz : (z.natAbs : Int) = z := by omega
      rwa [hz] at hread

/-- A row of digits is the numeral of its value as a literal if it has no zero in front and does not
leave the range of a signed word. -/
theorem ofValue_literal_eq_iff {text : String} (hne : text ≠ "")
    (hdigits : ∀ c ∈ text.toList, c.isDigit = true) :
    ofValue (literal text) = text ↔
      written text.toList < 2 ^ 31 ∧ (text.toList.head? = some '0' → text = "0") := by
  have hzero : text = "0" ↔ text.toList = ['0'] := String.toList_inj.symm
  have hread : ofValue (literal text) = text ↔ Reads text.toList (literal text).toInt := by
    rw [reads_iff, ofValue, ← String.toList_inj, String.toList_ofList, eq_comm]
  obtain ⟨hlow, hhigh, -⟩ := (eq_toInt_literal_iff text _).mp rfl
  rw [hread, hzero]
  constructor
  · intro h
    generalize hz : (literal text).toInt = z at h hhigh
    generalize htext : text.toList = cs at h hdigits ⊢
    cases h with
    | natural h => exact ⟨by omega, h.zero⟩
    | negative => cases hdigits '-' List.mem_cons_self
  · rintro ⟨hsmall, hhead⟩
    have hfits : (written text.toList : Int) = (literal text).toInt :=
      (eq_toInt_literal_iff text _).mpr ⟨by omega, by omega, rfl⟩
    have hshortest : Shortest text.toList :=
      ⟨mt String.toList_eq_nil_iff.mp hne, hdigits, hhead⟩
    rw [← hfits]
    exact .natural hshortest

open Assembly in
/-- A literal is worth the one signed word that is congruent to the number its digits write. Running
a program gives it this value, and the operand that stands for it in a listing is the numeral of
the value. A row of digits is left as it is if it is a numeral already and its number fits. -/
theorem reads_operand_literal (text : String) :
    (∀ z : Int, z = (literal text).toInt ↔
      -2 ^ 31 ≤ z ∧ z < 2 ^ 31 ∧ z ≡ written text.toList [ZMOD 2 ^ 32]) ∧
    (∀ store : Store, (Expression.number text).value store = literal text) ∧
    ∀ slots : Slots,
      Reads (Operand.ofExpression slots (.number text)).text.toList (literal text).toInt ∧
      (text ≠ "" → (∀ c ∈ text.toList, c.isDigit = true) →
        ((Operand.ofExpression slots (.number text)).text = text ↔
          written text.toList < 2 ^ 31 ∧ (text.toList.head? = some '0' → text = "0"))) := by
  refine ⟨eq_toInt_literal_iff text, fun _ => rfl, fun slots => ?_⟩
  have hoperand : (Operand.ofExpression slots (.number text)).text = ofValue (literal text) := rfl
  rw [hoperand]
  constructor
  · rw [reads_iff, ofValue, String.toList_ofList]
  · intro hne hdigits
    exact ofValue_literal_eq_iff hne hdigits

open Assembly in
theorem reads_operand_literal_overflow :
    "2147483648" ≠ "" ∧ (∀ c ∈ "2147483648".toList, c.isDigit = true) ∧
      (Operand.ofExpression .empty (.number "2147483648")).text ≠ "2147483648" ∧
      "0017" ≠ "" ∧ (∀ c ∈ "0017".toList, c.isDigit = true) ∧
      (Operand.ofExpression .empty (.number "0017")).text ≠ "0017" := by
  have hlarge : ∀ c ∈ "2147483648".toList, c.isDigit = true := List.all_eq_true.mp (by decide)
  have hpadded : ∀ c ∈ "0017".toList, c.isDigit = true := List.all_eq_true.mp (by decide)
  refine ⟨by decide, hlarge, ?_, by decide, hpadded, ?_⟩
  · intro h
    have hfits := (((reads_operand_literal "2147483648").2.2 .empty).2 (by decide) hlarge).mp h
    exact absurd hfits.1 (by decide)
  · intro h
    have hfits := (((reads_operand_literal "0017").2.2 .empty).2 (by decide) hpadded).mp h
    exact absurd (hfits.2 rfl) (by decide)

end StraightLine.Decimal
