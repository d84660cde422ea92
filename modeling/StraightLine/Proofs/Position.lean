import StraightLine.Span
import Mathlib.Algebra.Group.Nat.Defs
import Mathlib.Data.List.TakeWhile

/-!
# Positions in a source

A reader of a position parts the source into lines, goes down to the line and
then to the right over characters. For the position behind a front of the
source this leads exactly behind that front, as long as lines and columns can
be counted in 32 bits.
-/

namespace StraightLine

namespace Text

theorem length_le_byteSize (text : List Char) : text.length ≤ byteSize text := by
  induction text with
  | nil => exact Nat.le_refl 0
  | cons c text ih =>
    have := c.utf8Size_pos
    rw [List.length_cons, byteSize_cons]
    omega

/-- Lines written out, each with a line feed behind it. -/
def unlines (lines : List (List Char)) : List Char :=
  lines.flatMap (· ++ ['\n'])

theorem unlines_cons (line : List Char) (lines : List (List Char)) :
    unlines (line :: lines) = line ++ '\n' :: unlines lines := by
  rw [unlines, List.flatMap_cons, List.append_assoc]
  rfl

/-- Texts written on lines of their own. -/
theorem toList_join (texts : List String) :
    (String.join (texts.map fun text => text ++ "\n")).toList =
      unlines (texts.map String.toList) := by
  rw [String.toList_join, unlines, List.flatMap_map, List.flatMap_map]
  simp

/-- Every text is a number of whole lines and a line that is not ended. -/
theorem exists_unlines (text : List Char) : ∃ lines left,
    text = unlines lines ++ left ∧ (∀ line ∈ lines, '\n' ∉ line) ∧ '\n' ∉ left := by
  induction text with
  | nil => exact ⟨[], [], rfl, List.forall_mem_nil _, List.not_mem_nil⟩
  | cons c text ih =>
    obtain ⟨lines, left, rfl, hlines, hleft⟩ := ih
    rcases eq_or_ne c '\n' with rfl | hc
    · refine ⟨[] :: lines, left, ?_, List.forall_mem_cons.mpr ⟨List.not_mem_nil, hlines⟩, hleft⟩
      rw [unlines_cons]
      rfl
    · cases lines with
      | nil => exact ⟨[], c :: left, rfl, hlines, List.not_mem_cons_of_ne_of_not_mem hc.symm hleft⟩
      | cons line lines =>
        obtain ⟨hline, hlines⟩ := List.forall_mem_cons.mp hlines
        refine ⟨(c :: line) :: lines, left, ?_, ?_, hleft⟩
        · rw [unlines_cons, unlines_cons]
          rfl
        · exact List.forall_mem_cons.mpr ⟨List.not_mem_cons_of_ne_of_not_mem hc.symm hline, hlines⟩

variable {lines : List (List Char)} {left : List Char}

theorem bne_newline_of_not_mem (hleft : '\n' ∉ left) : ∀ c ∈ left, (c != '\n') = true :=
  fun _ hc => bne_iff_ne.mpr (ne_of_mem_of_not_mem hc hleft)

theorem count_unlines (hlines : ∀ line ∈ lines, '\n' ∉ line) :
    (unlines lines).count '\n' = lines.length := by
  induction lines with
  | nil => rfl
  | cons line lines ih =>
    obtain ⟨hline, hlines⟩ := List.forall_mem_cons.mp hlines
    rw [unlines_cons, List.count_append, List.count_eq_zero.mpr hline, List.count_cons_self,
      ih hlines, List.length_cons, Nat.zero_add]

theorem splitOn_unlines_append (hlines : ∀ line ∈ lines, '\n' ∉ line) (rest : List Char) :
    (unlines lines ++ rest).splitOn '\n' = lines ++ rest.splitOn '\n' := by
  induction lines with
  | nil => rfl
  | cons line lines ih =>
    obtain ⟨hline, hlines⟩ := List.forall_mem_cons.mp hlines
    rw [unlines_cons, List.append_assoc, List.cons_append,
      List.splitOn_append_cons_self_of_not_mem hline, ih hlines]
    rfl

theorem splitOn_unlines (hlines : ∀ line ∈ lines, '\n' ∉ line) :
    (unlines lines).splitOn '\n' = lines ++ [[]] := by
  have hsplit := splitOn_unlines_append hlines []
  rwa [List.append_nil, List.splitOn_nil] at hsplit

/-- The first line of a text goes up to the first line feed. -/
theorem head?_splitOn (text : List Char) :
    (text.splitOn '\n').head? = some (text.takeWhile (· != '\n')) := by
  obtain ⟨lines, left, rfl, hlines, hleft⟩ := exists_unlines text
  rw [splitOn_unlines_append hlines]
  cases lines with
  | nil =>
    rw [List.splitOn_eq_singleton hleft]
    exact congrArg some (List.takeWhile_eq_self_iff.mpr (bne_newline_of_not_mem hleft)).symm
  | cons line lines =>
    have hline := (List.forall_mem_cons.mp hlines).1
    rw [unlines_cons, List.append_assoc,
      List.takeWhile_append_of_pos (bne_newline_of_not_mem hline)]
    simp

end Text

open Text

namespace Position

/-- The text in front of a position and what stands behind it on its line. A position that is not
in the source has neither. -/
def split? (position : Position) (source : List Char) : Option (List Char × List Char) :=
  let lines := source.splitOn '\n'
  let above := position.line.toNat - 1
  let left := position.column.toNat - 1
  lines[above]?.bind fun line =>
    if 0 < position.line.toNat ∧ 0 < position.column.toNat ∧ left ≤ line.length then
      some (unlines (lines.take above) ++ line.take left, line.drop left)
    else none

variable {lines : List (List Char)} {left : List Char}

theorem after_unlines_append (hlines : ∀ line ∈ lines, '\n' ∉ line) (hleft : '\n' ∉ left) :
    after (unlines lines ++ left) =
      ⟨UInt32.ofNat (lines.length + 1), UInt32.ofNat (left.length + 1)⟩ := by
  have hcount : (unlines lines ++ left).count '\n' = lines.length := by
    rw [List.count_append, count_unlines hlines, List.count_eq_zero.mpr hleft, Nat.add_zero]
  have hreverse : '\n' ∉ left.reverse := mt List.mem_reverse.mp hleft
  have hcolumn : (unlines lines ++ left).reverse.takeWhile (· != '\n') = left.reverse := by
    rw [List.reverse_append, List.takeWhile_append_of_pos (bne_newline_of_not_mem hreverse)]
    rcases List.eq_nil_or_concat lines with rfl | ⟨front, last, rfl⟩
    · exact List.append_nil _
    · simp [unlines]
  rw [after, hcount, hcolumn, List.length_reverse]

/-- The position behind a front of a source is behind that front for whoever reads it. -/
theorem split?_after {front back : List Char} (hsize : byteSize front < 2 ^ 32 - 1) :
    (after front).split? (front ++ back) = some (front, back.takeWhile (· != '\n')) := by
  obtain ⟨lines, left, rfl, hlines, hleft⟩ := exists_unlines front
  have hlength := length_le_byteSize (unlines lines ++ left)
  have hcount : lines.length ≤ (unlines lines).length :=
    count_unlines hlines ▸ List.count_le_length
  rw [List.length_append] at hlength
  have hline : (UInt32.ofNat (lines.length + 1)).toNat = lines.length + 1 :=
    UInt32.toNat_ofNat_of_lt' (by rw [UInt32.size]; omega)
  have hcolumn : (UInt32.ofNat (left.length + 1)).toNat = left.length + 1 :=
    UInt32.toNat_ofNat_of_lt' (by rw [UInt32.size]; omega)
  have hfirst : ∃ more, (left ++ back).splitOn '\n' =
      (left ++ back.takeWhile (· != '\n')) :: more := by
    have hhead := head?_splitOn (left ++ back)
    rw [List.takeWhile_append_of_pos (bne_newline_of_not_mem hleft)] at hhead
    exact List.head?_eq_some_iff.mp hhead
  obtain ⟨more, hmore⟩ := hfirst
  simp only [split?, after_unlines_append hlines hleft, hline, hcolumn, List.append_assoc,
    splitOn_unlines_append hlines, hmore, Nat.add_sub_cancel]
  simp

end Position

end StraightLine
