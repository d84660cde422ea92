import StraightLine.Assembly.Compilation
import Mathlib.Data.List.Basic

/-!
# Slots of a frame

The slots that a program ends up with are apart from each other and inside the
frame, and a slot given out on the way is the one that the name has at the end.
-/

namespace StraightLine.Assembly

namespace Slots

variable {slots : Slots} {name other : String}

theorem mem_names_iff_address? :
    name ∈ slots.names ↔ slots.address? name = some (slots.address name) := by
  rw [address?]
  split <;> simp_all

theorem of_address?_eq_some {place : Nat} (h : slots.address? name = some place) :
    name ∈ slots.names ∧ place = slots.address name := by
  rw [address?] at h
  split at h
  · rename_i hmem
    exact ⟨hmem, (Option.some_inj.mp h).symm⟩
  · cases h

theorem address?_allocate_of_ne (h : other ≠ name) :
    (slots.allocate name).address? other = slots.address? other := by
  cases hother : slots.address? other with
  | some place => exact address?_allocate_of_some hother
  | none =>
    rw [address?] at hother ⊢
    split at hother
    · cases hother
    · rename_i hmem
      rw [if_neg]
      intro hallocate
      rcases (mem_names_allocate_iff _ _ _).mp hallocate with hslots | heq
      · exact hmem hslots
      · exact h heq

theorem four_le_address (slots : Slots) (name : String) : 4 ≤ slots.address name := by
  rw [address]
  omega

theorem address_le (h : name ∈ slots.names) : slots.address name ≤ 4 * slots.names.length := by
  have hlt := List.idxOf_lt_length_of_mem h
  rw [address]
  omega

theorem address_apart (hname : name ∈ slots.names) (hne : other ≠ name) :
    slots.address other + 4 ≤ slots.address name ∨
      slots.address name + 4 ≤ slots.address other := by
  have hindex : slots.names.idxOf other ≠ slots.names.idxOf name := by
    intro heq
    exact hne ((List.idxOf_inj hname).mp heq.symm).symm
  rw [address, address]
  omega

end Slots

theorem address?_compile_of_some {slots : Slots} {name : String} {place : Nat}
    (h : slots.address? name = some place) (statements : List Statement) :
    (compile slots statements).1.address? name = some place := by
  induction statements generalizing slots with
  | nil => exact h
  | cons statement rest ih =>
    cases statement with
    | assignment target expression => exact ih (Slots.address?_allocate_of_some h)
    | output expression => exact ih h

end StraightLine.Assembly

namespace StraightLine.Program

theorem names_slots (program : Program) : program.slots.names = program.assigned :=
  Assembly.names_compile .empty program.statements

theorem mem_names_slots_iff (program : Program) (name : String) :
    name ∈ program.slots.names ↔ name ∈ program.assigned := by
  rw [names_slots]

end StraightLine.Program
