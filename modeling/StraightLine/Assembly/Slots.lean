import StraightLine.Program

/-!
# Slots

Each assigned name has a slot of four bytes below the frame base. Slots are
given out in order of first assignment, and a name keeps the one it has.
-/

namespace StraightLine.Assembly

/-- The names that have a slot, in the order in which they got it. -/
structure Slots where
  names : List String
  deriving DecidableEq, Inhabited, Repr

namespace Slots

def empty : Slots :=
  ⟨[]⟩

def allocate (slots : Slots) (name : String) : Slots :=
  ⟨Program.enlist slots.names name⟩

theorem mem_names_allocate_iff (slots : Slots) (name other : String) :
    other ∈ (slots.allocate name).names ↔ other ∈ slots.names ∨ other = name :=
  Program.mem_enlist_iff _ _ _

/-- The address of the slot a name has, or of the one it would get. -/
def address (slots : Slots) (name : String) : Nat :=
  4 * (slots.names.idxOf name + 1)

def address? (slots : Slots) (name : String) : Option Nat :=
  if name ∈ slots.names then some (slots.address name) else none

@[simp] theorem address?_empty (name : String) : empty.address? name = none := by
  simp [address?, empty]

theorem address_allocate (slots : Slots) (name : String) :
    (slots.allocate name).address name = slots.address name := by
  rw [address, address, allocate, Program.enlist]
  split
  · rfl
  · rename_i h
    rw [List.idxOf_append, if_neg h, List.idxOf_eq_length h]
    simp

theorem address?_allocate_self (slots : Slots) (name : String) :
    (slots.allocate name).address? name = some (slots.address name) := by
  rw [address?, address_allocate, if_pos ((mem_names_allocate_iff _ _ _).mpr (.inr rfl))]

/-- Allocation never moves a slot that is in use. -/
theorem address?_allocate_of_some {slots : Slots} {name other : String} {place : Nat}
    (h : slots.address? other = some place) :
    (slots.allocate name).address? other = some place := by
  rw [address?] at h
  split at h
  · rename_i hmem
    rw [address?, if_pos ((mem_names_allocate_iff _ _ _).mpr (.inl hmem)), ← h, address, address,
      allocate, Program.enlist]
    split
    · rfl
    · rw [List.idxOf_append, if_pos hmem]
  · cases h

end Slots

/-- The size of a frame: four bytes for each name, rounded up to a multiple of sixteen that is
not zero. -/
def frameSize (names : Nat) : Nat :=
  16 * max 1 ((4 * names + 15) / 16)

theorem le_frameSize (names : Nat) : 4 * names ≤ frameSize names := by
  rw [frameSize]
  omega

theorem frameSize_mono {a b : Nat} (h : a ≤ b) : frameSize a ≤ frameSize b := by
  rw [frameSize, frameSize]
  omega

end StraightLine.Assembly
