import StraightLine.Assembly.Slots

/-!
# Stack memory

Memory is made of bytes, counted from the frame base, so that the frame lies
at negative addresses. A cell is a word of four bytes with the lowest first.
Cells that share a byte disturb each other; the slots of a frame never do.
-/

namespace StraightLine.Machine

abbrev Memory := Int → BitVec 8

namespace Memory

/-- The word whose first byte is at the given address. -/
def cell (memory : Memory) (address : Int) : Int32 :=
  .ofBitVec (memory (address + 3) ++ memory (address + 2) ++ memory (address + 1) ++ memory address)

def store (memory : Memory) (address : Int) (value : Int32) : Memory := fun place =>
  if place = address then value.toBitVec.extractLsb' 0 8
  else if place = address + 1 then value.toBitVec.extractLsb' 8 8
  else if place = address + 2 then value.toBitVec.extractLsb' 16 8
  else if place = address + 3 then value.toBitVec.extractLsb' 24 8
  else memory place

theorem cell_congr {first second : Memory} {address : Int}
    (h : ∀ place, address ≤ place → place < address + 4 → first place = second place) :
    first.cell address = second.cell address := by
  rw [cell, cell, h address (by omega) (by omega), h (address + 1) (by omega) (by omega),
    h (address + 2) (by omega) (by omega), h (address + 3) (by omega) (by omega)]

theorem store_of_outside (memory : Memory) {address place : Int} (value : Int32)
    (h : place < address ∨ address + 4 ≤ place) :
    memory.store address value place = memory place := by
  rw [store, if_neg (by omega), if_neg (by omega), if_neg (by omega), if_neg (by omega)]

theorem word_eq_of_bytes (word : BitVec 32) :
    (word.extractLsb' 24 8 ++ word.extractLsb' 16 8 ++ word.extractLsb' 8 8 ++
      word.extractLsb' 0 8 : BitVec 32) = word := by
  rw [BitVec.extractLsb'_append_extractLsb'_eq_extractLsb' (by rfl),
    BitVec.extractLsb'_append_extractLsb'_eq_extractLsb' (by rfl),
    BitVec.extractLsb'_append_extractLsb'_eq_extractLsb' (by rfl)]
  exact BitVec.extractLsb'_eq_self

@[simp] theorem cell_store_self (memory : Memory) (address : Int) (value : Int32) :
    (memory.store address value).cell address = value := by
  have h₀ : memory.store address value address = value.toBitVec.extractLsb' 0 8 := if_pos rfl
  have h₁ : memory.store address value (address + 1) = value.toBitVec.extractLsb' 8 8 := by
    rw [store, if_neg (by omega), if_pos rfl]
  have h₂ : memory.store address value (address + 2) = value.toBitVec.extractLsb' 16 8 := by
    rw [store, if_neg (by omega), if_neg (by omega), if_pos rfl]
  have h₃ : memory.store address value (address + 3) = value.toBitVec.extractLsb' 24 8 := by
    rw [store, if_neg (by omega), if_neg (by omega), if_neg (by omega), if_pos rfl]
  rw [cell, h₀, h₁, h₂, h₃, word_eq_of_bytes]
  rfl

theorem cell_store_of_disjoint (memory : Memory) {address other : Int} (value : Int32)
    (h : other + 4 ≤ address ∨ address + 4 ≤ other) :
    (memory.store address value).cell other = memory.cell other := by
  apply cell_congr
  intro place hlow hhigh
  exact memory.store_of_outside value (by omega)

/-- The memory after something else has used the stack: every byte below the given depth is
what it left there. -/
def clobber (memory left : Memory) (depth : Nat) : Memory := fun place =>
  if place < -(depth : Int) then left place else memory place

theorem clobber_of_le (memory left : Memory) {depth : Nat} {place : Int}
    (h : -(depth : Int) ≤ place) : memory.clobber left depth place = memory place := by
  rw [clobber, if_neg (by omega)]

theorem cell_clobber_of_le (memory left : Memory) {depth : Nat} {address : Int}
    (h : -(depth : Int) ≤ address) :
    (memory.clobber left depth).cell address = memory.cell address := by
  apply cell_congr
  intro place hlow _
  exact memory.clobber_of_le left (by omega)

end Memory

end StraightLine.Machine
