/-!
# Byte offsets

Places in a text are counted in bytes of its UTF-8 form. `front?` cuts a text
at such an offset and refuses to cut inside a character.
-/

namespace StraightLine.Text

def byteSize : List Char → Nat
  | [] => 0
  | c :: cs => c.utf8Size + byteSize cs

@[simp] theorem byteSize_nil : byteSize [] = 0 := rfl

@[simp] theorem byteSize_cons (c : Char) (cs : List Char) :
    byteSize (c :: cs) = c.utf8Size + byteSize cs := rfl

@[simp] theorem byteSize_append (a b : List Char) :
    byteSize (a ++ b) = byteSize a + byteSize b := by
  induction a with
  | nil => simp
  | cons c a ih => simp [ih, Nat.add_assoc]

theorem byteSize_eq_zero_iff (cs : List Char) : byteSize cs = 0 ↔ cs = [] := by
  cases cs with
  | nil => simp
  | cons c cs =>
    have := c.utf8Size_pos
    simp only [byteSize_cons, reduceCtorEq, iff_false]
    omega

/-- The front of the text that takes up exactly so many bytes, if there is one. -/
def front? : List Char → Nat → Option (List Char)
  | _, 0 => some []
  | [], _ + 1 => none
  | c :: cs, n + 1 =>
    if c.utf8Size ≤ n + 1 then (front? cs (n + 1 - c.utf8Size)).map (c :: ·) else none

theorem front?_byteSize (a b : List Char) : front? (a ++ b) (byteSize a) = some a := by
  induction a with
  | nil => cases b <;> rfl
  | cons c a ih =>
    obtain ⟨n, hn⟩ : ∃ n, c.utf8Size + byteSize a = n + 1 :=
      ⟨c.utf8Size + byteSize a - 1, by have := c.utf8Size_pos; omega⟩
    have hrest : n + 1 - c.utf8Size = byteSize a := by omega
    have hle : c.utf8Size ≤ n + 1 := by omega
    rw [List.cons_append, byteSize_cons, hn, front?, if_pos hle, hrest, ih]
    rfl

end StraightLine.Text
