import StraightLine.Kind

/-!
# Carvings

A carving is a decision about the front of a text: how many characters make up
the first token, and of which kind it is. It never takes nothing.
-/

namespace StraightLine

structure Carving where
  kind : Kind
  size : Nat
  size_pos : 0 < size
  deriving DecidableEq, Repr

namespace Carving

def text (carving : Carving) (source : List Char) : List Char :=
  source.take carving.size

def rest (carving : Carving) (source : List Char) : List Char :=
  source.drop carving.size

@[simp] theorem text_append_rest (carving : Carving) (source : List Char) :
    carving.text source ++ carving.rest source = source :=
  List.take_append_drop _ _

theorem length_rest_lt (carving : Carving) {source : List Char} (h : source ≠ []) :
    (carving.rest source).length < source.length := by
  have hpos := carving.size_pos
  have hlen := List.length_pos_iff.mpr h
  rw [rest, List.length_drop]
  omega

theorem text_ne_nil (carving : Carving) {source : List Char} (h : source ≠ []) :
    carving.text source ≠ [] := by
  intro htext
  have hlt := carving.length_rest_lt h
  have := congrArg List.length (carving.text_append_rest source)
  rw [htext, List.nil_append] at this
  omega

end Carving

end StraightLine
