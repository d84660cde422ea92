import StraightLine.Carving
import StraightLine.Text.Character

/-!
# Carving by a table of patterns

A pattern is a row of pieces, matched at the front of a text. A run takes as
many characters as it can and gives them back one by one when the pieces after
it fail, so the first match found is the preferred one. Every kind has a
pattern, and the kind of highest priority that matches wins.
-/

namespace StraightLine

inductive Piece
  | one (among : Char → Bool)
  | run (among : Char → Bool)
  | edge

abbrev Pattern := List Piece

namespace Pattern

/-- An edge parts a word character from something else, or from either end of the text. -/
def isEdge (before after : Option Char) : Bool :=
  before.any Text.isWord != after.any Text.isWord

/-- The size of a greedy run together with what follows it. -/
def greedy (among : Char → Bool) (next : Option Char → List Char → Option Nat) :
    Option Char → List Char → Option Nat
  | before, [] => next before []
  | before, c :: cs =>
    if among c then
      match greedy among next (some c) cs with
      | some size => some (size + 1)
      | none => next before (c :: cs)
    else next before (c :: cs)

/-- How many characters the pattern takes at the front of a text, given the character before it. -/
def reach : Pattern → Option Char → List Char → Option Nat
  | [], _, _ => some 0
  | .one _ :: _, _, [] => none
  | .one among :: rest, _, c :: cs => if among c then (reach rest (some c) cs).map (· + 1) else none
  | .run among :: rest, before, cs => greedy among (reach rest) before cs
  | .edge :: rest, before, cs => if isEdge before cs.head? then reach rest before cs else none

def symbol (c : Char) : Piece :=
  .one (· == c)

def word (text : String) : Pattern :=
  text.toList.map symbol

end Pattern

open Pattern in
def Kind.pattern : Kind → Pattern
  | .whiteSpace => [.one Text.isWhiteSpace, .run Text.isWhiteSpace]
  | .start => word "start" ++ [.edge]
  | .finish => word "end" ++ [.edge]
  | .print => word "print" ++ [.edge]
  | .assignment => word "="
  | .openParen => word "("
  | .closeParen => word ")"
  | .openComment => word "/*"
  | .closeComment => word "*/"
  | .identifier => [.one Char.isAlpha, .run Char.isAlpha, .run Text.isWord]
  | .number => [.one Char.isDigit, .run Char.isDigit, .edge]
  | .unrecognized => [.one fun _ => true]

namespace Carving

/-- The carving of one kind. A match that takes nothing does not count. -/
def ofKind? (source : List Char) (kind : Kind) : Option Carving :=
  match kind.pattern.reach none source with
  | some (size + 1) => some ⟨kind, size + 1, Nat.succ_pos size⟩
  | _ => none

def byPattern (source : List Char) : Option Carving :=
  Kind.all.findSome? (ofKind? source)

@[simp] theorem byPattern_nil : byPattern [] = none := by
  decide

/-- The last pattern takes any character, so no text but the empty one is refused. -/
theorem isSome_byPattern_cons (c : Char) (cs : List Char) : (byPattern (c :: cs)).isSome := by
  rw [byPattern, List.isSome_findSome?]
  exact List.any_eq_true.mpr ⟨.unrecognized, Kind.mem_all _, rfl⟩

end Carving

end StraightLine
