import StraightLine.Carving.Munch
import StraightLine.Carving.Scan
import StraightLine.Fault

/-!
# Lexemes

A source is cut into tokens that follow each other without a gap, in one of
two modes. White space and comments are then left out. A comment reaches from
an opening delimiter to the next closing one, and comments do not nest.
-/

namespace StraightLine

structure Lexeme where
  source : String
  kind : Kind
  span : Span
  deriving DecidableEq, Inhabited, Repr

inductive Mode
  | pattern
  | scan
  deriving DecidableEq, Inhabited, Repr

/-- Carving by the longest run is carving by the table of patterns, without the search. -/
def Mode.carve : Mode → List Char → Option Carving
  | .pattern => Carving.munch
  | .scan => Carving.byScan

theorem Mode.carve_pattern (source : List Char) :
    Mode.pattern.carve source = Carving.byPattern source :=
  (Carving.byPattern_eq_munch source).symm

theorem Mode.isSome_carve_cons (mode : Mode) (c : Char) (cs : List Char) :
    (mode.carve (c :: cs)).isSome := by
  cases mode
  · exact Carving.isSome_munch_cons c cs
  · exact Carving.isSome_byScan_cons c cs

namespace Lexeme

/-- All tokens of a text that begins at the given offset. -/
def tokens (mode : Mode) (offset : Nat) : List Char → Except Fault (List Lexeme)
  | [] => .ok []
  | c :: cs =>
    match mode.carve (c :: cs) with
    | none => .error (.unreadable offset)
    | some carving =>
      let text := carving.text (c :: cs)
      let stop := offset + Text.byteSize text
      (tokens mode stop (carving.rest (c :: cs))).map
        (⟨String.ofList text, carving.kind, ⟨offset, stop⟩⟩ :: ·)
termination_by source => source.length
decreasing_by exact carving.length_rest_lt (List.cons_ne_nil c cs)

theorem tokens_cons {mode : Mode} {offset : Nat} {c : Char} {cs : List Char} {carving : Carving}
    (h : mode.carve (c :: cs) = some carving) :
    tokens mode offset (c :: cs) =
      (tokens mode (offset + Text.byteSize (carving.text (c :: cs)))
          (carving.rest (c :: cs))).map
        (⟨String.ofList (carving.text (c :: cs)), carving.kind,
          ⟨offset, offset + Text.byteSize (carving.text (c :: cs))⟩⟩ :: ·) := by
  rw [tokens, h]

/-- Neither mode refuses a character, so a text always has tokens. -/
theorem exists_tokens_eq_ok (mode : Mode) (offset : Nat) (source : List Char) :
    ∃ found, tokens mode offset source = .ok found := by
  match source with
  | [] => exact ⟨[], by rw [tokens]⟩
  | c :: cs =>
    obtain ⟨carving, hcarve⟩ := Option.isSome_iff_exists.mp (mode.isSome_carve_cons c cs)
    obtain ⟨found, hfound⟩ := exists_tokens_eq_ok mode
      (offset + Text.byteSize (carving.text (c :: cs))) (carving.rest (c :: cs))
    exact ⟨_, by rw [tokens_cons hcarve, hfound]; rfl⟩
termination_by source.length
decreasing_by exact carving.length_rest_lt (List.cons_ne_nil c cs)

/-- The tokens outside comments, given whether the first one is inside. -/
def visible (inComment : Bool) : List Lexeme → List Lexeme
  | [] => []
  | token :: rest =>
    match token.kind with
    | .openComment => visible true rest
    | .closeComment => visible false rest
    | .whiteSpace => visible inComment rest
    | _ => if inComment then visible inComment rest else token :: visible inComment rest

theorem visible_sublist (inComment : Bool) (tokens : List Lexeme) :
    (visible inComment tokens).Sublist tokens := by
  fun_induction visible inComment tokens with
  | case1 => exact .slnil
  | case2 _ _ _ _ ih => exact ih.cons _
  | case3 _ _ _ _ ih => exact ih.cons _
  | case4 _ _ _ _ ih => exact ih.cons _
  | case5 _ _ _ _ _ ih => exact ih.cons _
  | case6 _ _ _ _ _ _ _ ih => exact ih.cons_cons _

/-- The lexemes of a source that a parser should see. -/
def analyze (mode : Mode) (source : String) : Except Fault (List Lexeme) :=
  (tokens mode 0 source.toList).map (visible false)

theorem exists_analyze_eq_ok (mode : Mode) (source : String) :
    ∃ lexemes, analyze mode source = .ok lexemes := by
  obtain ⟨found, hfound⟩ := exists_tokens_eq_ok mode 0 source.toList
  exact ⟨visible false found, by rw [analyze, hfound]; rfl⟩

end Lexeme

end StraightLine
