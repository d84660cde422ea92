import StraightLine.Proofs.Carving

/-!
# The table of patterns as a lexer of words

The table looks for a pattern that matches, in order of priority, and each
pattern gives back characters until its end fits. What it finds can be said
without any search, from the first character: white space and words reach as
far as they can, and the kind of a word is decided by the whole of it. No
other definition says so of any text.
-/

namespace StraightLine

open Text

/-- The run is not empty, and it is all that the class takes from the front of `run ++ rest`. -/
structure Text.Longest (among : Char → Bool) (run rest : List Char) : Prop where
  ne_nil : run ≠ []
  among_eq : ∀ c ∈ run, among c = true
  ends : Ends among rest

namespace Carving

/-- The foremost token of a text is of this kind and takes up so many bytes. -/
inductive Foremost : List Char → Kind → Nat → Prop
  | whiteSpace {run rest : List Char} (hrun : Longest isWhiteSpace run rest) :
      Foremost (run ++ rest) .whiteSpace (byteSize run)
  | start {rest : List Char} (hrest : Ends isWord rest) :
      Foremost ("start".toList ++ rest) .start 5
  | finish {rest : List Char} (hrest : Ends isWord rest) :
      Foremost ("end".toList ++ rest) .finish 3
  | print {rest : List Char} (hrest : Ends isWord rest) :
      Foremost ("print".toList ++ rest) .print 5
  | identifier {c : Char} {run rest : List Char} (hc : c.isAlpha = true)
      (hrun : Longest isWord (c :: run) rest)
      (hother : ∀ word ∈ ["start", "end", "print"], c :: run ≠ word.toList) :
      Foremost (c :: run ++ rest) .identifier (byteSize (c :: run))
  | number {run rest : List Char} (hrun : Longest Char.isDigit run rest)
      (hrest : Ends isWord rest) : Foremost (run ++ rest) .number (byteSize run)
  /-- A word character comes right behind the digits, and the first digit is cut off alone. -/
  | glued {run rest : List Char} (hrun : Longest Char.isDigit run rest)
      (hrest : ¬ Ends isWord rest) : Foremost (run ++ rest) .unrecognized 1
  | assignment {rest : List Char} : Foremost ('=' :: rest) .assignment 1
  | openParen {rest : List Char} : Foremost ('(' :: rest) .openParen 1
  | closeParen {rest : List Char} : Foremost (')' :: rest) .closeParen 1
  | openComment {rest : List Char} : Foremost ('/' :: '*' :: rest) .openComment 2
  | closeComment {rest : List Char} : Foremost ('*' :: '/' :: rest) .closeComment 2
  | other {c : Char} {rest : List Char} (hspace : isWhiteSpace c = false)
      (halpha : c.isAlpha = false) (hdigit : c.isDigit = false) (hsymbol : c ∉ ['=', '(', ')'])
      (hopening : ¬ ['/', '*'] <+: c :: rest) (hclosing : ¬ ['*', '/'] <+: c :: rest) :
      Foremost (c :: rest) .unrecognized c.utf8Size

variable {source text rest : List Char} {kind : Kind} {size : Nat}

theorem utf8Size_of_isDigit {c : Char} (h : c.isDigit = true) : c.utf8Size = 1 := by
  have hrange := toNat_of_isDigit h
  rw [Char.utf8Size_eq_one_iff, UInt32.le_iff_toNat_le]
  exact hrange.2.trans (by decide)

theorem pair_prefix_iff {c d e : Char} : [d, e] <+: c :: rest ↔ c = d ∧ rest.head? = some e := by
  cases rest with
  | nil => simp
  | cons b rest => simp [List.cons_prefix_cons, eq_comm]

theorem isDelimiter_eq_false_iff {c : Char} :
    isDelimiter c rest.head? = false ↔ ¬ ['/', '*'] <+: c :: rest ∧ ¬ ['*', '/'] <+: c :: rest := by
  rw [Bool.eq_false_iff, ne_eq, isDelimiter_eq_true_iff, not_or, pair_prefix_iff, pair_prefix_iff]

theorem not_ends_iff {among : Char → Bool} : ¬ Ends among rest ↔ rest.head?.any among = true := by
  cases rest with
  | nil => simp [ends_nil]
  | cons c rest => simp [ends_cons]

open Mode

theorem foremost_word (htext : isIdentifier text = true) (hrest : Ends isWord rest) :
    Foremost (text ++ rest) (Kind.ofWord text) (byteSize text) := by
  rw [ofWord_eq]
  split
  · rename_i hword
    subst hword
    exact .start hrest
  rename_i hstart
  split
  · rename_i hword
    subst hword
    exact .finish hrest
  rename_i hfinish
  split
  · rename_i hword
    subst hword
    exact .print hrest
  rename_i hprint
  obtain ⟨c, run, rfl, hc, -⟩ := (isIdentifier_eq_true_iff _).mp htext
  refine .identifier hc ⟨List.cons_ne_nil _ _, isWord_of_isIdentifier htext, hrest⟩ ?_
  rw [List.forall_mem_cons, List.forall_mem_cons, List.forall_mem_singleton]
  exact ⟨hstart, hfinish, hprint⟩

theorem foremost_of_shape (h : Shape .pattern text rest kind) :
    Foremost (text ++ rest) kind (byteSize text) := by
  cases h with
  | space hne htext hrest => exact .whiteSpace ⟨hne, htext, hrest⟩
  | assignment => exact .assignment
  | openParen => exact .openParen
  | closeParen => exact .closeParen
  | openComment => exact .openComment
  | closeComment => exact .closeComment
  | @lone _ c _ hc hrest =>
    obtain ⟨hopening, hclosing⟩ := isDelimiter_eq_false_iff.mp hrest
    obtain rfl | rfl := hc
    · exact .other rfl rfl rfl (by decide) hopening hclosing
    · exact .other rfl rfl rfl (by decide) hopening hclosing
  | word htext hrest => exact foremost_word htext hrest
  | number hne htext hrest => exact .number ⟨hne, htext, hrest.isDigit⟩ hrest
  | @glued c _ hc hrest =>
    have hrun : Longest Char.isDigit (c :: rest.takeWhile Char.isDigit)
        (rest.dropWhile Char.isDigit) :=
      ⟨List.cons_ne_nil _ _, forall_mem_cons_takeWhile hc rest, ends_dropWhile _ rest⟩
    have hglued := Foremost.glued hrun (not_ends_iff.mpr hrest)
    rw [List.cons_append, List.takeWhile_append_dropWhile] at hglued
    rwa [byteSize_cons, utf8Size_of_isDigit hc]
  | @stray c _ hspace halpha hdigit hstop =>
    have hother : ∀ d, isStop d = true → c ≠ d := by
      rintro d hd rfl
      rw [hstop] at hd
      cases hd
    refine .other hspace halpha hdigit ?_ ?_ ?_
    · rintro hsymbol
      obtain rfl | rfl | rfl : c = '=' ∨ c = '(' ∨ c = ')' := by simpa using hsymbol
      all_goals cases hstop
    · exact fun h => hother '/' rfl (pair_prefix_iff.mp h).1
    · exact fun h => hother '*' rfl (pair_prefix_iff.mp h).1

theorem Foremost.exists_shape (h : Foremost source kind size) :
    ∃ text rest, source = text ++ rest ∧ size = byteSize text ∧ Shape .pattern text rest kind := by
  cases h with
  | @whiteSpace run rest hrun =>
    exact ⟨run, rest, rfl, rfl, .space hrun.ne_nil hrun.among_eq hrun.ends⟩
  | @start rest hrest => exact ⟨_, rest, rfl, rfl, .word rfl hrest⟩
  | @finish rest hrest => exact ⟨_, rest, rfl, rfl, .word rfl hrest⟩
  | @print rest hrest => exact ⟨_, rest, rfl, rfl, .word rfl hrest⟩
  | @identifier c run rest hc hrun hother =>
    rw [List.forall_mem_cons, List.forall_mem_cons, List.forall_mem_singleton] at hother
    obtain ⟨hstart, hfinish, hprint⟩ := hother
    have hword : Kind.ofWord (c :: run) = .identifier :=
      (ofWord_eq _).trans ((if_neg hstart).trans ((if_neg hfinish).trans (if_neg hprint)))
    have htext : isIdentifier (c :: run) = true :=
      (isIdentifier_eq_true_iff _).mpr
        ⟨c, run, rfl, hc, fun d hd => hrun.among_eq d (List.mem_cons_of_mem c hd)⟩
    exact ⟨c :: run, rest, rfl, rfl, hword ▸ .word htext hrun.ends⟩
  | @number run rest hrun hrest =>
    exact ⟨run, rest, rfl, rfl, .number hrun.ne_nil hrun.among_eq hrest⟩
  | @glued run rest hrun hrest =>
    obtain ⟨c, run, rfl⟩ := List.exists_cons_of_ne_nil hrun.ne_nil
    obtain ⟨hc, hmore⟩ := List.forall_mem_cons.mp hrun.among_eq
    refine ⟨[c], run ++ rest, rfl, (utf8Size_of_isDigit hc).symm, .glued hc ?_⟩
    rw [dropWhile_of_ends hmore hrun.ends]
    exact not_ends_iff.mp hrest
  | @assignment rest => exact ⟨['='], rest, rfl, rfl, .assignment⟩
  | @openParen rest => exact ⟨['('], rest, rfl, rfl, .openParen⟩
  | @closeParen rest => exact ⟨[')'], rest, rfl, rfl, .closeParen⟩
  | @openComment rest => exact ⟨['/', '*'], rest, rfl, rfl, .openComment⟩
  | @closeComment rest => exact ⟨['*', '/'], rest, rfl, rfl, .closeComment⟩
  | @other c rest hspace halpha hdigit hsymbol hopening hclosing =>
    refine ⟨[c], rest, rfl, rfl, ?_⟩
    have hlone := isDelimiter_eq_false_iff.mpr ⟨hopening, hclosing⟩
    rcases hstop : isStop c with _ | _
    · exact .stray hspace halpha hdigit hstop
    · obtain hblank | rfl | rfl | rfl | rfl | rfl := (isStop_eq_true_iff c).mp hstop
      · rw [isWhiteSpace_of_isBlank hblank] at hspace
        cases hspace
      · exact absurd (by decide) hsymbol
      · exact absurd (by decide) hsymbol
      · exact absurd (by decide) hsymbol
      · exact .lone (.inr rfl) hlone
      · exact .lone (.inl rfl) hlone

/-- On every text but the empty one the table finds a match, and its kind and size are the ones that
the first token is said to have. -/
theorem foremost_iff_byPattern (c : Char) (cs : List Char) :
    ∃ carving, byPattern (c :: cs) = some carving ∧
      ∀ kind size, Foremost (c :: cs) kind size ↔
        kind = carving.kind ∧ size = byteSize (carving.text (c :: cs)) := by
  obtain ⟨carving, hcarving⟩ := Option.isSome_iff_exists.mp (isSome_byPattern_cons c cs)
  refine ⟨carving, hcarving, fun kind size => ?_⟩
  constructor
  · intro h
    obtain ⟨text, rest, hsource, rfl, hshape⟩ := h.exists_shape
    obtain ⟨found, hfound, rfl, htext⟩ := takes_iff_shape.mpr hshape
    rw [← hsource] at hfound htext
    rw [carve_pattern, hcarving] at hfound
    cases hfound
    rw [htext]
    exact ⟨rfl, rfl⟩
  · rintro ⟨rfl, rfl⟩
    rw [byPattern_eq_munch] at hcarving
    have hforemost := foremost_of_shape (shape_munch hcarving)
    rwa [carving.text_append_rest] at hforemost

/-- A letter that is not ASCII ends a word. -/
example : Foremost ['p', 'r', 'i', 'n', 't', 'é'] .print 5 :=
  @Foremost.print ['é'] (ends_cons.mpr rfl)

end Carving

end StraightLine
