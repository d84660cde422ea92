import StraightLine.Proofs.Lexeme.Comment

/-!
# Separators

White space and whole comments leave no lexeme behind and do not change what
is seen of the text after them, in either mode.
-/

namespace StraightLine

open Text

/-- White space and comments. A comment ends in its first closing delimiter, and no slash comes
before that. -/
inductive Text.Separator : List Char → Prop
  | nil : Separator []
  | blank {c : Char} {rest : List Char} (hc : isBlank c = true) (hrest : Separator rest) :
      Separator (c :: rest)
  | comment {body rest : List Char} (hbody : ¬ ['*', '/'] <:+: body)
      (hlast : body.getLast? ≠ some '/') (hrest : Separator rest) :
      Separator (['/', '*'] ++ (body ++ (['*', '/'] ++ rest)))

theorem Text.Separator.of_forall {run : List Char} (h : ∀ c ∈ run, isBlank c = true) :
    Separator run := by
  induction run with
  | nil => exact .nil
  | cons c run ih =>
    obtain ⟨hc, hrun⟩ := List.forall_mem_cons.mp h
    exact .blank hc (ih hrun)

theorem Text.Separator.stops {gap : List Char} (h : Separator gap) : Stops gap := by
  cases h with
  | nil => exact ends_nil
  | blank hc _ =>
    refine ends_cons.mpr ?_
    rw [(isStop_eq_true_iff _).mpr (.inl hc)]
    rfl
  | comment _ _ _ => exact ends_cons.mpr rfl

namespace Lexeme

open Mode

variable {mode : Mode} {offset : Nat}

theorem visible_cut_space {run rest : List Char} (hrun : ∀ c ∈ run, mode.isSpace c = true)
    (hrest : Ends mode.isSpace rest) (inComment : Bool) (offset : Nat) :
    visible inComment (cut mode offset (run ++ rest)) =
      visible inComment (cut mode (offset + byteSize run) rest) := by
  rcases eq_or_ne run [] with rfl | hne
  · rfl
  · rw [cut_append (takes_iff_shape.mpr (.space hne hrun hrest))]
    rfl

/-- Space can be left out, even if it parts a longer run of space. -/
theorem visible_cut_isSpace {c : Char} (hc : mode.isSpace c = true) (inComment : Bool)
    (offset : Nat) (cs : List Char) :
    visible inComment (cut mode offset (c :: cs)) =
      visible inComment (cut mode (offset + c.utf8Size) cs) := by
  have hrun : ∀ d ∈ cs.takeWhile mode.isSpace, mode.isSpace d = true :=
    fun d hd => List.mem_takeWhile_imp hd
  have hrest := ends_dropWhile mode.isSpace cs
  have hlonger := Carving.forall_mem_cons_takeWhile hc cs
  rw [← List.takeWhile_append_dropWhile (p := mode.isSpace) (l := cs), ← List.cons_append,
    visible_cut_space hlonger hrest, visible_cut_space hrun hrest, byteSize_cons, Nat.add_assoc]

theorem visible_cut_of_forall_isSpace {run : List Char} (hrun : ∀ c ∈ run, mode.isSpace c = true)
    (inComment : Bool) (offset : Nat) (rest : List Char) :
    visible inComment (cut mode offset (run ++ rest)) =
      visible inComment (cut mode (offset + byteSize run) rest) := by
  induction run generalizing offset with
  | nil => rfl
  | cons c run ih =>
    obtain ⟨hc, hrun⟩ := List.forall_mem_cons.mp hrun
    rw [List.cons_append, visible_cut_isSpace hc, ih hrun, byteSize_cons, Nat.add_assoc]

theorem visible_cut_separator {gap : List Char} (h : Separator gap) (offset : Nat)
    (rest : List Char) :
    visible false (cut mode offset (gap ++ rest)) =
      visible false (cut mode (offset + byteSize gap) rest) := by
  induction h generalizing offset with
  | nil => rfl
  | blank hc _ ih =>
    rw [List.cons_append, visible_cut_isSpace (mode.isSpace_of_isBlank hc), ih, byteSize_cons,
      Nat.add_assoc]
  | comment hbody hlast _ ih =>
    simp only [List.append_assoc]
    rw [visible_cut_comment hbody hlast, ih]
    simp only [byteSize_append, Nat.add_assoc]
    rfl

end Lexeme

end StraightLine
