import StraightLine.Proofs.Program.Layout

/-!
# Programs in both modes

Where a mode recognizes everything it sees, it took words, numbers and symbols,
each of them up to a place where the other mode stops as well. Inside comments
the modes may differ, but they leave a comment at the same place. So they read
the same programs, except that only patterns take white space other than
blanks.
-/

namespace StraightLine

open Text

namespace Mode

variable {mode : Mode} {text rest : List Char} {kind : Kind}

/-- All that the mode takes as space is blank here. -/
def Admits (mode : Mode) (source : List Char) : Prop :=
  ∀ c ∈ source, mode.isSpace c = true → isBlank c = true

theorem admits_scan (source : List Char) : scan.Admits source :=
  fun _ _ h => h

theorem Admits.of_suffix {source : List Char} (h : mode.Admits source) (hrest : rest <:+ source) :
    mode.Admits rest :=
  fun c hc => h c (hrest.mem hc)

end Mode

namespace Lexeme

open Mode

variable {mode other : Mode} {offset : Nat} {text rest : List Char} {kind : Kind}

/-- None of the lexemes is unrecognized. -/
def Known (lexemes : List Lexeme) : Prop :=
  ∀ lexeme ∈ lexemes, lexeme.kind ≠ .unrecognized

theorem Known.of_takes (h : mode.Takes text rest kind) (hkind : kind.isShown = true)
    (hknown : Known (visible false (cut mode offset (text ++ rest)))) :
    kind ≠ .unrecognized ∧ Known (visible false (cut mode (offset + byteSize text) rest)) := by
  rw [cut_append h, visible_false_cons hkind] at hknown
  exact List.forall_mem_cons.mp hknown

/-- Behind a word or a number comes a stop character, since the pattern mode does not recognize
anything else there. -/
theorem stops_of_ends_isWord (hrest : Ends isWord rest) (hadmits : pattern.Admits rest)
    (hknown : Known (visible false (cut .pattern offset rest))) : Stops rest := by
  cases rest with
  | nil => exact ends_nil
  | cons c rest =>
    refine ends_cons.mpr ?_
    rcases hstop : isStop c with _ | _
    · have hword := ends_cons.mp hrest
      have hspace : isWhiteSpace c = false := by
        rw [Bool.eq_false_iff]
        intro hspace
        have hblank := hadmits c List.mem_cons_self hspace
        rw [isBlank_eq_false_of_isStop_eq_false hstop] at hblank
        cases hblank
      have halpha : c.isAlpha = false := by
        rw [Bool.eq_false_iff] at hword ⊢
        exact mt isWord_of_isAlpha hword
      have hdigit : c.isDigit = false := by
        rw [Bool.eq_false_iff] at hword ⊢
        exact mt isWord_of_isDigit hword
      have hstray : pattern.Takes [c] rest .unrecognized :=
        takes_iff_shape.mpr (.stray hspace halpha hdigit hstop)
      exact absurd rfl (Known.of_takes hstray rfl hknown).1
    · rfl

theorem stops_of_takes (h : mode.Takes text rest kind) (hrun : kind.isRun = true)
    (hadmits : mode.Admits rest) (hknown : Known (visible false (cut mode offset rest))) :
    Stops rest := by
  cases takes_iff_shape.mp h with
  | run _ _ hrest => exact hrest
  | word _ hrest => exact stops_of_ends_isWord hrest hadmits hknown
  | number _ _ hrest => exact stops_of_ends_isWord hrest hadmits hknown
  | space | assignment | openParen | closeParen | openComment | closeComment | lone | glued
  | stray => cases hrun

/-- If the mode recognizes all it sees of a text, the other mode sees the same. -/
def Carries (mode other : Mode) (source : List Char) : Prop :=
  ∀ offset, mode.Admits source → Known (visible false (cut mode offset source)) →
    visible false (cut other offset source) = visible false (cut mode offset source)

theorem carries_nil (mode other : Mode) : Carries mode other [] := by
  intro offset _ _
  rw [cut_nil, cut_nil]

theorem carries_append (htakes : mode.Takes text rest kind) (hrest : Carries mode other rest)
    (hbehind : Carries mode other (behindComment rest)) : Carries mode other (text ++ rest) := by
  intro offset hadmits hknown
  have hadmitsRest := hadmits.of_suffix (List.suffix_append text rest)
  rcases hkind : kind.isShown with _ | _
  · cases kind with
    | whiteSpace =>
      have htext : Separator text := Separator.of_forall fun c hc =>
        hadmits c (List.mem_append_left rest hc) (htakes.forall_isSpace rfl c hc)
      rw [visible_cut_separator htext] at hknown ⊢
      rw [visible_cut_separator htext]
      exact hrest _ hadmitsRest hknown
    | openComment =>
      obtain rfl : text = ['/', '*'] := htakes.fits
      obtain ⟨body, hbody⟩ := behindComment_suffix rest
      rw [visible_cut_openComment, visible_true_cut hbody.symm] at hknown ⊢
      rw [visible_cut_openComment, visible_true_cut hbody.symm]
      exact hbehind _ (hadmitsRest.of_suffix (behindComment_suffix rest)) hknown
    | closeComment =>
      obtain rfl : text = ['*', '/'] := htakes.fits
      rw [visible_cut_closeComment] at hknown ⊢
      rw [visible_cut_closeComment]
      exact hrest _ hadmitsRest hknown
    | start | finish | print | assignment | openParen | closeParen | identifier | number
    | unrecognized => cases hkind
  · obtain ⟨hrecognized, hknownRest⟩ := Known.of_takes htakes hkind hknown
    have hwritten := (Kind.isWritten_iff kind).mpr ⟨hkind, hrecognized⟩
    have hother : other.Takes text rest kind :=
      other.takes_of_fits htakes.fits hwritten
        fun hrun => stops_of_takes htakes hrun hadmitsRest hknownRest
    rw [cut_append hother, cut_append htakes, visible_false_cons hkind, visible_false_cons hkind,
      hrest _ hadmitsRest hknownRest]

/-- The induction also carries what is left behind a comment that is open from here on. -/
theorem carries (mode other : Mode) (source : List Char) : Carries mode other source := by
  suffices h : Carries mode other source ∧ Carries mode other (behindComment source) from h.1
  induction source using mode.takes_induction with
  | nil => exact ⟨carries_nil mode other, carries_nil mode other⟩
  | @step text rest kind htakes ih =>
    refine ⟨carries_append htakes ih.1 ih.2, ?_⟩
    rcases eq_or_ne kind .closeComment with rfl | hkind
    · obtain rfl : text = ['*', '/'] := htakes.fits
      exact ih.1
    · rw [htakes.behindComment_eq hkind]
      exact ih.2

theorem Spells.known {lexemes : List Lexeme} {program : Program} (h : Spells lexemes program)
    (hproper : program.Proper) : Known lexemes := by
  intro lexeme hlexeme
  have hkind : lexeme.kind ∈ kinds lexemes := List.mem_map_of_mem hlexeme
  rw [kinds_of_forall₂_bears h] at hkind
  obtain ⟨token, htoken, hkind⟩ := List.mem_map.mp hkind
  rw [← hkind]
  exact ((Kind.isWritten_iff _).mp (Program.writes hproper token htoken).isWritten).2

end Lexeme

namespace Program

variable {mode : Mode} {source : String} {program : Program}

/-- What one mode reads the other one reads as well, as long as all space is blank. -/
theorem ofSource_of_admits (hadmits : mode.Admits source.toList)
    (h : ofSource mode source = .ok program) (other : Mode) :
    ofSource other source = .ok program := by
  obtain ⟨lexemes, hlexemes, hspells⟩ := exists_spells_of_ofSource h
  have hknown := hspells.known (proper_of_ofSource h)
  rw [Lexeme.analyze_eq_ok] at hlexemes
  cases hlexemes
  refine ofSource_of_analyze ?_ hspells
  rw [Lexeme.analyze_eq_ok, Lexeme.carries mode other source.toList 0 hadmits hknown]

/-- Every program read in scan mode is read in pattern mode. The other way round this holds of
every source whose white space is all blank. -/
theorem ofSource_modes (source : String) (program : Program) :
    (ofSource .scan source = .ok program → ofSource .pattern source = .ok program) ∧
    ((∀ c ∈ source.toList, isWhiteSpace c = true → isBlank c = true) →
      ofSource .pattern source = .ok program → ofSource .scan source = .ok program) := by
  constructor
  · intro h
    exact ofSource_of_admits (Mode.admits_scan _) h .pattern
  · intro hblank h
    have hadmits : Mode.pattern.Admits source.toList := hblank
    exact ofSource_of_admits hadmits h .scan

theorem ofSource_modes_comment :
    ∃ program : Program, ofSource .scan "start x=1 /*é+\n5x*/ print(x) end" = .ok program ∧
      ofSource .pattern "start x=1 /*é+\n5x*/ print(x) end" = .ok program ∧
      ∀ c ∈ "start x=1 /*é+\n5x*/ print(x) end".toList,
        isWhiteSpace c = true → isBlank c = true := by
  have hscan : ofSource .scan "start x=1 /*é+\n5x*/ print(x) end" =
      .ok ⟨[.assignment "x" (.number "1"), .output (.identifier "x")]⟩ := by decide +kernel
  have hpattern : ofSource .pattern "start x=1 /*é+\n5x*/ print(x) end" =
      .ok ⟨[.assignment "x" (.number "1"), .output (.identifier "x")]⟩ := by decide +kernel
  have hall : ("start x=1 /*é+\n5x*/ print(x) end".toList.all
      fun c => !isWhiteSpace c || isBlank c) = true := by decide +kernel
  have hblank : ∀ c ∈ "start x=1 /*é+\n5x*/ print(x) end".toList,
      isWhiteSpace c = true → isBlank c = true := by
    intro c hc hspace
    simpa [hspace] using List.all_eq_true.mp hall c hc
  exact ⟨_, (ofSource_modes _ _).2 hblank hpattern, (ofSource_modes _ _).1 hscan, hblank⟩

/-- Other white space stands between words for the patterns only. -/
example :
    ofSource .pattern "start\u00A0end" = .ok .empty ∧
      ofSource .scan "start\u00A0end" ≠ .ok .empty := by
  decide +kernel

end Program

end StraightLine
