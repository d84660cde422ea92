import StraightLine.Proofs.Lexeme.Delimiters
import StraightLine.Proofs.Lexeme.Separator

/-!
# Texts set apart by blanks

A blank parts what stands on its two sides. The text in front of it is cut as
if it stood alone, but for space at its end, which the blank may lengthen; the
text behind it is cut as if it stood alone, and all that is carried over to it
is whether a comment is open. So the lexemes of a source can be written with
single blanks between them, and are found again. Only a digit in front of a
word becomes a number when it stands apart.
-/

namespace StraightLine

open Text

namespace Text

/-- Nothing comes next, or a blank. -/
abbrev Parted (rest : List Char) : Prop :=
  Ends (fun c => !isBlank c) rest

variable {among : Char → Bool} {front back rest : List Char}

theorem parted_of_forall (hfront : ∀ c ∈ front, isBlank c = true) (hne : front ≠ [])
    (back : List Char) : Parted (front ++ back) := by
  obtain ⟨c, front, rfl⟩ := List.exists_cons_of_ne_nil hne
  refine ends_cons.mpr ?_
  rw [hfront c List.mem_cons_self]
  rfl

theorem Parted.isBlank_of_mem_head? (h : Parted rest) {c : Char} (hc : c ∈ rest.head?) :
    isBlank c = true := by
  simpa using h c hc

theorem Parted.stops (h : Parted rest) : Stops rest := by
  intro c hc
  have hstop : isStop c = true := (isStop_eq_true_iff c).mpr (.inl (h.isBlank_of_mem_head? hc))
  exact congrArg not hstop

theorem Parted.isDelimiter_eq_false (h : Parted rest) (c : Char) :
    Carving.isDelimiter c rest.head? = false := by
  rw [Bool.eq_false_iff, ne_eq, Carving.isDelimiter_eq_true_iff]
  rintro (⟨-, hnext⟩ | ⟨-, hnext⟩)
  · cases h.isBlank_of_mem_head? hnext
  · cases h.isBlank_of_mem_head? hnext

theorem Ends.append_ends (hfront : Ends among front) (hback : Ends among back) :
    Ends among (front ++ back) := by
  rcases eq_or_ne front [] with rfl | hne
  · exact hback
  · exact hfront.append hne back

end Text

namespace Mode

variable {mode : Mode} {text front back rest : List Char} {kind : Kind}

/-- A blank behind a text changes none of its tokens, except that it lengthens space at the end. -/
theorem Takes.append (h : mode.Takes text front kind) (hend : kind = .whiteSpace → front ≠ [])
    (hback : Parted back) : mode.Takes text (front ++ back) kind := by
  rw [takes_iff_shape] at h ⊢
  cases h with
  | space hne htext hrest => exact .space hne htext (hrest.append (hend rfl) back)
  | assignment => exact .assignment
  | openParen => exact .openParen
  | closeParen => exact .closeParen
  | openComment => exact .openComment
  | closeComment => exact .closeComment
  | @lone _ c _ hc hrest =>
    refine .lone hc ?_
    cases front with
    | nil => exact hback.isDelimiter_eq_false c
    | cons d front => exact hrest
  | word htext hrest => exact .word htext (hrest.append_ends hback.stops.ends_isWord)
  | number hne htext hrest =>
    exact .number hne htext (hrest.append_ends hback.stops.ends_isWord)
  | glued hc hrest =>
    refine .glued hc ?_
    obtain ⟨d, left, hleft⟩ : ∃ d left, front.dropWhile Char.isDigit = d :: left := by
      refine List.exists_cons_of_ne_nil ?_
      intro hnil
      rw [hnil] at hrest
      cases hrest
    rw [hleft] at hrest
    rw [List.dropWhile_append, hleft]
    exact hrest
  | stray hspace halpha hdigit hstop => exact .stray hspace halpha hdigit hstop
  | run hne htext hrest => exact .run hne htext (hrest.append_ends hback.stops)

end Mode

namespace Lexeme

open Mode

variable {mode : Mode}

/-- What is seen of a text and of another one that a blank parts from it. The second is inside a
comment if the first leaves one open. -/
theorem visible_cut_append_parted {front back : List Char} (hback : Parted back)
    (past : List Lexeme) (offset : Nat) :
    visible (!isOutside past) (cut mode offset (front ++ back)) =
      visible (!isOutside past) (cut mode offset front) ++
        visible (!isOutside (past ++ cut mode offset front))
          (cut mode (offset + byteSize front) back) := by
  induction front using mode.takes_induction generalizing past offset with
  | nil =>
    rw [cut_nil, List.append_nil]
    rfl
  | @step text front kind htakes ih =>
    have hpast : past ++ cut mode offset (text ++ front) =
        past ++ [place offset text kind] ++ cut mode (offset + byteSize text) front := by
      rw [cut_append htakes, List.append_assoc]
      rfl
    have hnext := ih (past ++ [place offset text kind]) (offset + byteSize text)
    rw [hpast, byteSize_append, ← Nat.add_assoc, List.append_assoc text front back]
    rcases eq_or_ne kind .whiteSpace with rfl | hkind
    -- space may run on into the blank, so this token need not be one of the longer text
    · have houtside : isOutside (past ++ [place offset text .whiteSpace]) = isOutside past :=
        isOutside_concat past _
      have hspace := htakes.forall_isSpace rfl
      rw [visible_cut_of_forall_isSpace hspace, visible_cut_of_forall_isSpace hspace, ← houtside]
      exact hnext
    · have hlonger := htakes.append (fun h => absurd h hkind) hback
      rw [cut_append hlonger, cut_append htakes, visible_cons, visible_cons, hnext]
      exact (List.append_assoc ..).symm

theorem visible_cut_blanks {gap : List Char} (hgap : ∀ c ∈ gap, isBlank c = true)
    (inComment : Bool) (offset : Nat) (rest : List Char) :
    visible inComment (cut mode offset (gap ++ rest)) =
      visible inComment (cut mode (offset + byteSize gap) rest) :=
  visible_cut_of_forall_isSpace (fun c hc => mode.isSpace_of_isBlank (hgap c hc)) inComment offset
    rest

theorem exists_openComment_of_inside {found : List Lexeme} (h : isOutside found = false) :
    ∃ token ∈ found, token.kind = .openComment := by
  cases hfind : found.reverse.find? fun token => token.kind.isDelimiter with
  | none =>
    rw [isOutside, hfind] at h
    cases h
  | some token =>
    rw [isOutside, hfind] at h
    have hkind : (token.kind == .closeComment) = false := h
    have hdelimiter : token.kind.isDelimiter = true :=
      List.find?_some (p := fun token : Lexeme => token.kind.isDelimiter) hfind
    refine ⟨token, List.mem_reverse.mp (List.mem_of_find?_eq_some hfind), ?_⟩
    cases hcase : token.kind with
    | openComment => rfl
    | closeComment =>
      rw [hcase] at hkind
      cases hkind
    | _ =>
      rw [hcase] at hdelimiter
      cases hdelimiter

/-- A text that leaves a comment open is long enough for the delimiter that opened it. -/
theorem two_le_byteSize_of_inside {source : List Char} (h : isOutside (cut mode 0 source) = false) :
    2 ≤ byteSize source := by
  obtain ⟨token, hmem, hkind⟩ := exists_openComment_of_inside h
  obtain ⟨rest, htakes⟩ := takes_of_mem_cut hmem
  have htext : token.source.toList = ['/', '*'] := by
    have hfits := htakes.fits
    rwa [hkind] at hfits
  obtain ⟨front, back, hsource, -, -⟩ := (tiles_cut mode 0 source).exists_append hmem
  have hsize : byteSize ['/', '*'] = 2 := rfl
  rw [hsource, htext, byteSize_append, byteSize_append]
  omega

end Lexeme

namespace Analyzer

open Lexeme

theorem inComment_analyze (analyzer : Analyzer) (source : String) :
    (analyzer.analyze source).2.inComment =
      !isOutside (cut analyzer.mode 0 source.toList) := by
  have hcut : cut (fresh analyzer.mode).mode 0 source.toList =
      cut analyzer.mode 0 source.toList ++ [] := (List.append_nil _).symm
  obtain ⟨more, hmore⟩ := exists_scan_after hcut []
  change ((fresh analyzer.mode).scan 0 [] source.toList).2.inComment = _
  rw [hmore]
  change (((fresh analyzer.mode).after _).scan _ more []).2.inComment = _
  rw [scan]
  exact inComment_after _ _

/-- Blanks between two texts let each of them be analyzed by itself. If the first leaves a comment
open, the second is analyzed as if it came right behind the opening delimiter. -/
theorem analyze_across_blanks (analyzer : Analyzer) (front gap back : String) (hgap : gap ≠ "")
    (hblank : ∀ c ∈ gap.toList, isBlank c = true) :
    ∃ kept, (analyzer.analyze front).1 = .ok kept ∧
      ((analyzer.analyze front).2.inComment = false →
        ∃ more, (analyzer.analyze back).1 = .ok more ∧
          (analyzer.analyze (front ++ gap ++ back)).1 =
            .ok (kept ++ more.map (shift (front ++ gap).utf8ByteSize))) ∧
      ((analyzer.analyze front).2.inComment = true →
        2 ≤ (front ++ gap).utf8ByteSize ∧
        ∃ more, (analyzer.analyze ("/*" ++ back)).1 = .ok more ∧
          (analyzer.analyze (front ++ gap ++ back)).1 =
            .ok (kept ++ more.map (shift ((front ++ gap).utf8ByteSize - 2)))) := by
  have hne : gap.toList ≠ [] := mt String.toList_eq_nil_iff.mp hgap
  have hsize : (front ++ gap).utf8ByteSize = byteSize front.toList + byteSize gap.toList := by
    rw [utf8ByteSize_eq_byteSize, String.toList_append, byteSize_append]
  have hsource : (front ++ gap ++ back).toList =
      front.toList ++ (gap.toList ++ back.toList) := by
    rw [String.toList_append, String.toList_append, List.append_assoc]
  have hseen : visible false (cut analyzer.mode 0 (front ++ gap ++ back).toList) =
      visible false (cut analyzer.mode 0 front.toList) ++
        visible (!isOutside (cut analyzer.mode 0 front.toList))
          (cut analyzer.mode (front ++ gap).utf8ByteSize back.toList) := by
    have hparted := parted_of_forall hblank hne back.toList
    rw [hsource, hsize, ← Nat.zero_add (byteSize front.toList), ← visible_cut_blanks hblank]
    exact visible_cut_append_parted hparted [] 0
  have hanalyze := analyzer.analyze_eq (front ++ gap ++ back)
  rw [analyze_eq_ok, hseen] at hanalyze
  rw [inComment_analyze]
  refine ⟨_, (analyzer.analyze_eq front).trans (analyze_eq_ok _ _), ?_, ?_⟩
  · intro houtside
    obtain ⟨more, hmore, hmoved⟩ :=
      exists_analyze_visible_cut analyzer.mode back (front ++ gap).utf8ByteSize
    refine ⟨more, (analyzer.analyze_eq back).trans hmore, ?_⟩
    rw [hanalyze, houtside, hmoved]
  · intro hinside
    have hlong : 2 ≤ byteSize front.toList := two_le_byteSize_of_inside (by simpa using hinside)
    obtain ⟨more, hmore, hmoved⟩ :=
      exists_analyze_visible_cut analyzer.mode ("/*" ++ back) ((front ++ gap).utf8ByteSize - 2)
    have hopened := visible_cut_openComment analyzer.mode false
      ((front ++ gap).utf8ByteSize - 2) back.toList
    -- the two bytes taken off are those of the delimiter in front of the second text
    rw [Nat.sub_add_cancel (by omega)] at hopened
    rw [String.toList_append] at hmoved
    refine ⟨by omega, more, (analyzer.analyze_eq _).trans hmore, ?_⟩
    rw [hanalyze, hinside, ← hopened]
    exact congrArg (fun seen => Except.ok (_ ++ seen)) hmoved

theorem analyze_across_blanks_newline :
    "\n" ≠ "" ∧ (∀ c ∈ "\n".toList, isBlank c = true) ∧
      ((fresh .pattern).analyze "é1").2.inComment = false ∧
      (∃ kept more, ((fresh .pattern).analyze "é1").1 = .ok kept ∧
        ((fresh .pattern).analyze "a*/").1 = .ok more ∧
        ((fresh .pattern).analyze ("é1" ++ "\n" ++ "a*/")).1 =
          .ok (kept ++ more.map (shift ("é1" ++ "\n").utf8ByteSize))) ∧
      ((fresh .pattern).analyze "x/*/").2.inComment = true ∧
      2 ≤ ("x/*/" ++ "\n").utf8ByteSize ∧
      ∃ kept more, ((fresh .pattern).analyze "x/*/").1 = .ok kept ∧
        ((fresh .pattern).analyze ("/*" ++ "a*/=")).1 = .ok more ∧
        ((fresh .pattern).analyze ("x/*/" ++ "\n" ++ "a*/=")).1 =
          .ok (kept ++ more.map (shift (("x/*/" ++ "\n").utf8ByteSize - 2))) := by
  have hblank : ∀ c ∈ "\n".toList, isBlank c = true := List.forall_mem_singleton.mpr rfl
  have houtside : ((fresh .pattern).analyze "é1").2.inComment = false := by decide +kernel
  have hinside : ((fresh .pattern).analyze "x/*/").2.inComment = true := by decide +kernel
  obtain ⟨kept, hkept, happart, -⟩ :=
    analyze_across_blanks (fresh .pattern) "é1" "\n" "a*/" (by decide) hblank
  obtain ⟨more, hmore, hwhole⟩ := happart houtside
  obtain ⟨before, hbefore, -, hopen⟩ :=
    analyze_across_blanks (fresh .pattern) "x/*/" "\n" "a*/=" (by decide) hblank
  obtain ⟨hlong, behind, hbehind, hall⟩ := hopen hinside
  exact ⟨by decide, hblank, houtside, ⟨kept, more, hkept, hmore, hwhole⟩, hinside, hlong, before,
    behind, hbefore, hbehind, hall⟩

end Analyzer

/-! ### Lexemes with single blanks between them -/

namespace Kind

/-- The kind of a token when it stands apart from its neighbours. A digit is a number then. -/
def apart (text : List Char) : Kind → Kind
  | .unrecognized =>
    match text with
    | [c] => if c.isDigit then .number else .unrecognized
    | _ => .unrecognized
  | kind => kind

theorem apart_of_ne {kind : Kind} (h : kind ≠ .unrecognized) (text : List Char) :
    kind.apart text = kind := by
  cases kind with
  | unrecognized => exact absurd rfl h
  | _ => rfl

theorem apart_eq_iff {kind : Kind} {text : List Char} :
    kind.apart text = kind ↔
      (kind = .unrecognized → ∀ c, c.isDigit = true → text ≠ [c]) := by
  by_cases hkind : kind = .unrecognized
  · subst hkind
    constructor
    · rintro h - c hc rfl
      rw [apart, if_pos hc] at h
      cases h
    · intro h
      match text with
      | [] => rfl
      | [c] => exact if_neg fun hc => h rfl c hc rfl
      | _ :: _ :: _ => rfl
  · exact iff_of_true (apart_of_ne hkind text) fun h => absurd h hkind

theorem isShown_apart (kind : Kind) (text : List Char) :
    (kind.apart text).isShown = kind.isShown := by
  by_cases hkind : kind = .unrecognized
  · subst hkind
    match text with
    | [] => rfl
    | [c] =>
      change (if c.isDigit then number else unrecognized).isShown = true
      split
      · rfl
      · rfl
    | _ :: _ :: _ => rfl
  · rw [apart_of_ne hkind]

end Kind

namespace Mode

variable {mode : Mode} {text back rest : List Char} {kind : Kind}

/-- Except for digits, what is taken next to anything is taken as the same kind next to a blank. -/
theorem Takes.apart (h : mode.Takes text rest kind) (hshown : kind.isShown = true)
    (hback : Parted back) : mode.Takes text back (kind.apart text) := by
  rw [takes_iff_shape] at h ⊢
  cases h with
  | space => cases hshown
  | openComment => cases hshown
  | closeComment => cases hshown
  | assignment => exact .assignment
  | openParen => exact .openParen
  | closeParen => exact .closeParen
  | @lone _ c _ hc hrest =>
    have hlone : Shape mode [c] back .unrecognized := .lone hc (hback.isDelimiter_eq_false c)
    obtain rfl | rfl := hc
    · exact hlone
    · exact hlone
  | word htext hrest =>
    have hne : Kind.ofWord text ≠ .unrecognized := by
      intro hkind
      have hrun := Kind.isRun_ofWord text
      rw [hkind] at hrun
      cases hrun
    rw [Kind.apart_of_ne hne]
    exact .word htext hback.stops.ends_isWord
  | number hne htext hrest => exact .number hne htext hback.stops.ends_isWord
  | @glued c _ hc hrest =>
    have hnumber : Kind.apart [c] .unrecognized = .number := if_pos hc
    rw [hnumber]
    exact .number (List.cons_ne_nil c []) (List.forall_mem_singleton.mpr hc)
      hback.stops.ends_isWord
  | @stray c _ hspace halpha hdigit hstop =>
    have hstray : Kind.apart [c] .unrecognized = .unrecognized := if_neg (by simp [hdigit])
    rw [hstray]
    exact .stray hspace halpha hdigit hstop
  | run hne htext hrest =>
    have hapart : (Kind.ofText text).apart text = Kind.ofText text := by
      rw [Kind.apart_eq_iff]
      rintro hkind c hc rfl
      rw [ofText_of_isDigit hne (List.forall_mem_singleton.mpr hc)] at hkind
      cases hkind
    rw [hapart]
    exact .run hne htext hback.stops

/-- A scan recognizes every digit that it takes for itself. -/
theorem Takes.apart_eq_of_scan (h : scan.Takes text rest kind) : kind.apart text = kind := by
  rw [Kind.apart_eq_iff]
  rintro hkind c hc rfl
  cases takes_iff_shape.mp h with
  | lone hlone =>
    obtain rfl | rfl := hlone
    · cases hc
    · cases hc
  | run hne htext =>
    rw [ofText_of_isDigit hne (List.forall_mem_singleton.mpr hc)] at hkind
    cases hkind
  | space | assignment | openParen | closeParen => cases hkind

end Mode

namespace Lexeme

open Mode

variable {mode : Mode}

/-- The texts of the lexemes, with single blanks between them. -/
def respaced (lexemes : List Lexeme) : String :=
  " ".intercalate (lexemes.map (·.source))

/-- What a lexeme is, apart from where it stands. -/
def content (lexeme : Lexeme) : Kind × String :=
  (lexeme.kind, lexeme.source)

theorem exists_toList_respaced_cons (lexeme : Lexeme) (rest : List Lexeme) :
    ∃ gap, (∀ c ∈ gap, isBlank c = true) ∧ Parted (gap ++ (respaced rest).toList) ∧
      (respaced (lexeme :: rest)).toList =
        lexeme.source.toList ++ (gap ++ (respaced rest).toList) := by
  cases rest with
  | nil => exact ⟨[], List.forall_mem_nil _, ends_nil, by simp [respaced]⟩
  | cons next rest =>
    refine ⟨[' '], List.forall_mem_singleton.mpr rfl, ends_cons.mpr rfl, ?_⟩
    simp [respaced]

theorem map_content_visible_cut_respaced {lexemes : List Lexeme}
    (h : ∀ lexeme ∈ lexemes, lexeme.kind.isShown = true ∧
      ∃ rest, mode.Takes lexeme.source.toList rest lexeme.kind) (offset : Nat) :
    (visible false (cut mode offset (respaced lexemes).toList)).map content =
      lexemes.map fun lexeme => (lexeme.kind.apart lexeme.source.toList, lexeme.source) := by
  induction lexemes generalizing offset with
  | nil =>
    change (visible false (cut mode offset [])).map content = []
    rw [cut_nil]
    rfl
  | cons lexeme rest ih =>
    obtain ⟨⟨hshown, _, htakes⟩, hrest⟩ := List.forall_mem_cons.mp h
    obtain ⟨gap, hgap, hparted, hsource⟩ := exists_toList_respaced_cons lexeme rest
    have happart := htakes.apart hshown hparted
    have hkept := hshown
    rw [← Kind.isShown_apart _ lexeme.source.toList] at hkept
    rw [hsource, cut_append happart, visible_false_cons hkept, visible_cut_blanks hgap,
      List.map_cons, ih hrest, List.map_cons, content, place, String.ofList_toList]

/-- What is found again is the same exactly if standing apart gives no lexeme another kind. -/
theorem exists_analyze_respaced (mode : Mode) (source : String) :
    ∃ kept again, analyze mode source = .ok kept ∧ analyze mode (respaced kept) = .ok again ∧
      (∀ lexeme ∈ kept, ∃ rest, mode.Takes lexeme.source.toList rest lexeme.kind) ∧
      (again.map content = kept.map content ↔
        ∀ lexeme ∈ kept, lexeme.kind.apart lexeme.source.toList = lexeme.kind) := by
  have hkept := analyze_eq_ok mode source
  have hseen : ∀ lexeme ∈ visible false (cut mode 0 source.toList),
      lexeme.kind.isShown = true ∧
        ∃ rest, mode.Takes lexeme.source.toList rest lexeme.kind := by
    intro lexeme hlexeme
    obtain ⟨hmem, hshown⟩ := mem_cut_of_analyze hkept hlexeme
    exact ⟨hshown, takes_of_mem_cut hmem⟩
  refine ⟨_, _, hkept, analyze_eq_ok mode _, fun lexeme hlexeme => (hseen lexeme hlexeme).2, ?_⟩
  rw [map_content_visible_cut_respaced hseen, List.map_inj_left]
  simp only [content, Prod.mk.injEq, and_true]

/-- Writing the lexemes of a source with single blanks between them and analyzing that again gives
lexemes of the same kinds and texts in the same order: always in scan mode, and in pattern mode
exactly if no lexeme is a digit that was not recognized. -/
theorem analyze_respaced (source : String) :
    (∃ kept again, analyze .scan source = .ok kept ∧ analyze .scan (respaced kept) = .ok again ∧
      again.map content = kept.map content) ∧
    ∃ kept again, analyze .pattern source = .ok kept ∧
      analyze .pattern (respaced kept) = .ok again ∧
      (again.map content = kept.map content ↔
        ∀ lexeme ∈ kept, lexeme.kind = .unrecognized →
          ∀ c, c.isDigit = true → lexeme.source.toList ≠ [c]) := by
  constructor
  · obtain ⟨kept, again, hkept, hagain, htakes, hsame⟩ := exists_analyze_respaced .scan source
    refine ⟨kept, again, hkept, hagain, hsame.mpr ?_⟩
    intro lexeme hlexeme
    obtain ⟨rest, hrest⟩ := htakes lexeme hlexeme
    exact hrest.apart_eq_of_scan
  · obtain ⟨kept, again, hkept, hagain, -, hsame⟩ := exists_analyze_respaced .pattern source
    refine ⟨kept, again, hkept, hagain, ?_⟩
    rw [hsame]
    exact forall₂_congr fun lexeme _ => Kind.apart_eq_iff

end Lexeme

end StraightLine
