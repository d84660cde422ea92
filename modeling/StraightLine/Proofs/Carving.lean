import StraightLine.Proofs.Lexeme

/-!
# Shapes of first tokens

What either mode takes from the front of a text is described by rules on the
characters taken and on the one behind them. Space, symbols and delimiters
follow the same rules in both modes; words, numbers and what is not recognized
do not. The carving of a mode is shown to be exactly what its rules allow, so
nothing after this has to look into a carving again.
-/

namespace StraightLine

namespace Text

/-- A run of a class ends here: no character of the class comes next. -/
def Ends (among : Char → Bool) (rest : List Char) : Prop :=
  ∀ c ∈ rest.head?, among c = false

variable {among : Char → Bool} {run rest : List Char}

theorem ends_nil : Ends among [] := nofun

theorem ends_cons {c : Char} : Ends among (c :: rest) ↔ among c = false := by
  simp [Ends]

theorem Ends.append (h : Ends among run) (hne : run ≠ []) (rest : List Char) :
    Ends among (run ++ rest) := by
  obtain ⟨c, run, rfl⟩ := List.exists_cons_of_ne_nil hne
  exact ends_cons.mpr (ends_cons.mp h)

theorem Ends.of_append (h : Ends among (run ++ rest)) : Ends among run := by
  cases run with
  | nil => exact ends_nil
  | cons c run => exact ends_cons.mpr (ends_cons.mp h)

theorem Ends.any_head? (h : Ends among rest) : rest.head?.any among = false := by
  cases rest with
  | nil => rfl
  | cons c rest => exact ends_cons.mp h

theorem ends_dropWhile (among : Char → Bool) (cs : List Char) :
    Ends among (cs.dropWhile among) := by
  have h := List.head?_dropWhile_not among cs
  intro c hc
  rw [Option.mem_def.mp hc] at h
  exact h

theorem takeWhile_of_ends (hrun : ∀ c ∈ run, among c = true) (hrest : Ends among rest) :
    (run ++ rest).takeWhile among = run := by
  rw [List.takeWhile_append_of_pos hrun]
  cases rest with
  | nil => simp
  | cons c rest => simp [ends_cons.mp hrest]

theorem dropWhile_of_ends (hrun : ∀ c ∈ run, among c = true) (hrest : Ends among rest) :
    (run ++ rest).dropWhile among = rest := by
  rw [List.dropWhile_append_of_pos hrun]
  cases rest with
  | nil => rfl
  | cons c rest => simp [ends_cons.mp hrest]

theorem Ends.dropWhile_eq (h : Ends among rest) : rest.dropWhile among = rest :=
  dropWhile_of_ends (List.forall_mem_nil _) h

theorem drop_runSize (among : Char → Bool) (cs : List Char) :
    cs.drop (runSize among cs) = cs.dropWhile among := by
  induction cs with
  | nil => rfl
  | cons c cs ih =>
    rw [runSize, List.dropWhile_cons]
    split
    · exact ih
    · rfl

theorem runSize_of_ends (hrun : ∀ c ∈ run, among c = true) (hrest : Ends among rest) :
    runSize among (run ++ rest) = run.length := by
  rw [runSize_eq_length_takeWhile, takeWhile_of_ends hrun hrest]

theorem isStop_eq_true_iff (c : Char) :
    isStop c = true ↔ isBlank c = true ∨ c = '(' ∨ c = ')' ∨ c = '=' ∨ c = '*' ∨ c = '/' := by
  simp [isStop, or_assoc]

theorem isWord_eq_false_of_isStop {c : Char} (h : isStop c = true) : isWord c = false := by
  obtain hblank | rfl | rfl | rfl | rfl | rfl := (isStop_eq_true_iff c).mp h
  · obtain rfl | rfl | rfl | rfl := (isBlank_eq_true_iff c).mp hblank
    all_goals rfl
  all_goals rfl

theorem isWord_of_isIdentifier {text : List Char} (h : isIdentifier text = true) :
    ∀ c ∈ text, isWord c = true := by
  obtain ⟨c, run, rfl, hc, hrun⟩ := (isIdentifier_eq_true_iff _).mp h
  exact List.forall_mem_cons.mpr ⟨isWord_of_isAlpha hc, hrun⟩

theorem isStop_eq_false_of_isWord {c : Char} (h : isWord c = true) : isStop c = false := by
  rw [Bool.eq_false_iff]
  intro hstop
  rw [isWord_eq_false_of_isStop hstop] at h
  cases h

/-- The next character, if any, is a stop character. -/
abbrev Stops (rest : List Char) : Prop :=
  Ends (fun c => !isStop c) rest

theorem Stops.ends_isWord (h : Stops rest) : Ends isWord rest := by
  intro c hc
  exact isWord_eq_false_of_isStop (by simpa using h c hc)

theorem isBlank_eq_false_of_isStop_eq_false {c : Char} (h : isStop c = false) :
    isBlank c = false := by
  rw [Bool.eq_false_iff] at h ⊢
  exact fun hblank => h ((isStop_eq_true_iff c).mpr (.inl hblank))

theorem isBlank_eq_false_of_isWord {c : Char} (h : isWord c = true) : isBlank c = false :=
  isBlank_eq_false_of_isStop_eq_false (isStop_eq_false_of_isWord h)

theorem toNat_of_isUpper {c : Char} (h : c.isUpper = true) : 65 ≤ c.toNat ∧ c.toNat ≤ 90 := by
  have hrange : 'A'.val ≤ c.val ∧ c.val ≤ 'Z'.val := of_decide_eq_true h
  exact hrange

theorem toNat_of_isLower {c : Char} (h : c.isLower = true) : 97 ≤ c.toNat ∧ c.toNat ≤ 122 := by
  obtain ⟨hfirst, hlast⟩ := Bool.and_eq_true_iff.mp h
  exact ⟨of_decide_eq_true hfirst, of_decide_eq_true hlast⟩

theorem toNat_of_isAlpha {c : Char} (h : c.isAlpha = true) : 65 ≤ c.toNat ∧ c.toNat ≤ 122 := by
  rcases Bool.or_eq_true_iff.mp h with hupper | hlower
  · have := toNat_of_isUpper hupper
    omega
  · have := toNat_of_isLower hlower
    omega

theorem toNat_of_isWord {c : Char} (h : isWord c = true) : 48 ≤ c.toNat ∧ c.toNat ≤ 122 := by
  rcases Bool.or_eq_true_iff.mp h with halnum | hunderscore
  · rcases Bool.or_eq_true_iff.mp halnum with halpha | hdigit
    · have := toNat_of_isAlpha halpha
      omega
    · have := toNat_of_isDigit hdigit
      omega
  · rw [eq_of_beq hunderscore]
    decide

theorem isWhiteSpace_eq_false_of_isWord {c : Char} (h : isWord c = true) :
    isWhiteSpace c = false := by
  have hapart : ∀ range ∈ whiteSpaceRanges, range.2 < 48 ∨ 122 < range.1 := by decide
  have hword := toNat_of_isWord h
  rw [Bool.eq_false_iff]
  intro hspace
  obtain ⟨range, hrange, hplace⟩ := (isWhiteSpace_eq_true_iff c).mp hspace
  have := hapart range hrange
  omega

theorem Ends.isDigit (h : Ends isWord rest) : Ends Char.isDigit rest := by
  intro c hc
  have hword := h c hc
  rw [Bool.eq_false_iff] at hword ⊢
  exact fun hdigit => hword (isWord_of_isDigit hdigit)

theorem isAlpha_eq_false_of_isDigit {c : Char} (h : c.isDigit = true) : c.isAlpha = false := by
  rw [Bool.eq_false_iff]
  intro halpha
  have hdigit := toNat_of_isDigit h
  have hletter := toNat_of_isAlpha halpha
  omega

end Text

open Text

namespace Mode

/-- What a run of space is made of. -/
def isSpace : Mode → Char → Bool
  | pattern => isWhiteSpace
  | scan => isBlank

theorem isSpace_of_isBlank (mode : Mode) {c : Char} (h : isBlank c = true) :
    mode.isSpace c = true := by
  cases mode with
  | pattern => exact isWhiteSpace_of_isBlank h
  | scan => exact h

/-- The first token of `text ++ rest` is `text`, and it is of this kind. -/
def Takes (mode : Mode) (text rest : List Char) (kind : Kind) : Prop :=
  ∃ carving, mode.carve (text ++ rest) = some carving ∧ carving.kind = kind ∧
    carving.text (text ++ rest) = text

inductive Shape : Mode → List Char → List Char → Kind → Prop
  | space {mode : Mode} {text rest : List Char} (hne : text ≠ [])
      (htext : ∀ c ∈ text, mode.isSpace c = true) (hrest : Ends mode.isSpace rest) :
      Shape mode text rest .whiteSpace
  | assignment {mode : Mode} {rest : List Char} : Shape mode ['='] rest .assignment
  | openParen {mode : Mode} {rest : List Char} : Shape mode ['('] rest .openParen
  | closeParen {mode : Mode} {rest : List Char} : Shape mode [')'] rest .closeParen
  | openComment {mode : Mode} {rest : List Char} : Shape mode ['/', '*'] rest .openComment
  | closeComment {mode : Mode} {rest : List Char} : Shape mode ['*', '/'] rest .closeComment
  /-- A slash or a star that is not part of a delimiter. -/
  | lone {mode : Mode} {c : Char} {rest : List Char} (hc : c = '/' ∨ c = '*')
      (hrest : Carving.isDelimiter c rest.head? = false) : Shape mode [c] rest .unrecognized
  | word {text rest : List Char} (htext : isIdentifier text = true) (hrest : Ends isWord rest) :
      Shape pattern text rest (Kind.ofWord text)
  | number {text rest : List Char} (hne : text ≠ []) (htext : ∀ c ∈ text, c.isDigit = true)
      (hrest : Ends isWord rest) : Shape pattern text rest .number
  /-- A digit in front of digits that run into a word. -/
  | glued {c : Char} {rest : List Char} (hc : c.isDigit = true)
      (hrest : (rest.dropWhile Char.isDigit).head?.any isWord = true) :
      Shape pattern [c] rest .unrecognized
  | stray {c : Char} {rest : List Char} (hspace : isWhiteSpace c = false)
      (halpha : c.isAlpha = false) (hdigit : c.isDigit = false) (hstop : isStop c = false) :
      Shape pattern [c] rest .unrecognized
  /-- Everything between two stop characters. -/
  | run {text rest : List Char} (hne : text ≠ []) (htext : ∀ c ∈ text, isStop c = false)
      (hrest : Stops rest) : Shape scan text rest (Kind.ofText text)

end Mode

namespace Carving

theorem rest_of_text {carving : Carving} {text rest : List Char}
    (h : carving.text (text ++ rest) = text) : carving.rest (text ++ rest) = rest := by
  have happend := carving.text_append_rest (text ++ rest)
  rw [h] at happend
  exact List.append_cancel_left happend

theorem text_runSize (kind : Kind) (among : Char → Bool) (c : Char) (cs : List Char)
    (hpos : 0 < runSize among cs + 1) :
    (⟨kind, runSize among cs + 1, hpos⟩ : Carving).text (c :: cs) = c :: cs.takeWhile among := by
  rw [text, List.take_succ_cons, take_runSize]

theorem rest_runSize (kind : Kind) (among : Char → Bool) (c : Char) (cs : List Char)
    (hpos : 0 < runSize among cs + 1) :
    (⟨kind, runSize among cs + 1, hpos⟩ : Carving).rest (c :: cs) = cs.dropWhile among := by
  rw [rest, List.drop_succ_cons, drop_runSize]

theorem forall_mem_cons_takeWhile {among : Char → Bool} {c : Char} (hc : among c = true)
    (cs : List Char) : ∀ d ∈ c :: cs.takeWhile among, among d = true := by
  intro d hd
  rcases List.mem_cons.mp hd with rfl | hd
  · exact hc
  · exact List.mem_takeWhile_imp hd

open Mode

theorem isDelimiter_eq_true_iff (c : Char) (next : Option Char) :
    isDelimiter c next = true ↔ (c = '/' ∧ next = some '*') ∨ (c = '*' ∧ next = some '/') := by
  simp [isDelimiter]

theorem shape_of_symbol {mode : Mode} {c : Char} {cs : List Char}
    (hc : c = '(' ∨ c = ')' ∨ c = '=' ∨ c = '*' ∨ c = '/') (hcs : isDelimiter c cs.head? = false) :
    Shape mode [c] cs (Kind.ofText [c]) := by
  obtain rfl | rfl | rfl | rfl | rfl := hc
  · exact .openParen
  · exact .closeParen
  · exact .assignment
  · exact .lone (.inr rfl) hcs
  · exact .lone (.inl rfl) hcs

theorem shape_munch {source : List Char} {carving : Carving} (h : munch source = some carving) :
    Shape .pattern (carving.text source) (carving.rest source) carving.kind := by
  cases source with
  | nil => cases h
  | cons c cs =>
    rw [munch] at h
    -- the cases are those of the definition, in its order
    split at h
    · rename_i hspace
      cases h
      rw [text_runSize, rest_runSize]
      exact .space (List.cons_ne_nil _ _) (forall_mem_cons_takeWhile hspace cs)
        (ends_dropWhile _ cs)
    rename_i hspace
    split at h
    · rename_i halpha
      cases h
      rw [rest_runSize]
      exact .word (isIdentifier_take_runSize halpha cs) (ends_dropWhile _ cs)
    rename_i halpha
    split at h
    · rename_i hdigit
      split at h
      · rename_i hglued
        cases h
        exact .glued hdigit hglued
      · rename_i hglued
        cases h
        rw [text_runSize, rest_runSize]
        refine .number (List.cons_ne_nil _ _) (forall_mem_cons_takeWhile hdigit cs) ?_
        intro d hd
        rw [hd] at hglued
        simpa using hglued
    rename_i hdigit
    split at h
    · rename_i hc
      cases h
      cases hc
      exact .assignment
    rename_i hequals
    split at h
    · rename_i hc
      cases h
      cases hc
      exact .openParen
    rename_i hopen
    split at h
    · rename_i hc
      cases h
      cases hc
      exact .closeParen
    rename_i hclose
    split at h
    · rename_i hc
      cases h
      rw [text, take_two_of_head? hc]
      exact .openComment
    rename_i hopening
    split at h
    · rename_i hc
      cases h
      rw [text, take_two_of_head? hc]
      exact .closeComment
    rename_i hclosing
    cases h
    have hlone : isDelimiter c cs.head? = false := by
      rw [Bool.eq_false_iff, ne_eq, isDelimiter_eq_true_iff]
      exact not_or.mpr ⟨hopening, hclosing⟩
    rcases hstop : isStop c with _ | _
    · exact .stray (by simpa using hspace) (by simpa using halpha) (by simpa using hdigit) hstop
    · obtain hblank | rfl | rfl | rfl | rfl | rfl := (isStop_eq_true_iff c).mp hstop
      · exact absurd (isWhiteSpace_of_isBlank hblank) hspace
      · exact absurd rfl hopen
      · exact absurd rfl hclose
      · exact absurd rfl hequals
      · exact .lone (.inr rfl) hlone
      · exact .lone (.inl rfl) hlone

theorem keyword?_eq_none {c : Char} (hc : c.isAlpha = false) (cs : List Char) :
    Kind.keyword? (String.ofList (c :: cs)) = none := by
  cases hword : Kind.keyword? (String.ofList (c :: cs)) with
  | none => rfl
  | some kind =>
    obtain ⟨hword, _⟩ | ⟨hword, _⟩ | ⟨hword, _⟩ := (Kind.keyword?_eq_some_iff _ _).mp hword
    all_goals
      cases (ofList_eq_iff _ _).mp hword
      cases hc

theorem ofText_of_isBlank {c : Char} (hc : isBlank c = true) (cs : List Char) :
    Kind.ofText (c :: cs) = .whiteSpace := by
  obtain rfl | rfl | rfl | rfl := (isBlank_eq_true_iff c).mp hc
  all_goals
    rw [Kind.ofText, keyword?_eq_none rfl]
    simp [isIdentifier, hc]

theorem shape_byScan {source : List Char} {carving : Carving} (h : byScan source = some carving) :
    Shape .scan (carving.text source) (carving.rest source) carving.kind := by
  cases source with
  | nil => cases h
  | cons c cs =>
    rw [byScan] at h
    cases h
    simp only [tailSize]
    split
    · rename_i hstop
      simp only [← runSize_eq_length_takeWhile, text_runSize, rest_runSize]
      rw [List.take_succ_cons, take_runSize]
      refine .run (List.cons_ne_nil _ _) ?_ (ends_dropWhile _ cs)
      intro d hd
      simpa using forall_mem_cons_takeWhile hstop cs d hd
    rename_i hstop
    split
    · rename_i hblank
      simp only [← runSize_eq_length_takeWhile, text_runSize, rest_runSize]
      rw [List.take_succ_cons, take_runSize, ofText_of_isBlank hblank]
      exact .space (List.cons_ne_nil _ _) (forall_mem_cons_takeWhile hblank cs)
        (ends_dropWhile _ cs)
    rename_i hblank
    split
    · rename_i hdelimiter
      obtain hc | hc := (isDelimiter_eq_true_iff _ _).mp hdelimiter
      · rw [text, take_two_of_head? hc]
        exact .openComment
      · rw [text, take_two_of_head? hc]
        exact .closeComment
    rename_i hlone
    have hsymbol := (isStop_eq_true_iff c).mp (by simpa using hstop)
    have hcs : isDelimiter c cs.head? = false := by simpa using hlone
    exact shape_of_symbol (hsymbol.resolve_left hblank) hcs

end Carving

namespace Mode

open Carving

variable {mode : Mode} {text rest : List Char} {kind : Kind}

theorem takes_of_carve (hpos : 0 < text.length)
    (h : mode.carve (text ++ rest) = some ⟨kind, text.length, hpos⟩) :
    mode.Takes text rest kind :=
  ⟨_, h, rfl, List.take_left⟩

theorem takes_pattern_of_shape (h : Shape pattern text rest kind) :
    pattern.Takes text rest kind := by
  cases h with
  | space hne htext hrest =>
    obtain ⟨c, run, rfl⟩ := List.exists_cons_of_ne_nil hne
    obtain ⟨hc, hrun⟩ := List.forall_mem_cons.mp htext
    have hspace : isWhiteSpace c = true := hc
    have hsize : runSize isWhiteSpace (run ++ rest) = run.length := runSize_of_ends hrun hrest
    refine takes_of_carve (Nat.succ_pos _) ?_
    change munch (c :: (run ++ rest)) = _
    rw [munch, if_pos hspace]
    simp only [hsize]
    rfl
  | assignment => exact takes_of_carve Nat.one_pos rfl
  | openParen => exact takes_of_carve Nat.one_pos rfl
  | closeParen => exact takes_of_carve Nat.one_pos rfl
  | openComment => exact takes_of_carve Nat.two_pos rfl
  | closeComment => exact takes_of_carve Nat.two_pos rfl
  | @lone _ c _ hc hrest =>
    rw [Bool.eq_false_iff, ne_eq, isDelimiter_eq_true_iff] at hrest
    obtain ⟨hopening, hclosing⟩ := not_or.mp hrest
    refine takes_of_carve Nat.one_pos ?_
    obtain rfl | rfl := hc
    all_goals
      rw [List.singleton_append, carve, munch, if_neg (by decide), if_neg (by decide),
        if_neg (by decide), if_neg (by decide), if_neg (by decide), if_neg (by decide),
        if_neg hopening, if_neg hclosing]
      rfl
  | word htext hrest =>
    obtain ⟨c, run, rfl, hc, hrun⟩ := (isIdentifier_eq_true_iff _).mp htext
    have hspace := isWhiteSpace_eq_false_of_isWord (isWord_of_isAlpha hc)
    refine takes_of_carve (Nat.succ_pos _) ?_
    change munch (c :: (run ++ rest)) = _
    rw [munch, hspace, if_neg Bool.false_ne_true, if_pos hc]
    simp only [runSize_of_ends hrun hrest, List.take_succ_cons, List.take_left]
    rfl
  | number hne htext hrest =>
    obtain ⟨c, run, rfl⟩ := List.exists_cons_of_ne_nil hne
    obtain ⟨hc, hrun⟩ := List.forall_mem_cons.mp htext
    have hspace := isWhiteSpace_eq_false_of_isWord (isWord_of_isDigit hc)
    have hdigit := hrest.isDigit
    have hedge := hrest.any_head?
    refine takes_of_carve (Nat.succ_pos _) ?_
    change munch (c :: (run ++ rest)) = _
    rw [munch, hspace, if_neg Bool.false_ne_true, isAlpha_eq_false_of_isDigit hc,
      if_neg Bool.false_ne_true, if_pos hc, dropWhile_of_ends hrun hdigit, hedge,
      if_neg Bool.false_ne_true]
    simp only [runSize_of_ends hrun hdigit]
    rfl
  | @glued c _ hc hrest =>
    have hspace := isWhiteSpace_eq_false_of_isWord (isWord_of_isDigit hc)
    refine takes_of_carve Nat.one_pos ?_
    change munch (c :: rest) = _
    rw [munch, hspace, if_neg Bool.false_ne_true, isAlpha_eq_false_of_isDigit hc,
      if_neg Bool.false_ne_true, if_pos hc, if_pos hrest]
    rfl
  | @stray c _ hspace halpha hdigit hstop =>
    have hother : ∀ d, isStop d = true → c ≠ d := by
      rintro d hd rfl
      rw [hstop] at hd
      cases hd
    refine takes_of_carve Nat.one_pos ?_
    change munch (c :: rest) = _
    rw [munch, hspace, if_neg Bool.false_ne_true, halpha, if_neg Bool.false_ne_true, hdigit,
      if_neg Bool.false_ne_true, if_neg (hother '=' rfl), if_neg (hother '(' rfl),
      if_neg (hother ')' rfl), if_neg fun h => hother '/' rfl h.1,
      if_neg fun h => hother '*' rfl h.1]
    rfl

theorem takes_scan {c : Char} {run : List Char} (h : tailSize c (run ++ rest) = run.length) :
    scan.Takes (c :: run) rest (Kind.ofText (c :: run)) := by
  refine takes_of_carve (Nat.succ_pos _) ?_
  change byScan (c :: (run ++ rest)) = _
  simp only [byScan, h, List.take_succ_cons, List.take_left]
  rfl

theorem takes_scan_of_shape (h : Shape scan text rest kind) : scan.Takes text rest kind := by
  cases h with
  | space hne htext hrest =>
    obtain ⟨c, run, rfl⟩ := List.exists_cons_of_ne_nil hne
    obtain ⟨hc, hrun⟩ := List.forall_mem_cons.mp htext
    rw [← ofText_of_isBlank hc run]
    apply takes_scan
    have hstop : isStop c = true := (isStop_eq_true_iff c).mpr (.inl hc)
    have hblank : isBlank c = true := hc
    rw [tailSize, hstop, if_neg (by decide), if_pos hblank]
    exact congrArg List.length (takeWhile_of_ends hrun hrest)
  | assignment => exact takes_scan rfl
  | openParen => exact takes_scan rfl
  | closeParen => exact takes_scan rfl
  | openComment => exact takes_scan rfl
  | closeComment => exact takes_scan rfl
  | @lone _ c _ hc hrest =>
    have htail : tailSize c rest = 0 := by
      rw [tailSize, hrest]
      obtain rfl | rfl := hc
      all_goals rfl
    obtain rfl | rfl := hc
    · exact takes_scan htail
    · exact takes_scan htail
  | run hne htext hrest =>
    obtain ⟨c, run, rfl⟩ := List.exists_cons_of_ne_nil hne
    obtain ⟨hc, hrun⟩ := List.forall_mem_cons.mp htext
    apply takes_scan
    rw [tailSize, hc, Bool.not_false, if_pos rfl]
    refine congrArg List.length (takeWhile_of_ends ?_ hrest)
    intro d hd
    rw [hrun d hd]
    rfl

theorem takes_iff_shape : mode.Takes text rest kind ↔ Shape mode text rest kind := by
  constructor
  · rintro ⟨carving, hcarve, rfl, htext⟩
    cases mode with
    | pattern =>
      have hshape := shape_munch hcarve
      rwa [htext, rest_of_text htext] at hshape
    | scan =>
      have hshape := shape_byScan hcarve
      rwa [htext, rest_of_text htext] at hshape
  · intro h
    cases mode with
    | pattern => exact takes_pattern_of_shape h
    | scan => exact takes_scan_of_shape h

theorem Takes.ne_nil (h : mode.Takes text rest kind) : text ≠ [] := by
  obtain ⟨carving, hcarve, _, htext⟩ := h
  rw [← htext]
  apply carving.text_ne_nil
  intro hnil
  rw [hnil] at hcarve
  cases mode with
  | pattern => cases hcarve
  | scan => cases hcarve

/-- A text with a first token has a first character, and the token is carved off there. -/
theorem Takes.exists_carving (h : mode.Takes text rest kind) :
    ∃ c cs carving, text ++ rest = c :: cs ∧ mode.carve (c :: cs) = some carving ∧
      carving.kind = kind ∧ carving.text (c :: cs) = text ∧ carving.rest (c :: cs) = rest := by
  have hne := List.append_ne_nil_of_left_ne_nil h.ne_nil rest
  obtain ⟨c, cs, hsource⟩ := List.exists_cons_of_ne_nil hne
  obtain ⟨carving, hcarve, hkind, htext⟩ := h
  have hrest := rest_of_text htext
  rw [hsource] at hcarve htext hrest
  exact ⟨c, cs, carving, hsource, hcarve, hkind, htext, hrest⟩

theorem Takes.fits (h : mode.Takes text rest kind) : kind.Fits text := by
  obtain ⟨carving, hcarve, rfl, htext⟩ := h
  have hfits := fits_carve hcarve
  rwa [htext] at hfits

theorem exists_takes (mode : Mode) {source : List Char} (h : source ≠ []) :
    ∃ text rest kind, source = text ++ rest ∧ mode.Takes text rest kind := by
  obtain ⟨c, cs, rfl⟩ := List.exists_cons_of_ne_nil h
  obtain ⟨carving, hcarve⟩ := Option.isSome_iff_exists.mp (mode.isSome_carve_cons c cs)
  have hsource := carving.text_append_rest (c :: cs)
  refine ⟨carving.text (c :: cs), carving.rest (c :: cs), carving.kind, hsource.symm, ?_⟩
  refine ⟨carving, ?_, rfl, ?_⟩
  · rw [hsource, hcarve]
  · rw [hsource]

/-- What holds of the empty text, and of a text whenever it holds of what its first token leaves,
holds of every text. -/
@[elab_as_elim]
theorem takes_induction (mode : Mode) {motive : List Char → Prop} (nil : motive [])
    (step : ∀ {text rest kind}, mode.Takes text rest kind → motive rest → motive (text ++ rest))
    (source : List Char) : motive source := by
  induction hsize : source.length using Nat.strong_induction_on generalizing source with
  | _ size ih =>
    rcases eq_or_ne source [] with rfl | hne
    · exact nil
    · obtain ⟨text, rest, kind, rfl, htakes⟩ := mode.exists_takes hne
      refine step htakes (ih rest.length ?_ rest rfl)
      have := List.length_pos_iff.mpr htakes.ne_nil
      rw [← hsize, List.length_append]
      omega

theorem takes_word (htext : isIdentifier text = true) (hrest : Stops rest) :
    mode.Takes text rest (Kind.ofWord text) := by
  rw [takes_iff_shape]
  cases mode with
  | pattern => exact .word htext hrest.ends_isWord
  | scan =>
    obtain ⟨c, run, rfl, hc, hrun⟩ := (isIdentifier_eq_true_iff _).mp htext
    have hkind : Kind.ofText (c :: run) = Kind.ofWord (c :: run) := by
      rw [Kind.ofText, Kind.ofWord, htext, if_pos rfl]
      cases Kind.keyword? (String.ofList (c :: run)) <;> rfl
    rw [← hkind]
    refine .run (List.cons_ne_nil _ _) ?_ hrest
    intro d hd
    exact isStop_eq_false_of_isWord (isWord_of_isIdentifier htext d hd)

theorem ofText_of_isDigit (hne : text ≠ []) (htext : ∀ c ∈ text, c.isDigit = true) :
    Kind.ofText text = .number := by
  obtain ⟨c, run, rfl⟩ := List.exists_cons_of_ne_nil hne
  have hc := htext c List.mem_cons_self
  have hstop := isStop_eq_false_of_isWord (isWord_of_isDigit hc)
  have hother : ∀ d ds, isStop d = true → c :: run ≠ d :: ds := by
    rintro d ds hd ⟨⟩
    rw [hstop] at hd
    cases hd
  have hhead : (c :: run).head?.any isBlank = false := isBlank_eq_false_of_isStop_eq_false hstop
  have hall : (c :: run).all Char.isDigit = true := List.all_eq_true.mpr htext
  have halpha := isAlpha_eq_false_of_isDigit hc
  rw [Kind.ofText, keyword?_eq_none halpha, isIdentifier, halpha, hhead, hall]
  simp only [Bool.false_and, Bool.false_eq_true, if_false, if_neg (hother '(' [] rfl),
    if_neg (hother ')' [] rfl), if_neg (hother '=' [] rfl), if_neg (hother '/' ['*'] rfl),
    if_neg (hother '*' ['/'] rfl), if_true]

theorem takes_number (hne : text ≠ []) (htext : ∀ c ∈ text, c.isDigit = true)
    (hrest : Stops rest) : mode.Takes text rest .number := by
  rw [takes_iff_shape]
  cases mode with
  | pattern => exact .number hne htext hrest.ends_isWord
  | scan =>
    rw [← ofText_of_isDigit hne htext]
    refine .run hne ?_ hrest
    intro c hc
    exact isStop_eq_false_of_isWord (isWord_of_isDigit (htext c hc))

end Mode

/-- The kinds whose tokens are words or numbers. -/
def Kind.isRun : Kind → Bool
  | .start | .finish | .print | .identifier | .number => true
  | _ => false

theorem Kind.isRun_ofWord (word : List Char) : (ofWord word).isRun = true := by
  grind [ofWord, keyword?, isRun]

theorem Kind.isBlank_of_ofText {text : List Char} (h : ofText text = .whiteSpace) :
    text.head?.any isBlank = true := by
  grind [ofText, keyword?]

/-- The kinds of the tokens that programs are written with. -/
def Kind.isWritten : Kind → Bool
  | .whiteSpace | .openComment | .closeComment | .unrecognized => false
  | _ => true

/-- A text that fits a kind is taken as that kind in either mode, if no word runs on behind a word
or a number. -/
theorem Mode.takes_of_fits (mode : Mode) {text rest : List Char} {kind : Kind}
    (hfits : kind.Fits text) (hwritten : kind.isWritten = true)
    (hrest : kind.isRun = true → Stops rest) : mode.Takes text rest kind := by
  cases kind with
  | whiteSpace | openComment | closeComment | unrecognized => cases hwritten
  | start =>
    cases hfits
    exact takes_word rfl (hrest rfl)
  | finish =>
    cases hfits
    exact takes_word rfl (hrest rfl)
  | print =>
    cases hfits
    exact takes_word rfl (hrest rfl)
  | identifier =>
    have hword : Kind.ofWord text = .identifier := by
      rw [Kind.ofWord, hfits.2]
      rfl
    rw [← hword]
    exact takes_word hfits.1 (hrest rfl)
  | number => exact takes_number hfits.1 hfits.2 (hrest rfl)
  | assignment =>
    cases hfits
    exact takes_iff_shape.mpr .assignment
  | openParen =>
    cases hfits
    exact takes_iff_shape.mpr .openParen
  | closeParen =>
    cases hfits
    exact takes_iff_shape.mpr .closeParen

theorem Mode.Takes.forall_isSpace {mode : Mode} {text rest : List Char} {kind : Kind}
    (h : mode.Takes text rest kind) (hkind : kind = .whiteSpace) :
    ∀ c ∈ text, mode.isSpace c = true := by
  cases takes_iff_shape.mp h with
  | space _ htext _ => exact htext
  | word htext _ =>
    have hrun := Kind.isRun_ofWord text
    rw [hkind] at hrun
    cases hrun
  | run _ htext _ =>
    obtain ⟨c, hc, hblank⟩ := (Option.any_eq_true _ _).mp (Kind.isBlank_of_ofText hkind)
    have hstop := htext c (List.mem_of_mem_head? hc)
    rw [isBlank_eq_false_of_isStop_eq_false hstop] at hblank
    cases hblank
  | assignment | openParen | closeParen | openComment | closeComment | lone | number | glued
  | stray => cases hkind

end StraightLine
