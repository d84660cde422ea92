import StraightLine.Proofs.Carving
import Mathlib.Data.String.Basic

/-!
# Tiling a source

The tokens of a source tile it: each is what the mode takes from the front of
what is left, and their spans follow each other from the first byte to the
last. There is one such tiling. The lexemes of the source are the tokens of
the tiling that are neither space nor delimiters and that do not come behind
a delimiter opening a comment.
-/

namespace StraightLine

open Text

namespace Text

theorem byteSize_eq_utf8Len (cs : List Char) : byteSize cs = String.utf8Len cs := by
  induction cs with
  | nil => rfl
  | cons c cs ih => rw [byteSize_cons, String.utf8Len_cons, ih, Nat.add_comm]

theorem utf8ByteSize_eq_byteSize (text : String) : text.utf8ByteSize = byteSize text.toList := by
  rw [byteSize_eq_utf8Len, ← String.utf8ByteSize_ofList, String.ofList_toList]

end Text

/-- Both ends of a span lie between characters of the source, and `text` is what lies between. -/
structure Span.Cuts (span : Span) (source text : String) : Prop where
  start_isValid : String.Pos.Raw.IsValid source ⟨span.start⟩
  stop_isValid : String.Pos.Raw.IsValid source ⟨span.stop⟩
  extract_eq : String.Pos.Raw.extract source ⟨span.start⟩ ⟨span.stop⟩ = text

theorem Span.cuts_of_append {span : Span} {source text : String} {front back : List Char}
    (hsource : source.toList = front ++ text.toList ++ back) (hstart : span.start = byteSize front)
    (hstop : span.stop = span.start + byteSize text.toList) : span.Cuts source text := by
  have hstring : source = String.ofList (front ++ text.toList ++ back) := by
    rw [← hsource, String.ofList_toList]
  have hvalid : ∀ first second : List Char, front ++ text.toList ++ back = first ++ second →
      String.Pos.Raw.IsValid source ⟨byteSize first⟩ := by
    intro first second heq
    refine String.Pos.Raw.isValid_iff_exists_append.mpr
      ⟨String.ofList first, String.ofList second, ?_, ?_⟩
    · rw [hstring, heq, String.ofList_append]
    · rw [String.rawEndPos, utf8ByteSize_eq_byteSize, String.toList_ofList]
  have hspan : span.stop = byteSize (front ++ text.toList) := by
    rw [hstop, hstart, byteSize_append]
  refine ⟨?_, ?_, ?_⟩
  · rw [hstart]
    exact hvalid front (text.toList ++ back) (List.append_assoc _ _ _)
  · rw [hspan]
    exact hvalid (front ++ text.toList) back rfl
  · rw [hstop, hstart, hstring, byteSize_eq_utf8Len, byteSize_eq_utf8Len, String.extract_of_valid,
      String.ofList_toList]

namespace Lexeme

variable {mode : Mode} {offset : Nat}

def texts (tokens : List Lexeme) : List Char :=
  tokens.flatMap (·.source.toList)

theorem texts_cons (token : Lexeme) (rest : List Lexeme) :
    texts (token :: rest) = token.source.toList ++ texts rest := rfl

theorem texts_append (front back : List Lexeme) :
    texts (front ++ back) = texts front ++ texts back :=
  List.flatMap_append

/-- The tokens of a text, which there always are. -/
def cut (mode : Mode) (offset : Nat) (source : List Char) : List Lexeme :=
  (tokens mode offset source).toOption.getD []

theorem tokens_eq_ok_cut (mode : Mode) (offset : Nat) (source : List Char) :
    tokens mode offset source = .ok (cut mode offset source) := by
  obtain ⟨found, hfound⟩ := exists_tokens_eq_ok mode offset source
  rw [cut, hfound]
  rfl

theorem tokens_eq_ok_iff {source : List Char} {found : List Lexeme} :
    tokens mode offset source = .ok found ↔ found = cut mode offset source := by
  rw [tokens_eq_ok_cut, Except.ok.injEq, eq_comm]

theorem analyze_eq_ok (mode : Mode) (source : String) :
    analyze mode source = .ok (visible false (cut mode 0 source.toList)) := by
  rw [analyze, tokens_eq_ok_cut]
  rfl

@[simp] theorem cut_nil (mode : Mode) (offset : Nat) : cut mode offset [] = [] := by
  rw [cut, tokens]
  rfl

def place (offset : Nat) (text : List Char) (kind : Kind) : Lexeme :=
  ⟨String.ofList text, kind, ⟨offset, offset + byteSize text⟩⟩

theorem cut_append {text rest : List Char} {kind : Kind} (h : mode.Takes text rest kind)
    (offset : Nat) :
    cut mode offset (text ++ rest) =
      place offset text kind :: cut mode (offset + byteSize text) rest := by
  obtain ⟨c, cs, carving, hsource, hcarve, rfl, htext, hrest⟩ := h.exists_carving
  symm
  rw [← tokens_eq_ok_iff, hsource, tokens_cons hcarve, htext, hrest, tokens_eq_ok_cut]
  rfl

/-! ### The tiling -/

/-- Every span starts where the one before stops, and is as long as the text of its lexeme. -/
inductive Consecutive : Nat → List Lexeme → Nat → Prop
  | nil (offset : Nat) : Consecutive offset [] offset
  | cons {token : Lexeme} {rest : List Lexeme} {stop : Nat}
      (hstop : token.span.stop = token.span.start + token.source.utf8ByteSize)
      (hrest : Consecutive token.span.stop rest stop) :
      Consecutive token.span.start (token :: rest) stop

/-- The lexemes tile a text that begins at the given offset, as the mode takes them. -/
structure Tiles (mode : Mode) (offset : Nat) (source : List Char) (found : List Lexeme) : Prop where
  ne_empty : ∀ token ∈ found, token.source ≠ ""
  texts_eq : texts found = source
  takes : ∀ token rest, token :: rest <:+ found →
    mode.Takes token.source.toList (texts rest) token.kind
  spans : Consecutive offset found (offset + byteSize source)

theorem tiles_nil (mode : Mode) (offset : Nat) : Tiles mode offset [] [] where
  ne_empty := nofun
  texts_eq := rfl
  takes token rest h := absurd (List.suffix_nil.mp h) (List.cons_ne_nil token rest)
  spans := .nil offset

theorem Tiles.cons {text rest : List Char} {kind : Kind} {found : List Lexeme}
    (htakes : mode.Takes text rest kind) (h : Tiles mode (offset + byteSize text) rest found) :
    Tiles mode offset (text ++ rest) (place offset text kind :: found) where
  ne_empty := by
    intro token htoken
    rcases List.mem_cons.mp htoken with rfl | htoken
    · intro hempty
      exact htakes.ne_nil ((ofList_eq_iff text "").mp hempty)
    · exact h.ne_empty token htoken
  texts_eq := by
    rw [texts_cons, place, String.toList_ofList]
    exact congrArg (text ++ ·) h.texts_eq
  takes := by
    intro token back hsuffix
    rcases List.suffix_cons_iff.mp hsuffix with heq | hsuffix
    · cases heq
      rw [h.texts_eq, place, String.toList_ofList]
      exact htakes
    · exact h.takes token back hsuffix
  spans := by
    refine @Consecutive.cons (place offset text kind) found _ ?_ ?_
    · rw [utf8ByteSize_eq_byteSize, place, String.toList_ofList]
    · rw [byteSize_append, ← Nat.add_assoc]
      exact h.spans

theorem Tiles.of_cons {source : List Char} {token : Lexeme} {found : List Lexeme}
    (h : Tiles mode offset source (token :: found)) :
    ∃ text rest kind, source = text ++ rest ∧ mode.Takes text rest kind ∧
      token = place offset text kind ∧ Tiles mode (offset + byteSize text) rest found := by
  have htakes := h.takes token found List.suffix_rfl
  have hsource : token.source.toList ++ texts found = source := h.texts_eq
  cases h.spans with
  | cons hstop hspans =>
    rw [utf8ByteSize_eq_byteSize] at hstop
    have hplace : token = place token.span.start token.source.toList token.kind := by
      rw [place, String.ofList_toList, ← hstop]
    refine ⟨_, _, _, hsource.symm, htakes, hplace, ?_, rfl, ?_, ?_⟩
    · exact fun other hother => h.ne_empty other (List.mem_cons_of_mem _ hother)
    · exact fun other rest hsuffix => h.takes other rest (hsuffix.trans (List.suffix_cons _ _))
    · rw [← hsource, byteSize_append, ← Nat.add_assoc] at hspans
      rwa [hstop] at hspans

theorem tiles_cut (mode : Mode) (offset : Nat) (source : List Char) :
    Tiles mode offset source (cut mode offset source) := by
  induction source using mode.takes_induction generalizing offset with
  | nil =>
    rw [cut_nil]
    exact tiles_nil mode offset
  | step htakes ih =>
    rw [cut_append htakes]
    exact .cons htakes (ih _)

theorem tiles_iff {source : List Char} {found : List Lexeme} :
    Tiles mode offset source found ↔ found = cut mode offset source := by
  constructor
  · intro h
    induction found generalizing offset source with
    | nil =>
      cases h.texts_eq
      rw [texts, List.flatMap_nil, cut_nil]
    | cons token found ih =>
      obtain ⟨text, rest, kind, rfl, htakes, rfl, hrest⟩ := h.of_cons
      rw [cut_append htakes, ← ih hrest]
  · rintro rfl
    exact tiles_cut mode offset source

theorem Consecutive.span_eq {front back : List Lexeme} {token : Lexeme} {stop : Nat}
    (h : Consecutive offset (front ++ token :: back) stop) :
    token.span.start = offset + byteSize (texts front) ∧
      token.span.stop = token.span.start + byteSize token.source.toList := by
  induction front generalizing offset with
  | nil =>
    cases h with
    | cons hstop _ => exact ⟨rfl, hstop.trans (by rw [utf8ByteSize_eq_byteSize])⟩
  | cons first front ih =>
    cases h with
    | cons hstop hrest =>
      obtain ⟨hstart, htoken⟩ := ih hrest
      refine ⟨?_, htoken⟩
      rw [hstart, hstop, utf8ByteSize_eq_byteSize, texts_cons, byteSize_append, Nat.add_assoc]

theorem Consecutive.le_start {found : List Lexeme} {stop : Nat}
    (h : Consecutive offset found stop) :
    ∀ token ∈ found, offset ≤ token.span.start := by
  intro token htoken
  obtain ⟨front, back, rfl⟩ := List.append_of_mem htoken
  rw [h.span_eq.1]
  exact Nat.le_add_right _ _

theorem Consecutive.pairwise {found : List Lexeme} {stop : Nat}
    (h : Consecutive offset found stop) :
    found.Pairwise fun first second => first.span.stop ≤ second.span.start := by
  induction h with
  | nil => exact .nil
  | cons _ hrest ih => exact .cons hrest.le_start ih

theorem Tiles.exists_append {source : List Char} {found : List Lexeme}
    (h : Tiles mode 0 source found) {token : Lexeme} (htoken : token ∈ found) :
    ∃ front back, source = front ++ token.source.toList ++ back ∧
      token.span.start = byteSize front ∧
      token.span.stop = token.span.start + byteSize token.source.toList := by
  obtain ⟨front, back, rfl⟩ := List.append_of_mem htoken
  obtain ⟨hstart, hstop⟩ := h.spans.span_eq
  rw [Nat.zero_add] at hstart
  refine ⟨texts front, texts back, ?_, hstart, hstop⟩
  rw [← h.texts_eq, texts_append, texts_cons, List.append_assoc]

theorem byteSize_source_pos {token : Lexeme} (h : token.source ≠ "") :
    0 < byteSize token.source.toList := by
  rw [Nat.pos_iff_ne_zero, ne_eq, byteSize_eq_zero_iff, String.toList_eq_nil_iff]
  exact h

theorem Tiles.cuts {source : String} {found : List Lexeme} (h : Tiles mode 0 source.toList found) :
    ∀ token ∈ found, token.span.start < token.span.stop ∧ token.span.Cuts source token.source := by
  intro token htoken
  have hsize := byteSize_source_pos (h.ne_empty token htoken)
  obtain ⟨front, back, hsource, hstart, hstop⟩ := h.exists_append htoken
  refine ⟨?_, Span.cuts_of_append hsource hstart hstop⟩
  omega

end Lexeme

/-! ### What is left of the tiling -/

def Kind.isDelimiter : Kind → Bool
  | .openComment | .closeComment => true
  | _ => false

def Kind.isShown : Kind → Bool
  | .whiteSpace | .openComment | .closeComment => false
  | _ => true

/-- Only white space has blanks in it. -/
theorem Mode.Takes.isBlank_eq_false {mode : Mode} {text rest : List Char} {kind : Kind}
    (h : mode.Takes text rest kind) (hkind : kind ≠ .whiteSpace) :
    ∀ c ∈ text, isBlank c = false := by
  cases takes_iff_shape.mp h with
  | space => exact absurd rfl hkind
  | assignment | openParen | closeParen => exact List.forall_mem_singleton.mpr (by decide)
  | openComment | closeComment =>
    exact List.forall_mem_cons.mpr ⟨by decide, List.forall_mem_singleton.mpr (by decide)⟩
  | lone hc =>
    obtain rfl | rfl := hc
    all_goals exact List.forall_mem_singleton.mpr (by decide)
  | word htext => exact fun c hc => isBlank_eq_false_of_isWord (isWord_of_isIdentifier htext c hc)
  | number _ htext => exact fun c hc => isBlank_eq_false_of_isWord (isWord_of_isDigit (htext c hc))
  | glued hc =>
    exact List.forall_mem_singleton.mpr (isBlank_eq_false_of_isWord (isWord_of_isDigit hc))
  | stray _ _ _ hstop =>
    exact List.forall_mem_singleton.mpr (isBlank_eq_false_of_isStop_eq_false hstop)
  | run _ htext => exact fun c hc => isBlank_eq_false_of_isStop_eq_false (htext c hc)

namespace Lexeme

/-- The nearest delimiter, if there is one, closes a comment. -/
def isOutside (front : List Lexeme) : Bool :=
  (front.reverse.find? fun token => token.kind.isDelimiter).all fun delimiter =>
    delimiter.kind == .closeComment

theorem isOutside_concat (front : List Lexeme) (token : Lexeme) :
    isOutside (front ++ [token]) =
      if token.kind.isDelimiter then token.kind == .closeComment else isOutside front := by
  rw [isOutside, List.reverse_append, List.reverse_singleton, List.singleton_append,
    List.find?_cons]
  cases token.kind.isDelimiter <;> rfl

/-- The lexemes that are neither space nor delimiters and have the nearest delimiter in front of
them, if any, closing a comment. -/
def shown (found : List Lexeme) : List Lexeme :=
  (found.zipIdx.filter fun entry =>
    entry.1.kind.isShown && isOutside (found.take entry.2)).map Prod.fst

theorem visible_cons (front : List Lexeme) (token : Lexeme) (rest : List Lexeme) :
    visible (!isOutside front) (token :: rest) =
      (if token.kind.isShown && isOutside front then [token] else []) ++
        visible (!isOutside (front ++ [token])) rest := by
  rw [isOutside_concat, visible]
  cases token.kind
  all_goals cases isOutside front
  all_goals rfl

theorem visible_false_cons {token : Lexeme} (h : token.kind.isShown = true) (rest : List Lexeme) :
    visible false (token :: rest) = token :: visible false rest := by
  rw [visible]
  split
  · rename_i hkind
    rw [hkind] at h
    cases h
  · rename_i hkind
    rw [hkind] at h
    cases h
  · rename_i hkind
    rw [hkind] at h
    cases h
  · rfl

theorem visible_append (past front back : List Lexeme) :
    visible (!isOutside past) (front ++ back) =
      visible (!isOutside past) front ++ visible (!isOutside (past ++ front)) back := by
  induction front generalizing past with
  | nil => rw [List.append_nil]; rfl
  | cons token front ih =>
    rw [List.cons_append, visible_cons, visible_cons, ih, List.append_assoc, List.append_assoc]
    rfl

theorem visible_eq_filter (past found : List Lexeme) :
    visible (!isOutside past) found =
      ((found.zipIdx past.length).filter fun entry =>
        entry.1.kind.isShown && isOutside ((past ++ found).take entry.2)).map Prod.fst := by
  induction found generalizing past with
  | nil => rfl
  | cons token found ih =>
    have htake : (past ++ token :: found).take past.length = past := List.take_left
    rw [visible_cons, ih, List.zipIdx_cons, List.filter_cons, List.append_assoc]
    dsimp only
    rw [htake, List.length_append]
    split
    · rfl
    · rfl

theorem visible_eq_shown (found : List Lexeme) : visible false found = shown found :=
  visible_eq_filter [] found

theorem isShown_of_mem_shown {found : List Lexeme} {token : Lexeme} (h : token ∈ shown found) :
    token.kind.isShown = true := by
  obtain ⟨entry, hentry, rfl⟩ := List.mem_map.mp h
  have hshown := (List.mem_filter.mp hentry).2
  exact (Bool.and_eq_true_iff.mp hshown).1

theorem shown_sublist (found : List Lexeme) : (shown found).Sublist found :=
  visible_eq_shown found ▸ visible_sublist false found

/-- The lexemes of a source are tokens of its tiling. -/
theorem mem_cut_of_analyze {source : String} {lexemes : List Lexeme}
    (h : analyze mode source = .ok lexemes) {lexeme : Lexeme} (hlexeme : lexeme ∈ lexemes) :
    lexeme ∈ cut mode 0 source.toList ∧ lexeme.kind.isShown = true := by
  rw [analyze_eq_ok, visible_eq_shown] at h
  cases h
  exact ⟨(shown_sublist _).mem hlexeme, isShown_of_mem_shown hlexeme⟩

theorem takes_of_mem_cut {source : List Char} {token : Lexeme}
    (h : token ∈ cut mode offset source) :
    ∃ rest, mode.Takes token.source.toList rest token.kind := by
  obtain ⟨before, behind, hsplit⟩ := List.append_of_mem h
  have htiles := tiles_cut mode offset source
  exact ⟨texts behind, htiles.takes token behind (hsplit ▸ List.suffix_append _ _)⟩

/-- Every source has one tiling, and analysis gives what the tiling shows. All spans are cut
between characters, around the text of their lexeme, and no two of the lexemes share a byte. -/
theorem analyze_shows_tiling (mode : Mode) (source : String) :
    (∃! found, Tiles mode 0 source.toList found) ∧
    ∀ found, Tiles mode 0 source.toList found →
      tokens mode 0 source.toList = .ok found ∧
      (∀ token ∈ found, token.span.start < token.span.stop ∧
        token.span.Cuts source token.source) ∧
      analyze mode source = .ok (shown found) ∧
      (∀ lexeme ∈ shown found, lexeme.span.start < lexeme.span.stop ∧
        lexeme.span.Cuts source lexeme.source) ∧
      (shown found).Pairwise fun first second => first.span.stop ≤ second.span.start := by
  constructor
  · refine ⟨cut mode 0 source.toList, tiles_cut mode 0 source.toList, ?_⟩
    intro found hfound
    exact tiles_iff.mp hfound
  · intro found hfound
    have hcut := tiles_iff.mp hfound
    have hsublist := shown_sublist found
    refine ⟨tokens_eq_ok_iff.mpr hcut, hfound.cuts, ?_, ?_, hfound.spans.pairwise.sublist hsublist⟩
    · rw [analyze_eq_ok, ← hcut, visible_eq_shown]
    · intro lexeme hlexeme
      exact hfound.cuts lexeme (hsublist.mem hlexeme)

end Lexeme

end StraightLine
