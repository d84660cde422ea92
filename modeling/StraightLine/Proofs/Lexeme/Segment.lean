import StraightLine.Proofs.Lexeme.Comment

/-!
# Segments of a scanned source

The scan decides token by token, but what it makes of a source can be said of
the source as a whole. Two neighbours are joined if neither is a stop
character, if both are blank, or if they are a delimiter together; no token of
a scan reaches over the edge between neighbours that are not joined. So every
word and every run of blanks is one token, and within a row of stars and
slashes delimiters are found by reading pairs from the left.
-/

namespace StraightLine

open Text

namespace Text

/-- A run of the class that goes on neither to the left nor to the right. -/
structure Maximal (among : Char → Bool) (front run back : List Char) : Prop where
  ne_nil : run ≠ []
  among_eq : ∀ c ∈ run, among c = true
  before : ∀ c ∈ front.getLast?, among c = false
  behind : Ends among back

def isStarSlash (c : Char) : Bool :=
  c == '*' || c == '/'

/-- The pairs that are delimiters, read from the left, and the characters left between them. -/
def pairs : List Char → List (List Char)
  | '/' :: '*' :: rest => ['/', '*'] :: pairs rest
  | '*' :: '/' :: rest => ['*', '/'] :: pairs rest
  | c :: rest => [c] :: pairs rest
  | [] => []

/-- Two neighbours that may be in one token of a scan. -/
def joins (c d : Char) : Bool :=
  !isStop c && !isStop d || isBlank c && isBlank d || Carving.isDelimiter c (some d)

theorem joins_eq_true_iff {c d : Char} :
    joins c d = true ↔ isStop c = false ∧ isStop d = false ∨ isBlank c = true ∧ isBlank d = true ∨
      c = '/' ∧ d = '*' ∨ c = '*' ∧ d = '/' := by
  simp [joins, Carving.isDelimiter, or_assoc]

/-- Characters that are joined belong to the same classes. -/
theorem classes_eq_of_joins {c d : Char} (h : joins c d = true) :
    isStop c = isStop d ∧ isBlank c = isBlank d ∧ isStarSlash c = isStarSlash d := by
  have hstop : ∀ e, isStop e = false → isBlank e = false ∧ isStarSlash e = false := by
    intro e he
    refine ⟨isBlank_eq_false_of_isStop_eq_false he, ?_⟩
    rw [Bool.eq_false_iff] at he ⊢
    intro hstar
    obtain rfl | rfl : e = '*' ∨ e = '/' := by simpa [isStarSlash] using hstar
    all_goals exact he rfl
  have hblank : ∀ e, isBlank e = true → isStop e = true ∧ isStarSlash e = false := by
    intro e he
    refine ⟨(isStop_eq_true_iff e).mpr (.inl he), ?_⟩
    obtain rfl | rfl | rfl | rfl := (isBlank_eq_true_iff e).mp he
    all_goals rfl
  obtain ⟨hc, hd⟩ | ⟨hc, hd⟩ | ⟨rfl, rfl⟩ | ⟨rfl, rfl⟩ := joins_eq_true_iff.mp h
  · rw [hc, hd, (hstop c hc).1, (hstop d hd).1, (hstop c hc).2, (hstop d hd).2]
    exact ⟨rfl, rfl, rfl⟩
  · rw [hc, hd, (hblank c hc).1, (hblank d hd).1, (hblank c hc).2, (hblank d hd).2]
    exact ⟨rfl, rfl, rfl⟩
  · exact ⟨rfl, rfl, rfl⟩
  · exact ⟨rfl, rfl, rfl⟩

/-- Nothing is joined over the place between the two texts. -/
def Edge (front back : List Char) : Prop :=
  ∀ c ∈ front.getLast?, ∀ d ∈ back.head?, joins c d = false

theorem Edge.of_append {text front back : List Char} (h : Edge (text ++ front) back) :
    Edge front back := by
  intro c hc
  exact h c (by rw [List.getLast?_append, Option.mem_def.mp hc]; rfl)

/-- The ends of a maximal run are edges, if characters that are joined are both of the class or
neither is. -/
theorem Maximal.edges {among : Char → Bool} {front run back : List Char}
    (h : Maximal among front run back) (hjoins : ∀ c d, joins c d = true → among c = among d) :
    Edge front (run ++ back) ∧ Edge run back := by
  constructor
  · intro c hc d hd
    rw [List.head?_append_of_ne_nil _ h.ne_nil] at hd
    rw [Bool.eq_false_iff]
    intro hjoin
    have hsame := hjoins c d hjoin
    rw [h.before c hc, h.among_eq d (List.mem_of_mem_head? hd)] at hsame
    cases hsame
  · intro c hc d hd
    rw [Bool.eq_false_iff]
    intro hjoin
    have hsame := hjoins c d hjoin
    rw [h.among_eq c (List.mem_of_mem_getLast? hc), h.behind d hd] at hsame
    cases hsame

/-- The symbols that are no part of a delimiter are joined to nothing. -/
theorem edges_of_symbol {c : Char} (hc : c ∈ ['(', ')', '=']) (front back : List Char) :
    Edge front ([c] ++ back) ∧ Edge [c] back := by
  have hsymbol : c = '(' ∨ c = ')' ∨ c = '=' := by simpa using hc
  obtain ⟨hstop, hblank, hstar, hslash⟩ :
      isStop c = true ∧ isBlank c = false ∧ c ≠ '*' ∧ c ≠ '/' := by
    obtain rfl | rfl | rfl := hsymbol
    all_goals exact ⟨rfl, rfl, by decide, by decide⟩
  constructor
  · intro d _ e he
    obtain rfl : c = e := Option.some_inj.mp he
    simp [joins, Carving.isDelimiter, hstop, hblank, hstar, hslash]
  · intro e he d _
    obtain rfl : c = e := Option.some_inj.mp he
    simp [joins, Carving.isDelimiter, hstop, hblank, hstar, hslash]

end Text

namespace Mode

variable {text rest front back : List Char} {kind : Kind}

theorem Takes.joins_eq_true {c d : Char} (h : scan.Takes (front ++ c :: d :: back) rest kind) :
    joins c d = true := by
  have hlong : ∀ text : List Char, front ++ c :: d :: back = text → 2 ≤ text.length := by
    rintro text rfl
    simp only [List.length_append, List.length_cons]
    omega
  have hpair : ∀ first second : Char, front ++ c :: d :: back = [first, second] →
      c = first ∧ d = second := by
    intro first second heq
    cases front with
    | nil => simp_all
    | cons e front =>
      have := congrArg List.length heq
      simp at this
      omega
  rw [joins_eq_true_iff]
  generalize htext : front ++ c :: d :: back = text at h
  have hc : c ∈ text := by simp [← htext]
  have hd : d ∈ text := by simp [← htext]
  cases takes_iff_shape.mp h with
  | space _ hspace _ => exact .inr (.inl ⟨hspace c hc, hspace d hd⟩)
  | run _ hrun _ => exact .inl ⟨hrun c hc, hrun d hd⟩
  | openComment => exact .inr (.inr (.inl (hpair _ _ htext)))
  | closeComment => exact .inr (.inr (.inr (hpair _ _ htext)))
  | assignment | openParen | closeParen | lone =>
    have := hlong _ htext
    simp at this

/-- The first token of a scan ends where an edge is, or before. -/
theorem Takes.exists_left (h : scan.Takes text rest kind) (hsource : front ++ back = text ++ rest)
    (hedge : Edge front back) (hne : front ≠ []) :
    ∃ left, front = text ++ left ∧ rest = left ++ back := by
  rcases List.append_eq_append_iff.mp hsource with ⟨beyond, rfl, rfl⟩ | hwithin
  · cases beyond with
    | nil => exact ⟨[], by simp, rfl⟩
    | cons d beyond =>
      obtain ⟨start, c, rfl⟩ := (List.eq_nil_or_concat' front).resolve_left hne
      rw [List.append_assoc, List.singleton_append] at h
      have hjoin := hedge c (by simp) d rfl
      rw [h.joins_eq_true] at hjoin
      cases hjoin
  · exact hwithin

end Mode

namespace Lexeme

open Mode

theorem cut_scan_append {front back : List Char} (hedge : Edge front back) (offset : Nat) :
    cut .scan offset (front ++ back) =
      cut .scan offset front ++ cut .scan (offset + byteSize front) back := by
  generalize hsource : front ++ back = source
  induction source using scan.takes_induction generalizing front offset with
  | nil =>
    obtain ⟨rfl, rfl⟩ := List.append_eq_nil_iff.mp hsource
    rw [cut_nil, cut_nil]
    rfl
  | @step text rest kind htakes ih =>
    rcases eq_or_ne front [] with rfl | hne
    · rw [← hsource, cut_nil]
      rfl
    obtain ⟨left, rfl, rfl⟩ := htakes.exists_left hsource hedge hne
    have hleft : scan.Takes text left kind := htakes.of_append nofun
    rw [cut_append htakes, cut_append hleft, ih hedge.of_append _ rfl, byteSize_append,
      Nat.add_assoc]
    rfl

/-- The lexemes in the middle make up the part of the source between front and back. -/
def Around (found : List Lexeme) (front : List Char) (middle : List Lexeme) (back : List Char) :
    Prop :=
  ∃ before behind, found = before ++ middle ++ behind ∧ texts before = front ∧ texts behind = back

theorem around_cut {front run back : List Char}
    (hedges : Edge front (run ++ back) ∧ Edge run back) :
    Around (cut .scan 0 (front ++ run ++ back)) front (cut .scan (byteSize front) run) back := by
  refine ⟨cut .scan 0 front, cut .scan (byteSize front + byteSize run) back, ?_,
    (tiles_cut _ _ _).texts_eq, (tiles_cut _ _ _).texts_eq⟩
  rw [List.append_assoc, cut_scan_append hedges.1, Nat.zero_add, cut_scan_append hedges.2,
    List.append_assoc]

/-- A text between edges that is a token when nothing follows it is that token alone. -/
theorem around_place {front run back : List Char} {kind : Kind}
    (hedges : Edge front (run ++ back) ∧ Edge run back) (htakes : scan.Takes run [] kind) :
    Around (cut .scan 0 (front ++ run ++ back)) front [place (byteSize front) run kind] back := by
  have hcut := cut_append htakes (byteSize front)
  rw [List.append_nil, cut_nil] at hcut
  rw [← hcut]
  exact around_cut hedges

theorem map_cut_append {mode : Mode} {text rest : List Char} {kind : Kind}
    (h : mode.Takes text rest kind) (offset : Nat) :
    (cut mode offset (text ++ rest)).map (·.source.toList) =
      text :: (cut mode (offset + byteSize text) rest).map (·.source.toList) := by
  rw [cut_append h, List.map_cons, place, String.toList_ofList]

theorem map_cut_of_isStarSlash {run : List Char} (h : ∀ c ∈ run, isStarSlash c = true)
    (offset : Nat) : (cut .scan offset run).map (·.source.toList) = pairs run := by
  fun_induction pairs run generalizing offset with
  | case1 rest ih =>
    have hrest := (List.forall_mem_cons.mp (List.forall_mem_cons.mp h).2).2
    have htakes : scan.Takes ['/', '*'] rest .openComment := takes_iff_shape.mpr .openComment
    exact (map_cut_append htakes offset).trans (congrArg _ (ih hrest _))
  | case2 rest ih =>
    have hrest := (List.forall_mem_cons.mp (List.forall_mem_cons.mp h).2).2
    have htakes : scan.Takes ['*', '/'] rest .closeComment := takes_iff_shape.mpr .closeComment
    exact (map_cut_append htakes offset).trans (congrArg _ (ih hrest _))
  | case3 c rest hopening hclosing ih =>
    obtain ⟨hc, hrest⟩ := List.forall_mem_cons.mp h
    have hchar : c = '*' ∨ c = '/' := by simpa [isStarSlash] using hc
    have hlone : Carving.isDelimiter c rest.head? = false := by
      rw [Bool.eq_false_iff, ne_eq, Carving.isDelimiter_eq_true_iff]
      rintro (⟨rfl, hnext⟩ | ⟨rfl, hnext⟩)
      · obtain ⟨left, rfl⟩ := List.head?_eq_some_iff.mp hnext
        exact hopening left rfl rfl
      · obtain ⟨left, rfl⟩ := List.head?_eq_some_iff.mp hnext
        exact hclosing left rfl rfl
    have htakes : scan.Takes [c] rest .unrecognized := takes_iff_shape.mpr (.lone hchar.symm hlone)
    exact (map_cut_append htakes offset).trans (congrArg _ (ih hrest _))
  | case4 =>
    rw [cut_nil]
    rfl

end Lexeme

/-! ### Kinds in scan mode -/

namespace Kind

/-- The kinds in the order in which a text is tried for them. -/
def tried : List Kind :=
  [start, finish, print, identifier, openParen, closeParen, assignment, openComment, closeComment,
   whiteSpace, number, unrecognized]

def suits (text : List Char) : Kind → Bool
  | start => text == "start".toList
  | finish => text == "end".toList
  | print => text == "print".toList
  | identifier => text.head?.any Char.isAlpha && text.all isWord
  | openParen => text == ['(']
  | closeParen => text == [')']
  | assignment => text == ['=']
  | openComment => text == ['/', '*']
  | closeComment => text == ['*', '/']
  | whiteSpace => text.all isBlank
  | number => text.all Char.isDigit
  | unrecognized => true

theorem isIdentifier_eq (text : List Char) :
    isIdentifier text = (text.head?.any Char.isAlpha && text.all isWord) := by
  cases text with
  | nil => rfl
  | cons c text =>
    rw [isIdentifier, List.head?_cons, Option.any_some, List.all_cons]
    cases hc : c.isAlpha with
    | false => rfl
    | true => rw [isWord_of_isAlpha hc, Bool.true_and, Bool.true_and]

theorem find?_cons_eq_ite (test : Kind → Bool) (kind : Kind) (kinds : List Kind) :
    (kind :: kinds).find? test = if test kind = true then some kind else kinds.find? test := by
  rw [List.find?_cons]
  cases test kind <;> rfl

/-- The kind that a text is given is the first that suits it, if a text that begins with a blank is
all blank. -/
theorem find?_suits {text : List Char} (h : text.head?.any isBlank = text.all isBlank) :
    tried.find? (suits text) = some (ofText text) := by
  by_cases hstart : text = "start".toList
  · subst hstart
    rfl
  by_cases hfinish : text = "end".toList
  · subst hfinish
    rfl
  by_cases hprint : text = "print".toList
  · subst hprint
    rfl
  have hword : keyword? (String.ofList text) = none := by
    simp only [keyword?, ofList_eq_iff, hstart, hfinish, hprint, if_false]
  -- from here on the questions are the same on both sides, in the same order
  rw [ofText, hword, h, isIdentifier_eq]
  simp only [tried, find?_cons_eq_ite, suits, beq_iff_eq, hstart, hfinish, hprint, if_false,
    apply_ite some, if_true]

end Kind

namespace Mode

theorem Takes.any_head?_isBlank {text rest : List Char} {kind : Kind}
    (h : scan.Takes text rest kind) : text.head?.any isBlank = text.all isBlank := by
  have hsingle : ∀ c, [c].head?.any isBlank = [c].all isBlank := by simp
  cases takes_iff_shape.mp h with
  | space hne htext _ =>
    have hall : text.all isBlank = true := List.all_eq_true.mpr htext
    obtain ⟨c, text, rfl⟩ := List.exists_cons_of_ne_nil hne
    rw [hall]
    exact htext c List.mem_cons_self
  | run hne htext _ =>
    obtain ⟨c, text, rfl⟩ := List.exists_cons_of_ne_nil hne
    have hc := isBlank_eq_false_of_isStop_eq_false (htext c List.mem_cons_self)
    rw [List.head?_cons, Option.any_some, List.all_cons, hc, Bool.false_and]
  | assignment | openParen | closeParen | lone => exact hsingle _
  | openComment | closeComment => rfl

theorem Takes.find?_suits {text rest : List Char} {kind : Kind} (h : scan.Takes text rest kind) :
    Kind.tried.find? (Kind.suits text) = some kind := by
  rw [Kind.find?_suits h.any_head?_isBlank]
  obtain ⟨c, cs, carving, -, hcarve, rfl, htext, -⟩ := h.exists_carving
  cases hcarve
  exact congrArg (fun text => some (Kind.ofText text)) htext.symm

end Mode

/-! ### Segments -/

namespace Lexeme

open Mode

/-- What a scan makes of the words, the space and the symbols of a source. -/
structure Segments (source : List Char) (found : List Lexeme) : Prop where
  texts_eq : texts found = source
  ne_empty : ∀ token ∈ found, token.source ≠ ""
  word : ∀ front run back, source = front ++ run ++ back →
    Maximal (fun c => !isStop c) front run back →
    ∃ kind, Around found front [place (byteSize front) run kind] back
  space : ∀ front run back, source = front ++ run ++ back → Maximal isBlank front run back →
    Around found front [place (byteSize front) run .whiteSpace] back
  symbol : ∀ front c back, source = front ++ [c] ++ back → c ∈ ['(', ')', '='] →
    ∃ kind, Around found front [place (byteSize front) [c] kind] back
  delimiters : ∀ front run back, source = front ++ run ++ back →
    Maximal isStarSlash front run back →
    ∃ middle, middle.map (·.source.toList) = pairs run ∧ Around found front middle back
  kind : ∀ token ∈ found, Kind.tried.find? (Kind.suits token.source.toList) = some token.kind

/-- Words and runs of blanks are never split or merged in a scan, the other symbols are tokens of
their own but for the delimiters among stars and slashes, and the text of a token alone tells its
kind. -/
theorem segments_scan (source : String) :
    ∃ found, tokens .scan 0 source.toList = .ok found ∧ Segments source.toList found := by
  have htiles := tiles_cut .scan 0 source.toList
  refine ⟨_, tokens_eq_ok_cut .scan 0 source.toList, htiles.texts_eq, htiles.ne_empty,
    ?_, ?_, ?_, ?_, ?_⟩
  · intro front run back hsource hrun
    have hedges := hrun.edges fun c d h => congrArg not (classes_eq_of_joins h).1
    have htakes : scan.Takes run [] (Kind.ofText run) :=
      takes_iff_shape.mpr (.run hrun.ne_nil (by simpa using hrun.among_eq) ends_nil)
    rw [hsource]
    exact ⟨_, around_place hedges htakes⟩
  · intro front run back hsource hrun
    have hedges := hrun.edges fun c d h => (classes_eq_of_joins h).2.1
    have htakes : scan.Takes run [] .whiteSpace :=
      takes_iff_shape.mpr (.space hrun.ne_nil hrun.among_eq ends_nil)
    rw [hsource]
    exact around_place hedges htakes
  · intro front c back hsource hc
    have hsymbol : c = '(' ∨ c = ')' ∨ c = '=' := by simpa using hc
    have htakes : scan.Takes [c] [] (Kind.ofText [c]) := by
      obtain rfl | rfl | rfl := hsymbol
      · exact takes_iff_shape.mpr .openParen
      · exact takes_iff_shape.mpr .closeParen
      · exact takes_iff_shape.mpr .assignment
    rw [hsource]
    exact ⟨_, around_place (edges_of_symbol hc front back) htakes⟩
  · intro front run back hsource hrun
    have hedges := hrun.edges fun c d h => (classes_eq_of_joins h).2.2
    rw [hsource]
    exact ⟨_, map_cut_of_isStarSlash hrun.among_eq _, around_cut hedges⟩
  · intro token htoken
    obtain ⟨rest, htakes⟩ := takes_of_mem_cut htoken
    exact htakes.find?_suits

end Lexeme

end StraightLine
