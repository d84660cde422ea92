import StraightLine.Proofs.Command.Views
import StraightLine.Proofs.Decimal
import StraightLine.Proofs.Tree
import Mathlib.Data.List.Forall2

/-!
# Tables of lexemes

A table has a row for each lexeme, and the lexeme can be read from its row. The
number is right-aligned in four columns, and the name of the kind stands behind
it. The text comes right after the name, so it begins in the same column only
where the names are equally long.
-/

namespace StraightLine

/-- No lexeme of a source goes over the end of a line. -/
theorem Lexeme.newline_not_mem_of_analyze {mode : Mode} {source : String} {lexemes : List Lexeme}
    (h : analyze mode source = .ok lexemes) :
    ∀ lexeme ∈ lexemes, '\n' ∉ lexeme.source.toList := by
  intro lexeme hlexeme hmem
  obtain ⟨hcut, hshown⟩ := mem_cut_of_analyze h hlexeme
  obtain ⟨rest, htakes⟩ := takes_of_mem_cut hcut
  have hkind : lexeme.kind ≠ .whiteSpace := by
    intro hspace
    rw [hspace] at hshown
    cases hshown
  cases htakes.isBlank_eq_false hkind '\n' hmem

namespace Command

open Text

/-! ### Rows -/

/-- The text is what stands behind so many characters of the line. -/
def Begins (line : List Char) (column : Nat) (text : List Char) : Prop :=
  ∃ front, line = front ++ text ∧ front.length = column

theorem Begins.unique {line text : List Char} {column other : Nat} (h : Begins line column text)
    (hother : Begins line other text) : column = other := by
  obtain ⟨front, rfl, rfl⟩ := h
  obtain ⟨front', heq, rfl⟩ := hother
  rw [List.append_cancel_right heq]

structure Row where
  number : Nat
  kind : Kind
  source : String
  deriving DecidableEq, Inhabited, Repr

namespace Row

def line (row : Row) : List Char :=
  (padLeft 4 (Decimal.ofNat row.number)).toList ++
    (' ' :: ' ' :: (row.kind.name.toList ++ ' ' :: row.source.toList))

/-- The number behind blanks, the name of a kind behind two more, and the text behind another. -/
def ofLine? (line : List Char) : Option Row :=
  let entry := line.dropWhile (· == ' ')
  let named := (entry.dropWhile Char.isDigit).drop 2
  let name := named.takeWhile (· != ' ')
  (Kind.ofName? (String.ofList name)).map fun kind =>
    ⟨Decimal.value (entry.takeWhile Char.isDigit), kind,
      String.ofList (named.drop (name.length + 1))⟩

theorem toList_padLeft_ofNat (n : Nat) :
    (padLeft 4 (Decimal.ofNat n)).toList =
      List.replicate (4 - (Decimal.digits n).length) ' ' ++ Decimal.digits n := by
  simp [padLeft, Decimal.ofNat]

theorem blank_not_mem_name (kind : Kind) : ∀ c ∈ kind.name.toList, (c != ' ') = true := by
  refine List.all_eq_true.mp ?_
  cases kind <;> rfl

theorem ofLine?_line (row : Row) : ofLine? row.line = some row := by
  have hdigits : ∀ c ∈ Decimal.digits row.number, c.isDigit = true :=
    fun c hc => Decimal.isDigit_of_mem_digits hc
  have hfirst : Ends (· == ' ') (Decimal.digits row.number) := by
    intro c hc
    refine beq_eq_false_iff_ne.mpr ?_
    rintro rfl
    exact Decimal.not_mem_digits rfl row.number (List.mem_of_head? hc)
  have hname : Ends (· != ' ') (' ' :: row.source.toList) := ends_cons.mpr rfl
  have hbehind : ∀ back, Ends Char.isDigit (' ' :: back) := fun back => ends_cons.mpr rfl
  have hblanks : ∀ back : List Char, (' ' :: ' ' :: back).drop 2 = back := fun _ => rfl
  rw [line, toList_padLeft_ofNat, List.append_assoc, ofLine?,
    dropWhile_of_ends (by simp) (hfirst.append (Decimal.digits_ne_nil _) _),
    dropWhile_of_ends hdigits (hbehind _), takeWhile_of_ends hdigits (hbehind _), hblanks,
    takeWhile_of_ends (blank_not_mem_name row.kind) hname, String.ofList_toList,
    (Kind.ofName?_eq_some_iff _ _).mpr rfl, Decimal.value_digits, List.drop_length_add_append]
  simp

theorem length_padLeft_ofNat {n : Nat} (h : n ≤ 9999) :
    (padLeft 4 (Decimal.ofNat n)).toList.length = 4 := by
  have hdigits : (Decimal.digits n).length ≤ 4 := by
    rw [Decimal.digits_eq_toDigits]
    exact Nat.toDigits_length 10 n 4 (by decide) (by omega)
  rw [toList_padLeft_ofNat, List.length_append, List.length_replicate]
  omega

/-- The name of the kind begins behind four columns for the number and two blanks. -/
theorem begins_name (row : Row) (h : row.number ≤ 9999) :
    Begins row.line 6 (row.kind.name.toList ++ ' ' :: row.source.toList) := by
  refine ⟨(padLeft 4 (Decimal.ofNat row.number)).toList ++ [' ', ' '], ?_, ?_⟩
  · rw [line, List.append_assoc]
    rfl
  · rw [List.length_append, length_padLeft_ofNat h]
    rfl

theorem begins_source (row : Row) (h : row.number ≤ 9999) :
    Begins row.line (7 + row.kind.name.length) row.source.toList := by
  obtain ⟨front, hline, hfront⟩ := begins_name row h
  refine ⟨front ++ (row.kind.name.toList ++ [' ']), ?_, ?_⟩
  · rw [hline]
    simp
  · rw [List.length_append, hfront, List.length_append, String.length_toList,
      List.length_singleton]
    omega

/-- In the first rows a text begins where the name of its kind puts it, and nowhere else. -/
theorem begins_source_iff {row : Row} (h : row.number ≤ 9999) {column : Nat} :
    Begins row.line column row.source.toList ↔ column = 7 + row.kind.name.length := by
  constructor
  · intro hbegins
    exact hbegins.unique (begins_source row h)
  · rintro rfl
    exact begins_source row h

def ofEntry (entry : Lexeme × Nat) : Row :=
  ⟨entry.2, entry.1.kind, entry.1.source⟩

theorem newline_not_mem_line {row : Row} (h : '\n' ∉ row.source.toList) : '\n' ∉ row.line := by
  have hdigits : '\n' ∉ Decimal.digits row.number := Decimal.not_mem_digits rfl row.number
  have hname : '\n' ∉ row.kind.name.toList := by
    cases row.kind <;> decide
  simp [line, toList_padLeft_ofNat, hdigits, hname, h]

/-- The line shows a lexeme with its number. -/
structure Shows (line : List Char) (entry : Lexeme × Nat) : Prop where
  read_eq : ofLine? line = some (ofEntry entry)
  begins_name : entry.2 ≤ 9999 →
    Begins line 6 (entry.1.kind.name.toList ++ ' ' :: entry.1.source.toList)
  begins_source : entry.2 ≤ 9999 →
    Begins line (7 + entry.1.kind.name.length) entry.1.source.toList

theorem shows_line (entry : Lexeme × Nat) : Shows (ofEntry entry).line entry where
  read_eq := ofLine?_line _
  begins_name h := (ofEntry entry).begins_name h
  begins_source h := (ofEntry entry).begins_source h

end Row

/-! ### Tables -/

/-- The texts of the lexemes begin in the same column. -/
def Aligned (lines : List (List Char)) (lexemes : List Lexeme) : Prop :=
  ∃ column, List.Forall₂ (fun line lexeme => Begins line column lexeme.source.toList) lines lexemes

theorem rows_eq (number : Nat) (lexemes : List Lexeme) :
    rows number lexemes =
      ((lexemes.zipIdx number).map fun entry => String.ofList (Row.ofEntry entry).line).map
        fun line => line ++ "\n" := by
  induction lexemes generalizing number with
  | nil => rfl
  | cons lexeme rest ih =>
    have hrow : row number lexeme = String.ofList (Row.ofEntry (lexeme, number)).line ++ "\n" := by
      rw [← String.toList_inj]
      simp [row, Row.line, Row.ofEntry]
    rw [rows, ih, hrow, List.zipIdx_cons, List.map_cons, List.map_cons]

section Table

variable {lexemes : List Lexeme}

theorem lines_table (h : ∀ lexeme ∈ lexemes, '\n' ∉ lexeme.source.toList) :
    Text.lines (table lexemes).toList =
      (lexemes.zipIdx 1).map fun entry => (Row.ofEntry entry).line := by
  have hunlines : (table lexemes).toList =
      unlines ((lexemes.zipIdx 1).map fun entry => (Row.ofEntry entry).line) := by
    rw [table, rows_eq, toList_join, List.map_map]
    simp [Function.comp_def]
  rw [hunlines]
  apply lines_unlines
  intro line hline
  obtain ⟨entry, hentry, rfl⟩ := List.mem_map.mp hline
  exact Row.newline_not_mem_line (h entry.1 (List.fst_mem_of_mem_zipIdx hentry))

theorem forall₂_shows_table (h : ∀ lexeme ∈ lexemes, '\n' ∉ lexeme.source.toList) :
    List.Forall₂ Row.Shows (Text.lines (table lexemes).toList) (lexemes.zipIdx 1) := by
  rw [lines_table h, List.forall₂_map_left_iff, List.forall₂_same]
  exact fun entry _ => Row.shows_line entry

theorem forall₂_begins_table_iff (h : ∀ lexeme ∈ lexemes, '\n' ∉ lexeme.source.toList)
    (hlength : lexemes.length ≤ 9999) (column : Nat) :
    List.Forall₂ (fun line lexeme => Begins line column lexeme.source.toList)
        (Text.lines (table lexemes).toList) lexemes ↔
      ∀ lexeme ∈ lexemes, column = 7 + lexeme.kind.name.length := by
  have hfst : (lexemes.zipIdx 1).map Prod.fst = lexemes := List.zipIdx_map_fst 1 lexemes
  have hentries : ∀ entry ∈ lexemes.zipIdx 1, (Begins (Row.ofEntry entry).line column
      entry.1.source.toList ↔ column = 7 + entry.1.kind.name.length) := by
    intro entry hentry
    have hnumber : entry.2 < lexemes.length + 1 := List.snd_lt_of_mem_zipIdx hentry
    have hfirst : (Row.ofEntry entry).number ≤ 9999 := by
      change entry.2 ≤ 9999
      omega
    exact Row.begins_source_iff hfirst
  have hbegins : List.Forall₂ (fun entry lexeme =>
      Begins (Row.ofEntry entry).line column lexeme.source.toList) (lexemes.zipIdx 1)
        ((lexemes.zipIdx 1).map Prod.fst) ↔
      ∀ lexeme ∈ (lexemes.zipIdx 1).map Prod.fst, column = 7 + lexeme.kind.name.length := by
    rw [List.forall₂_map_right_iff, List.forall₂_same, List.forall_mem_map]
    exact forall₂_congr hentries
  rw [hfst] at hbegins
  rw [lines_table h, List.forall₂_map_left_iff, hbegins]

/-- A table is aligned only if the names of the kinds in it are equally long. -/
theorem aligned_table_iff (h : ∀ lexeme ∈ lexemes, '\n' ∉ lexeme.source.toList)
    (hlength : lexemes.length ≤ 9999) :
    Aligned (Text.lines (table lexemes).toList) lexemes ↔
      ∀ first ∈ lexemes, ∀ second ∈ lexemes,
        first.kind.name.length = second.kind.name.length := by
  have hcolumn := forall₂_begins_table_iff h hlength
  constructor
  · rintro ⟨column, haligned⟩ first hfirst second hsecond
    have hall := (hcolumn column).mp haligned
    have := hall first hfirst
    have := hall second hsecond
    omega
  · intro hnames
    cases lexemes with
    | nil => exact ⟨0, (hcolumn 0).mpr (List.forall_mem_nil _)⟩
    | cons first rest =>
      refine ⟨7 + first.kind.name.length, (hcolumn _).mpr fun lexeme hlexeme => ?_⟩
      rw [hnames first List.mem_cons_self lexeme hlexeme]

end Table

namespace Workshop

/-- The table of a source has a row for each lexeme, in order, from which the number, the kind and
the text can be read. The rows are aligned just when the names of their kinds are equally long. -/
theorem table_shows_lexemes {workshop : Workshop} {arguments : List String} {mode : Mode}
    {jsonErrors : Bool} {input source : String}
    (hrequest : Request.ofArguments? arguments =
      some (.invoke ⟨mode, jsonErrors, .lex false, input⟩))
    (htext : workshop.text input = .ok source) :
    ∃ lexemes output, Lexeme.analyze mode source = .ok lexemes ∧
      (workshop.execute arguments).1 = .success output ∧
      List.Forall₂ Row.Shows (Text.lines output.toList) (lexemes.zipIdx 1) ∧
      (lexemes.length ≤ 9999 → (Aligned (Text.lines output.toList) lexemes ↔
        ∀ first ∈ lexemes, ∀ second ∈ lexemes,
          first.kind.name.length = second.kind.name.length)) := by
  obtain ⟨lexemes, hlexemes⟩ := Lexeme.exists_analyze_eq_ok mode source
  have hunbroken := Lexeme.newline_not_mem_of_analyze hlexemes
  refine ⟨lexemes, table lexemes, hlexemes, ?_, forall₂_shows_table hunbroken,
    aligned_table_iff hunbroken⟩
  rw [execute_lex hrequest htext hlexemes]
  rfl

/-- A text is read from its row with the white space in it that parts no words. -/
theorem table_shows_lexemes_shed :
    ∃ lexemes output, Lexeme.analyze .scan "x 2\u000b\u00a0number" = .ok lexemes ∧
      ((shed "prog.start" "x 2\u000b\u00a0number").execute
        ["lex", "--mode=scan", "prog.start"]).1 = .success output ∧
      List.Forall₂ Row.Shows (Text.lines output.toList) (lexemes.zipIdx 1) ∧
      ¬ Aligned (Text.lines output.toList) lexemes := by
  have hrequest : Request.ofArguments? ["lex", "--mode=scan", "prog.start"] =
      some (.invoke ⟨.scan, false, .lex false, "prog.start"⟩) := by decide +kernel
  have htext : (shed "prog.start" "x 2\u000b\u00a0number").text "prog.start" =
      .ok "x 2\u000b\u00a0number" := by decide +kernel
  have hknown : Lexeme.analyze .scan "x 2\u000b\u00a0number" =
      .ok [⟨"x", .identifier, ⟨0, 1⟩⟩, ⟨"2\u000b\u00a0number", .unrecognized, ⟨2, 12⟩⟩] := by
    decide +kernel
  obtain ⟨lexemes, output, hlexemes, houtput, hshows, haligned⟩ :=
    table_shows_lexemes hrequest htext
  cases hlexemes.symm.trans hknown
  refine ⟨_, output, hknown, houtput, hshows, fun hcolumn => ?_⟩
  exact absurd ((haligned (by decide)).mp hcolumn) (by decide)

/-- An identifier and an assignment operator have names of different lengths, and their texts do
not begin in the same column. -/
theorem not_aligned_table :
    ¬ ∀ (workshop : Workshop) (arguments : List String) (mode : Mode) (jsonErrors : Bool)
      (input source : String) (lexemes : List Lexeme),
      Request.ofArguments? arguments = some (.invoke ⟨mode, jsonErrors, .lex false, input⟩) →
      workshop.text input = .ok source → Lexeme.analyze mode source = .ok lexemes →
      lexemes.length ≤ 9999 →
      Aligned (Text.lines (workshop.execute arguments).1.output.toList) lexemes := by
  intro h
  have hrequest : Request.ofArguments? ["lex", "prog.start"] =
      some (.invoke ⟨.pattern, false, .lex false, "prog.start"⟩) := by decide +kernel
  have htext : (shed "prog.start" "x =").text "prog.start" = .ok "x =" := by decide +kernel
  have hlexemes : Lexeme.analyze .pattern "x =" =
      .ok [⟨"x", .identifier, ⟨0, 1⟩⟩, ⟨"=", .assignment, ⟨2, 3⟩⟩] := by decide +kernel
  have haligned := h _ _ _ _ _ _ _ hrequest htext hlexemes (by decide)
  rw [execute_lex hrequest htext hlexemes] at haligned
  have hnames := (aligned_table_iff (by decide) (by decide)).mp haligned
  exact absurd hnames (by decide)

end Workshop

end Command

end StraightLine
