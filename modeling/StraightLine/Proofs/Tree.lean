import StraightLine.Proofs.Position
import StraightLine.Proofs.Program.Layout
import StraightLine.Proofs.Tools

/-!
# The tokens in a tree view

A view has a line for each node and for each token. The texts of tokens begin
with neither a blank nor an angle bracket, so whoever takes the indentation
away and drops the labels of the nodes is left with the tokens. These are all
the lexemes of the source, also those of which the tree keeps no text.
-/

namespace StraightLine

namespace Text

/-- The lines of a text. What stands behind the last line feed is one unless it is empty. -/
def lines (text : List Char) : List (List Char) :=
  let pieces := text.splitOn '\n'
  if pieces.getLast? = some [] then pieces.dropLast else pieces

theorem lines_unlines {lines : List (List Char)} (h : ∀ line ∈ lines, '\n' ∉ line) :
    Text.lines (unlines lines) = lines := by
  simp [Text.lines, splitOn_unlines h]

end Text

namespace Tree

def labels : List String :=
  ["<program>", "<assignment_statement>", "<output_statement>", "<expression>", "<identifier>",
   "<number>"]

def stripped (line : List Char) : String :=
  String.ofList (line.dropWhile (· == ' '))

/-- What is left of a view without the indentation and without the lines that are labels. -/
def shown (view : String) : List String :=
  ((Text.lines view.toList).map stripped).filter (· ∉ labels)

/-- The text of a token stays on its line, and cannot be taken for indentation or for a label. -/
structure Plain (text : String) : Prop where
  newline_not_mem : '\n' ∉ text.toList
  head?_ne_blank : text.toList.head? ≠ some ' '
  not_mem_labels : text ∉ labels

/-! ### Lines of a view -/

def indented (line : Line) : String :=
  String.ofList (List.replicate (2 * line.1) ' ') ++ line.2

theorem toList_tree (program : Program) :
    program.tree.toList = Text.unlines ((ofProgram program).map fun line =>
      (indented line).toList) := by
  have hlines := Text.toList_join ((ofProgram program).map indented)
  rwa [List.map_map, List.map_map] at hlines

theorem lines_tree {program : Program}
    (h : ∀ line ∈ ofProgram program, '\n' ∉ line.2.toList) :
    Text.lines program.tree.toList =
      (ofProgram program).map fun line => (indented line).toList := by
  rw [toList_tree]
  apply Text.lines_unlines
  intro text htext
  obtain ⟨line, hline, rfl⟩ := List.mem_map.mp htext
  simp [indented, h line hline]

theorem stripped_indented {line : Line} (h : line.2.toList.head? ≠ some ' ') :
    stripped (indented line).toList = line.2 := by
  have hkept : line.2.toList.dropWhile (· == ' ') = line.2.toList := by
    cases htext : line.2.toList with
    | nil => rfl
    | cons c rest =>
      rw [htext, List.head?_cons, ne_eq, Option.some_inj] at h
      exact List.dropWhile_cons_of_neg (by simpa using h)
  rw [stripped, indented, String.toList_append, String.toList_ofList,
    List.dropWhile_append_of_pos (by simp), hkept, String.ofList_toList]

/-! ### Leaves -/

/-- The texts of the lines that are not labels. -/
def leaves (lines : List Line) : List String :=
  (lines.map Prod.snd).filter (· ∉ labels)

theorem leaves_append (front back : List Line) :
    leaves (front ++ back) = leaves front ++ leaves back := by
  simp [leaves]

theorem leaves_node {label : String} (h : label ∈ labels) (parts : List Line) :
    leaves (node label parts) = leaves parts := by
  simp [leaves, node, h, Function.comp_def]

theorem leaves_token {text : String} (h : text ∉ labels) : leaves (token text) = [text] := by
  simp [leaves, token, h]

theorem leaves_ofExpression {expression : Expression} (h : expression.unparse.2 ∉ labels) :
    leaves (ofExpression expression) = [expression.unparse.2] := by
  cases expression with
  | identifier name =>
    rw [ofExpression, leaves_node (by decide), leaves_node (by decide)]
    exact leaves_token h
  | number literal =>
    rw [ofExpression, leaves_node (by decide), leaves_node (by decide)]
    exact leaves_token h

theorem leaves_ofStatement {statement : Statement}
    (h : ∀ token ∈ statement.unparse, token.2 ∉ labels) :
    leaves (ofStatement statement) = statement.unparse.map Prod.snd := by
  cases statement with
  | assignment target expression =>
    simp only [Statement.unparse, List.forall_mem_cons] at h
    obtain ⟨htarget, hequals, hexpression, -⟩ := h
    rw [ofStatement, leaves_node (by decide), leaves_append, leaves_append, leaves_token htarget,
      leaves_token hequals, leaves_ofExpression hexpression]
    rfl
  | output expression =>
    simp only [Statement.unparse, List.forall_mem_cons] at h
    obtain ⟨hprint, hopen, hexpression, hclose, -⟩ := h
    rw [ofStatement, leaves_node (by decide), leaves_append, leaves_append, leaves_append,
      leaves_token hprint, leaves_token hopen, leaves_ofExpression hexpression, leaves_token hclose]
    rfl

theorem leaves_flatMap_ofStatement {statements : List Statement}
    (h : ∀ token ∈ statements.flatMap Statement.unparse, token.2 ∉ labels) :
    leaves (statements.flatMap ofStatement) =
      (statements.flatMap Statement.unparse).map Prod.snd := by
  induction statements with
  | nil => rfl
  | cons statement rest ih =>
    rw [List.flatMap_cons, List.forall_mem_append] at h
    rw [List.flatMap_cons, List.flatMap_cons, leaves_append, List.map_append,
      leaves_ofStatement h.1, ih h.2]

/-- The leaves of a view are the tokens of the program. -/
theorem leaves_ofProgram {program : Program} (h : ∀ token ∈ program.unparse, token.2 ∉ labels) :
    leaves (ofProgram program) = program.unparse.map Prod.snd := by
  rw [Program.unparse, List.forall_mem_append, List.forall_mem_cons] at h
  obtain ⟨⟨hstart, hbody⟩, hend⟩ := h
  rw [ofProgram, leaves_node (by decide), leaves_append, leaves_append, leaves_token hstart,
    leaves_flatMap_ofStatement hbody, leaves_token (by decide)]
  simp [Program.unparse]

/-- Every text of a view is a label or the text of a token. -/
theorem mem_labels_or_mem_unparse {program : Program}
    (h : ∀ token ∈ program.unparse, token.2 ∉ labels) {line : Line}
    (hline : line ∈ ofProgram program) :
    line.2 ∈ labels ∨ ∃ token ∈ program.unparse, token.2 = line.2 := by
  by_cases hlabel : line.2 ∈ labels
  · exact .inl hlabel
  · right
    have hleaf : line.2 ∈ leaves (ofProgram program) := by
      simpa [leaves, hlabel] using ⟨line.1, hline⟩
    rw [leaves_ofProgram h] at hleaf
    exact List.mem_map.mp hleaf

/-- A view of plain tokens shows these tokens. -/
theorem shown_tree {program : Program} (h : ∀ token ∈ program.unparse, Plain token.2) :
    shown program.tree = program.unparse.map Prod.snd := by
  have hlabels : ∀ label ∈ labels, '\n' ∉ label.toList ∧ label.toList.head? ≠ some ' ' := by decide
  have htokens : ∀ token ∈ program.unparse, token.2 ∉ labels :=
    fun token htoken => (h token htoken).not_mem_labels
  have htexts : ∀ line ∈ ofProgram program,
      '\n' ∉ line.2.toList ∧ line.2.toList.head? ≠ some ' ' := by
    intro line hline
    obtain hlabel | ⟨token, htoken, heq⟩ := mem_labels_or_mem_unparse htokens hline
    · exact hlabels _ hlabel
    · rw [← heq]
      exact ⟨(h token htoken).newline_not_mem, (h token htoken).head?_ne_blank⟩
  have hstripped : ∀ line ∈ ofProgram program,
      (stripped ∘ fun line => (indented line).toList) line = line.2 :=
    fun line hline => stripped_indented (htexts line hline).2
  rw [shown, lines_tree fun line hline => (htexts line hline).1, List.map_map,
    List.map_congr_left hstripped]
  exact leaves_ofProgram htokens

/-! ### Texts of tokens -/

theorem plain_of_head {text : String} {c : Char} {rest : List Char}
    (htext : text.toList = c :: rest) (hblank : c ≠ ' ') (hbracket : c ≠ '<')
    (hnewline : '\n' ∉ text.toList) : Plain text where
  newline_not_mem := hnewline
  head?_ne_blank := by simpa [htext] using hblank
  not_mem_labels := by
    intro hlabel
    have hlabels : ∀ label ∈ labels, label.toList.head? = some '<' := by decide
    have hhead := hlabels text hlabel
    rw [htext] at hhead
    exact hbracket (Option.some_inj.mp hhead)

theorem plain_of_writes {kind : Kind} {text : String} (h : kind.Writes text) : Plain text := by
  obtain ⟨hfits, hwritten⟩ := h
  cases kind with
  | whiteSpace | openComment | closeComment | unrecognized => cases hwritten
  | start | finish | print | assignment | openParen | closeParen =>
    have htext : text.toList = _ := hfits
    refine plain_of_head htext (by decide) (by decide) ?_
    rw [htext]
    decide
  | identifier =>
    obtain ⟨c, rest, htext, hc, -⟩ := (Text.isIdentifier_eq_true_iff _).mp hfits.1
    refine plain_of_head htext ?_ ?_ (Kind.newline_not_mem_of_fits hfits (.inl rfl))
    · rintro rfl
      cases hc
    · rintro rfl
      cases hc
  | number =>
    obtain ⟨c, rest, htext⟩ := List.exists_cons_of_ne_nil hfits.1
    have hc : c.isDigit = true := hfits.2 c (by simp [htext])
    refine plain_of_head htext ?_ ?_ (Kind.newline_not_mem_of_fits hfits (.inr rfl))
    · rintro rfl
      cases hc
    · rintro rfl
      cases hc

end Tree

/-! ### Lexemes of a source -/

/-- A kind that writes something else than words and numbers has one text only. -/
theorem Kind.Writes.toList_eq {kind : Kind} {text : String} (h : kind.Writes text)
    (hkept : kind.isKept = false) {other : List Char} (hother : kind.Fits other) :
    other = text.toList := by
  obtain ⟨hfits, hwritten⟩ := h
  cases kind with
  | whiteSpace | openComment | closeComment | unrecognized => cases hwritten
  | identifier | number => cases hkept
  | start | finish | print | assignment | openParen | closeParen =>
    have htext : text.toList = _ := hfits
    exact hother.trans htext.symm

namespace Lexeme

theorem source_eq_of_bears {lexeme : Lexeme} {token : Kind × String} (h : lexeme.Bears token)
    (hfits : lexeme.kind.Fits lexeme.source.toList) (hwrites : token.1.Writes token.2) :
    lexeme.source = token.2 := by
  cases hkept : token.1.isKept with
  | true => exact h.source_eq hkept
  | false =>
    rw [h.kind_eq] at hfits
    exact String.toList_inj.mp (hwrites.toList_eq hkept hfits)

theorem map_source_of_bears {lexemes : List Lexeme} {tokens : List (Kind × String)}
    (h : List.Forall₂ Bears lexemes tokens)
    (hfits : ∀ lexeme ∈ lexemes, lexeme.kind.Fits lexeme.source.toList)
    (hwrites : ∀ token ∈ tokens, token.1.Writes token.2) :
    lexemes.map source = tokens.map Prod.snd := by
  induction h with
  | nil => rfl
  | cons hbears _ ih =>
    rw [List.forall_mem_cons] at hfits hwrites
    rw [List.map_cons, List.map_cons, source_eq_of_bears hbears hfits.1 hwrites.1,
      ih hfits.2 hwrites.2]

end Lexeme

namespace Program

/-- Whatever a tree writer was used for before, its view of a program that was read from a source
shows the lexemes of that source: each of them, in order, and nothing else. -/
theorem tree_shows_lexemes {mode : Mode} {source : String} {program : Program}
    (h : ofSource mode source = .ok program) (writer : TreeWriter) :
    ∃ lexemes, Lexeme.analyze mode source = .ok lexemes ∧
      Tree.shown (writer.print program).1 = lexemes.map Lexeme.source := by
  obtain ⟨lexemes, hlexemes, hspells⟩ := exists_spells_of_ofSource h
  have hwrites := writes (proper_of_ofSource h)
  have htexts : lexemes.map Lexeme.source = program.unparse.map Prod.snd :=
    Lexeme.map_source_of_bears hspells (Lexeme.fits_of_analyze hlexemes) hwrites
  refine ⟨lexemes, hlexemes, ?_⟩
  rw [TreeWriter.print_eq, htexts]
  apply Tree.shown_tree
  intro token htoken
  exact Tree.plain_of_writes (hwrites token htoken)

theorem tree_shows_lexemes_comment :
    ∃ program, ofSource .scan "start/*<end>*/end_=007\tprint ( program) end" = .ok program ∧
      ∃ lexemes, Lexeme.analyze .scan "start/*<end>*/end_=007\tprint ( program) end" =
          .ok lexemes ∧
        Tree.shown ((TreeWriter.mk "start" 3).print program).1 = lexemes.map Lexeme.source := by
  have hread : ofSource .scan "start/*<end>*/end_=007\tprint ( program) end" =
      .ok ⟨[.assignment "end_" (.number "007"), .output (.identifier "program")]⟩ := by
    decide +kernel
  exact ⟨_, hread, tree_shows_lexemes hread ⟨"start", 3⟩⟩

end Program

end StraightLine
