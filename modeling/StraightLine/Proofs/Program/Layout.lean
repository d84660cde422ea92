import StraightLine.Proofs.Lexeme.Separator
import StraightLine.Proofs.Program

/-!
# Layouts of programs

A program is written down as its tokens in order, with any white space and
any comments between them. Only between two words or numbers something has to
stand. However a program is laid out, reading it in either mode gives it back.
-/

namespace StraightLine

open Text

/-- The texts that have the given tokens in order, with separators around them. `joined` says that
a word or a number stands in front, from which another one has to be kept apart. -/
inductive Layout : Bool → List (Kind × String) → List Char → Prop
  | last {joined : Bool} {gap : List Char} (hgap : Separator gap) : Layout joined [] gap
  | token {joined : Bool} {gap : List Char} {token : Kind × String} {rest : List (Kind × String)}
      {text : List Char} (hgap : Separator gap)
      (hapart : joined = true → token.1.isRun = true → gap ≠ [])
      (hrest : Layout token.1.isRun rest text) :
      Layout joined (token :: rest) (gap ++ (token.2.toList ++ text))

structure Kind.Writes (kind : Kind) (text : String) : Prop where
  fits : kind.Fits text.toList
  isWritten : kind.isWritten = true

theorem Kind.isWritten_iff (kind : Kind) :
    kind.isWritten = true ↔ kind.isShown = true ∧ kind ≠ .unrecognized := by
  cases kind <;> decide

theorem Expression.writes {expression : Expression} (h : expression.Proper) :
    expression.unparse.1.Writes expression.unparse.2 := by
  cases expression with
  | identifier name => exact ⟨h, rfl⟩
  | number literal => exact ⟨h, rfl⟩

theorem Statement.writes {statement : Statement} (h : statement.Proper) :
    ∀ token ∈ statement.unparse, token.1.Writes token.2 := by
  cases statement with
  | assignment target expression =>
    simp only [unparse, List.forall_mem_cons]
    exact ⟨⟨h.1, rfl⟩, ⟨rfl, rfl⟩, Expression.writes h.2, List.forall_mem_nil _⟩
  | output expression =>
    simp only [unparse, List.forall_mem_cons]
    exact ⟨⟨rfl, rfl⟩, ⟨rfl, rfl⟩, Expression.writes h, ⟨rfl, rfl⟩, List.forall_mem_nil _⟩

theorem Program.writes {program : Program} (h : program.Proper) :
    ∀ token ∈ program.unparse, token.1.Writes token.2 := by
  intro token htoken
  rcases List.mem_append.mp htoken with hfront | hend
  · rcases List.mem_cons.mp hfront with rfl | hbody
    · exact ⟨rfl, rfl⟩
    · obtain ⟨statement, hstatement, hmem⟩ := List.mem_flatMap.mp hbody
      exact Statement.writes (h statement hstatement) token hmem
  · rw [List.mem_singleton.mp hend]
    exact ⟨rfl, rfl⟩

/-- Behind a word or a number a layout does not go on with a word. -/
theorem Layout.stops {tokens : List (Kind × String)} {text : List Char}
    (h : Layout true tokens text) (hwrites : ∀ token ∈ tokens, token.1.Writes token.2) :
    Stops text := by
  cases h with
  | last hgap => exact hgap.stops
  | @token _ gap token _ text hgap hapart _ =>
    rcases eq_or_ne gap [] with rfl | hne
    · obtain ⟨hfits, hwritten⟩ := hwrites token List.mem_cons_self
      obtain ⟨kind, word⟩ := token
      rw [List.nil_append]
      cases kind with
      | start | finish | print | identifier | number => exact absurd rfl (hapart rfl rfl)
      | assignment | openParen | closeParen =>
        have hword : word.toList = _ := hfits
        rw [hword]
        exact ends_cons.mpr rfl
      | whiteSpace | openComment | closeComment | unrecognized => cases hwritten
    · exact hgap.stops.append hne _

/-- In either mode exactly the tokens of a layout are seen. -/
theorem Lexeme.bears_of_layout {joined : Bool} {tokens : List (Kind × String)} {text : List Char}
    (h : Layout joined tokens text) (hwrites : ∀ token ∈ tokens, token.1.Writes token.2)
    (mode : Mode) (offset : Nat) :
    List.Forall₂ Bears (visible false (cut mode offset text)) tokens := by
  induction h generalizing offset with
  | @last _ gap hgap =>
    rw [← List.append_nil gap, visible_cut_separator hgap, cut_nil]
    exact .nil
  | @token _ gap token rest text hgap hapart hrest ih =>
    obtain ⟨hfirst, hmore⟩ := List.forall_mem_cons.mp hwrites
    have hstops : token.1.isRun = true → Stops text := by
      intro hrun
      rw [hrun] at hrest
      exact hrest.stops hmore
    have hshown := ((Kind.isWritten_iff _).mp hfirst.isWritten).1
    have htakes := mode.takes_of_fits hfirst.fits hfirst.isWritten hstops
    rw [visible_cut_separator hgap, cut_append htakes, visible_false_cons hshown]
    exact .cons ⟨rfl, fun _ => String.ofList_toList⟩ (ih hmore _)

theorem Program.ofSource_of_analyze {mode : Mode} {source : String} {lexemes : List Lexeme}
    {program : Program} (h : Lexeme.analyze mode source = .ok lexemes)
    (hspells : Lexeme.Spells lexemes program) : ofSource mode source = .ok program := by
  rw [ofSource, h]
  exact congrArg Prod.fst (Stream.parse_of_spells hspells)

/-- Reading undoes writing, whatever stands between the tokens. -/
theorem Program.ofSource_of_layout {program : Program} (hproper : program.Proper) {source : String}
    (hlayout : Layout false program.unparse source.toList) (mode : Mode) :
    ofSource mode source = .ok program :=
  ofSource_of_analyze (Lexeme.analyze_eq_ok mode source)
    (Lexeme.bears_of_layout hlayout (writes hproper) mode 0)

theorem Program.ofSource_of_layout_comments :
    ∃ program : Program, program.Proper ∧
      Layout false program.unparse "/**/start/*=é* */end_=007/*//x*/print(end_)\r\nend".toList ∧
      ofSource .pattern "/**/start/*=é* */end_=007/*//x*/print(end_)\r\nend" = .ok program ∧
      ofSource .scan "/**/start/*=é* */end_=007/*//x*/print(end_)\r\nend" = .ok program := by
  have hname : Kind.identifier.Fits "end_".toList := ⟨by decide, by decide⟩
  have hliteral : Kind.number.Fits "007".toList :=
    ⟨by decide, List.all_eq_true.mp (by decide)⟩
  have hproper : Program.Proper
      ⟨[.assignment "end_" (.number "007"), .output (.identifier "end_")]⟩ :=
    List.forall_mem_cons.mpr ⟨⟨hname, hliteral⟩, List.forall_mem_singleton.mpr hname⟩
  have hempty : Separator (['/', '*'] ++ ([] ++ (['*', '/'] ++ []))) :=
    .comment (by decide) (by decide) .nil
  have hstars : Separator (['/', '*'] ++ (['=', 'é', '*', ' '] ++ (['*', '/'] ++ []))) :=
    .comment (by decide) (by decide) .nil
  have hslashes : Separator (['/', '*'] ++ (['/', '/', 'x'] ++ (['*', '/'] ++ []))) :=
    .comment (by decide) (by decide) .nil
  have hline : Separator ['\r', '\n'] := .blank rfl (.blank rfl .nil)
  have hend : Layout false [(.finish, "end")] (['\r', '\n'] ++ ("end".toList ++ [])) :=
    .token hline nofun (.last .nil)
  have hprint : Layout true
      [(.print, "print"), (.openParen, "("), (.identifier, "end_"), (.closeParen, ")"),
        (.finish, "end")] _ :=
    .token hslashes (by decide) (.token .nil nofun (.token .nil nofun (.token .nil nofun hend)))
  have hlayout : Layout false
      [(.start, "start"), (.identifier, "end_"), (.assignment, "="), (.number, "007"),
        (.print, "print"), (.openParen, "("), (.identifier, "end_"), (.closeParen, ")"),
        (.finish, "end")] _ :=
    .token hempty nofun
      (.token hstars (by decide) (.token .nil nofun (.token .nil nofun hprint)))
  have hread : ∀ mode, ofSource mode "/**/start/*=é* */end_=007/*//x*/print(end_)\r\nend" = .ok _ :=
    ofSource_of_layout hproper hlayout
  exact ⟨_, hproper, hlayout, hread .pattern, hread .scan⟩

end StraightLine
