import StraightLine.Proofs.Machine.Refinement
import StraightLine.Proofs.Program.Modes

/-!
# From sources to listings

A lexeme is of a kind only if its text gives it a right to it, and the texts
of a program read from a source are names and numerals for that reason. So
nothing of a source gets into a listing but the first line of each statement,
which is a comment and ends where it should.
-/

namespace StraightLine

open Text

/-- The text is none of the words and symbols that programs are written with. A row of digits may
be. -/
structure Text.Unclaimed (text : List Char) : Prop where
  keyword?_eq : Kind.keyword? (String.ofList text) = none
  isIdentifier_eq : isIdentifier text = false
  symbol_ne : ∀ symbol ∈ ['=', '(', ')'], text ≠ [symbol]

/-- The kind of a lexeme is justified by its text, and it has no blank in it. -/
structure Lexeme.Justified (lexeme : Lexeme) : Prop where
  isShown : lexeme.kind.isShown = true
  fits : lexeme.kind.Fits lexeme.source.toList
  unrecognized : lexeme.kind = .unrecognized → Unclaimed lexeme.source.toList
  isBlank_eq_false : ∀ c ∈ lexeme.source.toList, isBlank c = false

theorem forall_mem_symbols {motive : Char → Prop} (hequals : motive '=') (hopen : motive '(')
    (hclose : motive ')') : ∀ symbol ∈ ['=', '(', ')'], motive symbol :=
  List.forall_mem_cons.mpr
    ⟨hequals, List.forall_mem_cons.mpr ⟨hopen, List.forall_mem_singleton.mpr hclose⟩⟩

theorem Kind.unclaimed_of_ofText {text : List Char} (h : ofText text = .unrecognized) :
    Unclaimed text := by
  have hword : keyword? (String.ofList text) = none := by
    cases hword : keyword? (String.ofList text) with
    | none => rfl
    | some kind =>
      rw [ofText, hword] at h
      obtain ⟨-, hkind⟩ | ⟨-, hkind⟩ | ⟨-, hkind⟩ := (keyword?_eq_some_iff _ _).mp hword
      all_goals cases h.symm.trans hkind
  have hidentifier : isIdentifier text = false := by
    rw [Bool.eq_false_iff]
    intro hidentifier
    rw [ofText, hword, if_pos hidentifier] at h
    cases h
  have hsymbol : ∀ symbol ∈ ['=', '(', ')'], ofText [symbol] ≠ .unrecognized :=
    forall_mem_symbols (by decide) (by decide) (by decide)
  refine ⟨hword, hidentifier, ?_⟩
  rintro symbol hmem rfl
  exact hsymbol symbol hmem h

theorem Text.unclaimed_singleton {c : Char} (halpha : c.isAlpha = false)
    (hc : c ∉ ['=', '(', ')']) : Unclaimed [c] where
  keyword?_eq := Carving.keyword?_eq_none halpha []
  isIdentifier_eq := by rw [isIdentifier, halpha, Bool.false_and]
  symbol_ne := by
    rintro symbol hmem heq
    exact hc (List.head_eq_of_cons_eq heq ▸ hmem)

/-- What is not recognized is a single character that is neither a letter nor a symbol, or a run
that was looked up among the words and symbols in vain. -/
theorem Mode.Takes.unclaimed {mode : Mode} {text rest : List Char}
    (h : mode.Takes text rest .unrecognized) : Unclaimed text := by
  have hshape := takes_iff_shape.mp h
  generalize hkind : Kind.unrecognized = kind at hshape
  cases hshape with
  | space | assignment | openParen | closeParen | openComment | closeComment | number => cases hkind
  | lone hc =>
    obtain rfl | rfl := hc
    all_goals exact unclaimed_singleton rfl (by decide)
  | word =>
    have hrun := Kind.isRun_ofWord text
    rw [← hkind] at hrun
    cases hrun
  | @glued c _ hc =>
    refine unclaimed_singleton (isAlpha_eq_false_of_isDigit hc) fun hmem => ?_
    have hsymbol : ∀ symbol ∈ ['=', '(', ')'], symbol.isDigit = false :=
      forall_mem_symbols (by decide) (by decide) (by decide)
    rw [hsymbol c hmem] at hc
    cases hc
  | @stray c _ _ halpha _ hstop =>
    refine unclaimed_singleton halpha fun hmem => ?_
    have hsymbol : ∀ symbol ∈ ['=', '(', ')'], isStop symbol = true :=
      forall_mem_symbols (by decide) (by decide) (by decide)
    rw [hsymbol c hmem] at hstop
    cases hstop
  | run => exact Kind.unclaimed_of_ofText hkind.symm

theorem Lexeme.justified_of_analyze {mode : Mode} {source : String} {lexemes : List Lexeme}
    (h : analyze mode source = .ok lexemes) : ∀ lexeme ∈ lexemes, lexeme.Justified := by
  intro lexeme hlexeme
  obtain ⟨hmem, hshown⟩ := mem_cut_of_analyze h hlexeme
  obtain ⟨rest, htakes⟩ := takes_of_mem_cut hmem
  refine ⟨hshown, htakes.fits, ?_, htakes.isBlank_eq_false ?_⟩
  · intro hkind
    rw [hkind] at htakes
    exact htakes.unclaimed
  · intro hkind
    rw [hkind] at hshown
    cases hshown

namespace Statement

/-- The source text of a statement, as it stands in the comment above its instructions. -/
def comment : Statement → String
  | assignment target expression => target ++ " = " ++ expression.source
  | output expression => "print(" ++ expression.source ++ ")"

def height : Statement → Nat
  | assignment _ _ => 3
  | output _ => 5

/-- The lines of a statement: a comment with its source text, and then instructions. -/
structure Lists (statement : Statement) (lines : List (List Char)) : Prop where
  length_eq : lines.length = statement.height
  head?_eq : lines.head? = some ("# " ++ statement.comment).toList
  tail_code : ∀ line ∈ lines.tail,
    ∃ instruction, line = (Assembly.Line.code instruction).text.toList
  tail_head? : ∀ line ∈ lines.tail, line.head? ≠ some '#'

end Statement

namespace Assembly

theorem head?_code (instruction : Instruction) :
    (Line.code instruction).text.toList.head? = some ' ' := by
  simp [Line.text]

theorem lists_of_code {statement : Statement} (instructions : List Instruction)
    (h : instructions.length + 1 = statement.height) :
    statement.Lists
      ((Line.comment statement.comment :: instructions.map Line.code).map fun line =>
        line.text.toList) where
  length_eq := by simpa using h
  head?_eq := rfl
  tail_code := by
    intro line hline
    obtain ⟨_, hcode, rfl⟩ := List.mem_map.mp hline
    obtain ⟨instruction, _, rfl⟩ := List.mem_map.mp hcode
    exact ⟨instruction, rfl⟩
  tail_head? := by
    intro line hline
    obtain ⟨_, hcode, rfl⟩ := List.mem_map.mp hline
    obtain ⟨instruction, _, rfl⟩ := List.mem_map.mp hcode
    rw [head?_code]
    decide

theorem exists_blocks (slots : Slots) (statements : List Statement) :
    ∃ blocks : List (List (List Char)),
      (compile slots statements).2.map (fun line => line.text.toList) = blocks.flatten ∧
      List.Forall₂ Statement.Lists statements blocks := by
  induction statements generalizing slots with
  | nil => exact ⟨[], rfl, .nil⟩
  | cons statement rest ih =>
    cases statement with
    | assignment target expression =>
      obtain ⟨blocks, hlines, hblocks⟩ := ih (slots.allocate target)
      have hfirst : (Statement.assignment target expression).Lists _ :=
        lists_of_code [.load .eax (.ofExpression (slots.allocate target) expression),
          .store ((slots.allocate target).address target)] rfl
      exact ⟨_, by rw [compile, List.map_append, hlines]; rfl, .cons hfirst hblocks⟩
    | output expression =>
      obtain ⟨blocks, hlines, hblocks⟩ := ih slots
      have hfirst : (Statement.output expression).Lists _ :=
        lists_of_code [.load .esi (.ofExpression slots expression), .loadFormat,
          .load .eax (.immediate 0), .callPrint] rfl
      exact ⟨_, by rw [compile, List.map_append, hlines]; rfl, .cons hfirst hblocks⟩

end Assembly

namespace Program

open Assembly

/-- Cut at the line feeds, the listing is a fixed opening, the lines of each statement in order and
a fixed closing. -/
def Listed (program : Program) : Prop :=
  ∃ blocks : List (List (List Char)),
    program.assembly.toList.splitOn '\n' =
      (prologue program.frameSize).map (fun line => line.text.toList) ++ blocks.flatten ++
        epilogue.map (fun line => line.text.toList) ++ [[]] ∧
    List.Forall₂ Statement.Lists program.statements blocks

theorem listed_of_unbroken {program : Program} (h : program.Unbroken) : program.Listed := by
  obtain ⟨blocks, hlines, hblocks⟩ := exists_blocks .empty program.statements
  refine ⟨blocks, ?_, hblocks⟩
  rw [assembly, splitOn_listing (readsBack_lines h), lines, List.map_append, List.map_append,
    hlines]

/-- In either mode every lexeme of a source has the kind that its text justifies. The names and
literals of a program that the source spells are therefore words and numbers, and its listing has
source text nowhere but in the comment above each statement. -/
theorem justified_source (mode : Mode) (source : String) :
    ∃ lexemes, Lexeme.analyze mode source = .ok lexemes ∧
      (∀ lexeme ∈ lexemes, lexeme.Justified) ∧
      ∀ program, ofSource mode source = .ok program → program.Proper ∧ program.Listed := by
  obtain ⟨lexemes, hlexemes⟩ := Lexeme.exists_analyze_eq_ok mode source
  refine ⟨lexemes, hlexemes, Lexeme.justified_of_analyze hlexemes, ?_⟩
  intro program hprogram
  exact ⟨proper_of_ofSource hprogram, listed_of_unbroken (unbroken_of_ofSource hprogram)⟩

end Program

end StraightLine
