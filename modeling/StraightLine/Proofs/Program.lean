import StraightLine.Proofs.Grammar.Spelling
import StraightLine.Proofs.Lexeme

/-!
# Texts and assignments of programs

The names and literals of a program that was read from a source are words and
numbers, so none of them is reserved and none breaks a line. A name has a first
assignment just when it is one of the assigned names.
-/

namespace StraightLine

/-- A name is an identifier that is not reserved, and a literal is made of digits. -/
def Expression.Proper : Expression → Prop
  | identifier name => Kind.identifier.Fits name.toList
  | number literal => Kind.number.Fits literal.toList

theorem Expression.newline_not_mem_of_proper {expression : Expression} (h : expression.Proper) :
    '\n' ∉ expression.source.toList := by
  cases expression with
  | identifier name =>
    have hfits : Kind.identifier.Fits name.toList := h
    exact Kind.newline_not_mem_of_fits hfits (.inl rfl)
  | number literal =>
    have hfits : Kind.number.Fits literal.toList := h
    exact Kind.newline_not_mem_of_fits hfits (.inr rfl)

theorem Expression.proper_of_fits {expression : Expression}
    (h : expression.unparse.1.Fits expression.unparse.2.toList) : expression.Proper := by
  cases expression with
  | identifier name => exact h
  | number literal => exact h

namespace Statement

def Proper : Statement → Prop
  | assignment target expression => Kind.identifier.Fits target.toList ∧ expression.Proper
  | output expression => expression.Proper

theorem proper_of_fits {statement : Statement}
    (h : ∀ token ∈ statement.unparse, token.1.isKept = true → token.1.Fits token.2.toList) :
    statement.Proper := by
  have hvalue : ∀ expression : Expression, expression.unparse ∈ statement.unparse →
      expression.Proper := by
    intro expression hmem
    have hkept : expression.unparse.1.isKept = true := by cases expression <;> rfl
    exact Expression.proper_of_fits (h _ hmem hkept)
  cases statement with
  | assignment target expression =>
    exact ⟨h (.identifier, target) List.mem_cons_self rfl,
      hvalue expression (by simp [unparse])⟩
  | output expression => exact hvalue expression (by simp [unparse])

def texts : Statement → List String
  | assignment target expression => [target, expression.source]
  | output expression => [expression.source]

theorem newline_not_mem_of_proper {statement : Statement} (h : statement.Proper) :
    ∀ text ∈ statement.texts, '\n' ∉ text.toList := by
  cases statement with
  | assignment target expression =>
    rw [texts, List.forall_mem_cons, List.forall_mem_singleton]
    exact ⟨Kind.newline_not_mem_of_fits h.1 (.inl rfl), Expression.newline_not_mem_of_proper h.2⟩
  | output expression =>
    rw [texts, List.forall_mem_singleton]
    exact Expression.newline_not_mem_of_proper h

def given? (name : String) : Statement → Option Expression
  | assignment target expression => if target = name then some expression else none
  | output _ => none

theorem isSome_given?_iff (statement : Statement) (name : String) :
    (statement.given? name).isSome = true ↔ statement.target? = some name := by
  cases statement with
  | assignment target expression =>
    rw [given?]
    split <;> simp_all [target?]
  | output expression => simp [given?, target?]

end Statement

theorem Lexeme.exists_bears_of_mem {lexemes : List Lexeme} {tokens : List (Kind × String)}
    (h : List.Forall₂ Bears lexemes tokens) {token : Kind × String} (hmem : token ∈ tokens) :
    ∃ lexeme ∈ lexemes, lexeme.Bears token := by
  induction h with
  | nil => cases hmem
  | @cons lexeme first _ _ hbears _ ih =>
    rcases List.mem_cons.mp hmem with rfl | hmem
    · exact ⟨lexeme, List.mem_cons_self, hbears⟩
    · obtain ⟨other, hother, hbears⟩ := ih hmem
      exact ⟨other, List.mem_cons_of_mem _ hother, hbears⟩

namespace Program

def Proper (program : Program) : Prop :=
  ∀ statement ∈ program.statements, statement.Proper

def Unbroken (program : Program) : Prop :=
  ∀ statement ∈ program.statements, ∀ text ∈ statement.texts, '\n' ∉ text.toList

theorem exists_spells_of_ofSource {mode : Mode} {source : String} {program : Program}
    (h : ofSource mode source = .ok program) :
    ∃ lexemes, Lexeme.analyze mode source = .ok lexemes ∧ Lexeme.Spells lexemes program := by
  obtain ⟨lexemes, hlexemes⟩ := Lexeme.exists_analyze_eq_ok mode source
  rw [ofSource, hlexemes] at h
  exact ⟨lexemes, hlexemes, Stream.spells_of_parse h⟩

theorem proper_of_ofSource {mode : Mode} {source : String} {program : Program}
    (h : ofSource mode source = .ok program) : program.Proper := by
  obtain ⟨lexemes, hlexemes, hspells⟩ := exists_spells_of_ofSource h
  intro statement hstatement
  apply Statement.proper_of_fits
  intro token htoken hkept
  have hmem : token ∈ program.unparse := by
    apply List.mem_append_left
    apply List.mem_cons_of_mem
    exact List.mem_flatMap.mpr ⟨statement, hstatement, htoken⟩
  obtain ⟨lexeme, hlexeme, hbears⟩ := Lexeme.exists_bears_of_mem hspells hmem
  have hfits := Lexeme.fits_of_analyze hlexemes lexeme hlexeme
  rwa [hbears.kind_eq, hbears.source_eq hkept] at hfits

theorem unbroken_of_ofSource {mode : Mode} {source : String} {program : Program}
    (h : ofSource mode source = .ok program) : program.Unbroken := by
  intro statement hstatement
  exact Statement.newline_not_mem_of_proper (proper_of_ofSource h statement hstatement)

theorem mem_assigned_iff_exists (program : Program) (name : String) :
    name ∈ program.assigned ↔
      ∃ expression, Statement.assignment name expression ∈ program.statements := by
  rw [assigned, mem_assignedAfter_iff]
  constructor
  · rintro (hnil | ⟨statement, hmem, htarget⟩)
    · cases hnil
    · cases statement with
      | output expression => cases htarget
      | assignment target expression =>
        cases htarget
        exact ⟨expression, hmem⟩
  · rintro ⟨expression, hmem⟩
    exact .inr ⟨_, hmem, rfl⟩

/-- The right-hand side of the first assignment to a name. -/
def firstGiven? (program : Program) (name : String) : Option Expression :=
  program.statements.findSome? (Statement.given? name)

theorem mem_assigned_iff_isSome_firstGiven? (program : Program) (name : String) :
    name ∈ program.assigned ↔ (program.firstGiven? name).isSome = true := by
  rw [assigned, mem_assignedAfter_iff, firstGiven?, List.isSome_findSome?, List.any_eq_true]
  simp only [List.not_mem_nil, false_or, Statement.isSome_given?_iff]

end Program

end StraightLine
