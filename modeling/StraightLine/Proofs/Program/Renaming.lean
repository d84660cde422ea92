import StraightLine.Proofs.Machine.Refinement
import StraightLine.Proofs.Tools
import Mathlib.Data.Set.Function

/-!
# Renaming variables

Names are only ever compared with each other. A renaming under which different
names stay different therefore leaves all comparisons as they are: each name
has its old value and its old slot under the new name. What is printed and what
is translated is the same, apart from the source texts in the comments.
-/

namespace StraightLine

namespace Expression

def names : Expression → List String
  | identifier name => [name]
  | number _ => []

def rename (new : String → String) : Expression → Expression
  | identifier name => .identifier (new name)
  | number literal => .number literal

end Expression

namespace Statement

def names : Statement → List String
  | assignment target expression => target :: expression.names
  | output expression => expression.names

def rename (new : String → String) : Statement → Statement
  | assignment target expression => .assignment (new target) (expression.rename new)
  | output expression => .output (expression.rename new)

end Statement

namespace Program

/-- The names that are assigned to or read. -/
def names (program : Program) : List String :=
  program.statements.flatMap Statement.names

/-- The program with new names. Literals stay as they are. -/
def rename (program : Program) (new : String → String) : Program :=
  ⟨program.statements.map (Statement.rename new)⟩

end Program

variable {new : String → String} {domain : Set String} {statements : List Statement}

theorem Expression.newline_not_mem_rename {expression : Expression}
    (hnew : ∀ name ∈ expression.names, '\n' ∉ (new name).toList)
    (h : '\n' ∉ expression.source.toList) : '\n' ∉ (expression.rename new).source.toList := by
  cases expression with
  | identifier name => exact hnew name List.mem_cons_self
  | number literal => exact h

theorem Statement.newline_not_mem_rename {statement : Statement}
    (hnew : ∀ name ∈ statement.names, '\n' ∉ (new name).toList)
    (h : ∀ text ∈ statement.texts, '\n' ∉ text.toList) :
    ∀ text ∈ (statement.rename new).texts, '\n' ∉ text.toList := by
  cases statement with
  | assignment target expression =>
    rw [texts, List.forall_mem_cons, List.forall_mem_singleton] at h
    rw [names, List.forall_mem_cons] at hnew
    rw [rename, texts, List.forall_mem_cons, List.forall_mem_singleton]
    exact ⟨hnew.1, Expression.newline_not_mem_rename hnew.2 h.2⟩
  | output expression =>
    rw [texts, List.forall_mem_singleton] at h
    rw [rename, texts, List.forall_mem_singleton]
    exact Expression.newline_not_mem_rename hnew h

/-! ### Values -/

namespace Store

/-- The names have the same values in one store as they have under their new names in the other. -/
def Renamed (new : String → String) (domain : Set String) (store other : Store) : Prop :=
  ∀ name ∈ domain, other.value? (new name) = store.value? name

variable {store other : Store}

theorem Renamed.set (h : Renamed new domain store other) (hinjective : Set.InjOn new domain)
    {target : String} (htarget : target ∈ domain) (value : Int32) :
    Renamed new domain (store.set target value) (other.set (new target) value) := by
  intro name hname
  simp only [value?_set, hinjective.eq_iff hname htarget, h name hname]

theorem Renamed.value_eq (h : Renamed new domain store other) {expression : Expression}
    (hnames : ∀ name ∈ expression.names, name ∈ domain) :
    (expression.rename new).value other = expression.value store := by
  cases expression with
  | number literal => rfl
  | identifier name =>
    have hvalue := h name (hnames name List.mem_cons_self)
    exact congrArg (Option.getD · 0) hvalue

/-- Runs of statements under old and new names go on side by side. -/
theorem Renamed.run (h : Renamed new domain store other)
    (hinjective : Set.InjOn new domain)
    (hnames : ∀ name ∈ statements.flatMap Statement.names, name ∈ domain) :
    Renamed new domain (Statement.run store statements).1
        (Statement.run other (statements.map (Statement.rename new))).1 ∧
      (Statement.run other (statements.map (Statement.rename new))).2 =
        (Statement.run store statements).2 := by
  induction statements generalizing store other with
  | nil => exact ⟨h, rfl⟩
  | cons statement rest ih =>
    rw [List.flatMap_cons, List.forall_mem_append] at hnames
    obtain ⟨hfirst, hrest⟩ := hnames
    cases statement with
    | assignment target expression =>
      obtain ⟨htarget, hexpression⟩ := List.forall_mem_cons.mp hfirst
      rw [List.map_cons, Statement.rename, Statement.run, Statement.run, h.value_eq hexpression]
      exact ih (h.set hinjective htarget _) hrest
    | output expression =>
      obtain ⟨hfinal, hprinted⟩ := ih h hrest
      refine ⟨hfinal, ?_⟩
      exact congrArg₂ List.cons (h.value_eq hfirst) hprinted

end Store

/-! ### Slots -/

namespace Assembly

namespace Slots

theorem address_eq_getD (slots : Slots) (name : String) :
    slots.address name = (slots.address? name).getD (4 * (slots.names.length + 1)) := by
  rw [address?, address]
  split
  · rfl
  · rename_i hmem
    rw [List.idxOf_eq_length hmem]
    rfl

theorem length_names_allocate (slots : Slots) (name : String) :
    (slots.allocate name).names.length =
      if (slots.address? name).isSome then slots.names.length else slots.names.length + 1 := by
  rw [allocate, Program.enlist, address?]
  split
  · rfl
  · simp

/-- As many names have slots on both sides, and each the same as under its new name. -/
structure Renamed (new : String → String) (domain : Set String) (slots other : Slots) :
    Prop where
  length_eq : other.names.length = slots.names.length
  address?_eq : ∀ name ∈ domain, other.address? (new name) = slots.address? name

variable {slots other : Slots} {target : String}

theorem Renamed.address_eq (h : Renamed new domain slots other) (htarget : target ∈ domain) :
    other.address (new target) = slots.address target := by
  rw [address_eq_getD, address_eq_getD, h.address?_eq target htarget, h.length_eq]

theorem Renamed.allocate (h : Renamed new domain slots other)
    (hinjective : Set.InjOn new domain) (htarget : target ∈ domain) :
    Renamed new domain (slots.allocate target) (other.allocate (new target)) where
  length_eq := by
    rw [length_names_allocate, length_names_allocate, h.address?_eq target htarget, h.length_eq]
  address?_eq := by
    intro name hname
    rcases eq_or_ne name target with rfl | hne
    · rw [address?_allocate_self, address?_allocate_self, h.address_eq hname]
    · have hother : new name ≠ new target := mt (hinjective hname htarget) hne
      rw [address?_allocate_of_ne hne, address?_allocate_of_ne hother, h.address?_eq name hname]

theorem Renamed.operand_eq (h : Renamed new domain slots other) {expression : Expression}
    (hnames : ∀ name ∈ expression.names, name ∈ domain) :
    Operand.ofExpression other (expression.rename new) =
      Operand.ofExpression slots expression := by
  cases expression with
  | number literal => rfl
  | identifier name =>
    rw [Expression.rename, Operand.ofExpression, Operand.ofExpression,
      h.address?_eq name (hnames name List.mem_cons_self)]

end Slots

/-! ### Listings -/

/-- The lines are the same, or both are comments. -/
def Alike (line other : List Char) : Prop :=
  line = other ∨ line.head? = some '#' ∧ other.head? = some '#'

def Line.Alike (line other : Line) : Prop :=
  Assembly.Alike line.text.toList other.text.toList

theorem Line.alike_comment (text other : String) : Alike (comment text) (comment other) := by
  right
  simp [Line.text]

theorem forall₂_alike_self (lines : List Line) : List.Forall₂ Line.Alike lines lines :=
  List.forall₂_same.mpr fun _ _ => .inl rfl

variable {slots other : Slots}

theorem forall₂_alike_assignmentLines (h : slots.Renamed new domain other) {target : String}
    {expression : Expression} (htarget : target ∈ domain)
    (hexpression : ∀ name ∈ expression.names, name ∈ domain) :
    List.Forall₂ Line.Alike (assignmentLines slots target expression)
      (assignmentLines other (new target) (expression.rename new)) := by
  rw [assignmentLines, assignmentLines, h.operand_eq hexpression, h.address_eq htarget]
  exact .cons (Line.alike_comment _ _) (forall₂_alike_self _)

theorem forall₂_alike_outputLines (h : slots.Renamed new domain other) {expression : Expression}
    (hexpression : ∀ name ∈ expression.names, name ∈ domain) :
    List.Forall₂ Line.Alike (outputLines slots expression)
      (outputLines other (expression.rename new)) := by
  rw [outputLines, outputLines, h.operand_eq hexpression]
  exact .cons (Line.alike_comment _ _) (forall₂_alike_self _)

/-- Translations of statements under old and new names go on side by side. -/
theorem Slots.Renamed.compile (h : slots.Renamed new domain other)
    (hinjective : Set.InjOn new domain)
    (hnames : ∀ name ∈ statements.flatMap Statement.names, name ∈ domain) :
    (compile slots statements).1.Renamed new domain
        (compile other (statements.map (Statement.rename new))).1 ∧
      List.Forall₂ Line.Alike (compile slots statements).2
        (compile other (statements.map (Statement.rename new))).2 := by
  induction statements generalizing slots other with
  | nil => exact ⟨h, .nil⟩
  | cons statement rest ih =>
    rw [List.flatMap_cons, List.forall_mem_append] at hnames
    obtain ⟨hfirst, hrest⟩ := hnames
    cases statement with
    | assignment target expression =>
      obtain ⟨htarget, hexpression⟩ := List.forall_mem_cons.mp hfirst
      -- on both sides the target has its slot before its expression is looked up
      have hallocate := h.allocate hinjective htarget
      obtain ⟨hfinal, hlines⟩ := ih hallocate hrest
      exact ⟨hfinal,
        List.rel_append (forall₂_alike_assignmentLines hallocate htarget hexpression) hlines⟩
    | output expression =>
      obtain ⟨hfinal, hlines⟩ := ih h hrest
      exact ⟨hfinal, List.rel_append (forall₂_alike_outputLines h hfirst) hlines⟩

/-- Two listings without broken lines are alike line by line if their lines are. -/
theorem forall₂_alike_splitOn {first second : List Line}
    (hfirst : ∀ line ∈ first, line.ReadsBack) (hsecond : ∀ line ∈ second, line.ReadsBack)
    (h : List.Forall₂ Line.Alike first second) :
    List.Forall₂ Alike ((listing first).toList.splitOn '\n')
      ((listing second).toList.splitOn '\n') := by
  rw [splitOn_listing hfirst, splitOn_listing hsecond]
  refine List.rel_append ?_ (.cons (.inl rfl) .nil)
  rw [List.forall₂_map_left_iff, List.forall₂_map_right_iff]
  exact h

end Assembly

namespace Program

open Assembly

variable {program : Program}

theorem renamed_finalStore (hnames : ∀ name ∈ program.names, name ∈ domain)
    (hinjective : Set.InjOn new domain) :
    program.finalStore.Renamed new domain (program.rename new).finalStore ∧
      (program.rename new).printed = program.printed := by
  have hempty : Store.empty.Renamed new domain .empty := fun _ _ => rfl
  exact hempty.run hinjective hnames

theorem renamed_slots (hnames : ∀ name ∈ program.names, name ∈ domain)
    (hinjective : Set.InjOn new domain) :
    program.slots.Renamed new domain (program.rename new).slots ∧
      List.Forall₂ Line.Alike (compile .empty program.statements).2
        (compile .empty (program.rename new).statements).2 := by
  have hempty : Slots.empty.Renamed new domain .empty := ⟨rfl, fun _ _ => by simp⟩
  exact hempty.compile hinjective hnames

theorem frameSize_rename (h : program.slots.Renamed new domain (program.rename new).slots) :
    (program.rename new).frameSize = program.frameSize := by
  rw [frameSize, frameSize, ← names_slots, ← names_slots, h.length_eq]

theorem unbroken_rename (h : program.Unbroken) (hnames : ∀ name ∈ program.names, name ∈ domain)
    (hnewline : ∀ name ∈ domain, '\n' ∉ (new name).toList) : (program.rename new).Unbroken := by
  intro statement hstatement
  obtain ⟨old, hold, rfl⟩ := List.mem_map.mp hstatement
  apply Statement.newline_not_mem_rename _ (h old hold)
  intro name hname
  exact hnewline name (hnames name (List.mem_flatMap.mpr ⟨old, hold, hname⟩))

theorem forall₂_alike_lines (hnames : ∀ name ∈ program.names, name ∈ domain)
    (hinjective : Set.InjOn new domain) :
    List.Forall₂ Line.Alike program.lines (program.rename new).lines := by
  obtain ⟨hslots, hbody⟩ := renamed_slots hnames hinjective
  rw [lines, lines, frameSize_rename hslots]
  exact List.rel_append (List.rel_append (forall₂_alike_self _) hbody) (forall₂_alike_self _)

/-- A renaming that keeps different names of its domain different is not noticed. Whatever the tools
did before, a program prints the same and has the same frame under new names, and each name of the
domain has its old value and slot under the new name. Line by line the listings are the same,
comments apart. -/
theorem rename_unnoticed {program : Program} {new : String → String} {domain : Set String}
    (hunbroken : program.Unbroken) (hnames : ∀ name ∈ program.names, name ∈ domain)
    (hinjective : Set.InjOn new domain) (hnewline : ∀ name ∈ domain, '\n' ∉ (new name).toList)
    (runner another : Runner) (translator other : Translator) :
    (another.run (program.rename new)).1 = (runner.run program).1 ∧
    (program.rename new).frameSize = program.frameSize ∧
    (∀ name ∈ domain,
      (other.translate (program.rename new)).2.slots.address? (new name) =
        (translator.translate program).2.slots.address? name) ∧
    (∀ name ∈ domain,
      (another.run (program.rename new)).2.store.value? (new name) =
        (runner.run program).2.store.value? name) ∧
    List.Forall₂ Alike ((translator.translate program).1.toList.splitOn '\n')
      ((other.translate (program.rename new)).1.toList.splitOn '\n') := by
  obtain ⟨hstore, hprinted⟩ := renamed_finalStore hnames hinjective
  obtain ⟨hslots, -⟩ := renamed_slots hnames hinjective
  rw [Runner.run_eq, Runner.run_eq, Translator.translate_eq, Translator.translate_eq]
  refine ⟨?_, frameSize_rename hslots, hslots.address?_eq, hstore, ?_⟩
  · change (program.rename new).output = program.output
    rw [output, output, hprinted]
  · exact forall₂_alike_splitOn (readsBack_lines hunbroken)
      (readsBack_lines (unbroken_rename hunbroken hnames hnewline))
      (forall₂_alike_lines hnames hinjective)

theorem rename_unnoticed_swapped :
    ∃ program, ofSource .scan "start x=2 y=x x=007 print(y) print(z) end" = .ok program ∧
      program.Unbroken ∧ (∀ name ∈ program.names, name ∈ ({"x", "y", "z"} : Set String)) ∧
      Set.InjOn (Equiv.swap "x" "y") {"x", "y", "z"} ∧
      (∀ name ∈ ({"x", "y", "z"} : Set String), '\n' ∉ (Equiv.swap "x" "y" name).toList) ∧
      (Runner.fresh.run (program.rename (Equiv.swap "x" "y"))).1 =
        (Runner.fresh.run program).1 ∧
      (program.rename (Equiv.swap "x" "y")).frameSize = program.frameSize ∧
      (∀ name ∈ ({"x", "y", "z"} : Set String),
        (Translator.fresh.translate (program.rename (Equiv.swap "x" "y"))).2.slots.address?
            (Equiv.swap "x" "y" name) =
          (Translator.fresh.translate program).2.slots.address? name) ∧
      (∀ name ∈ ({"x", "y", "z"} : Set String),
        (Runner.fresh.run (program.rename (Equiv.swap "x" "y"))).2.store.value?
            (Equiv.swap "x" "y" name) =
          (Runner.fresh.run program).2.store.value? name) ∧
      List.Forall₂ Alike ((Translator.fresh.translate program).1.toList.splitOn '\n')
        ((Translator.fresh.translate (program.rename (Equiv.swap "x" "y"))).1.toList.splitOn
          '\n') := by
  have hread : ofSource .scan "start x=2 y=x x=007 print(y) print(z) end" =
      .ok ⟨[.assignment "x" (.number "2"), .assignment "y" (.identifier "x"),
        .assignment "x" (.number "007"), .output (.identifier "y"), .output (.identifier "z")]⟩ := by
    decide +kernel
  have hunbroken := unbroken_of_ofSource hread
  have hnames : ∀ name ∈ ["x", "y", "x", "x", "y", "z"],
      name ∈ ({"x", "y", "z"} : Set String) := by
    simp
  have hinjective : Set.InjOn (Equiv.swap "x" "y") {"x", "y", "z"} :=
    (Equiv.swap "x" "y").injective.injOn
  have hnewline : ∀ name ∈ ({"x", "y", "z"} : Set String),
      '\n' ∉ (Equiv.swap "x" "y" name).toList := by
    rintro name (rfl | rfl | rfl) <;> decide
  exact ⟨_, hread, hunbroken, hnames, hinjective, hnewline,
    rename_unnoticed hunbroken hnames hinjective hnewline .fresh .fresh .fresh .fresh⟩

end Program

end StraightLine
