/-!
# Programs

A program is a list of statements. Literals keep the text they were written
with; what they are worth is for those who use them to say.
-/

namespace StraightLine

inductive Expression
  | identifier (name : String)
  | number (literal : String)
  deriving DecidableEq, Inhabited, Repr

def Expression.source : Expression → String
  | identifier name => name
  | number literal => literal

inductive Statement
  | assignment (target : String) (expression : Expression)
  | output (expression : Expression)
  deriving DecidableEq, Inhabited, Repr

def Statement.target? : Statement → Option String
  | assignment target _ => some target
  | output _ => none

structure Program where
  statements : List Statement
  deriving DecidableEq, Inhabited, Repr

namespace Program

def empty : Program :=
  ⟨[]⟩

/-- Adds a name at the end unless it is there. -/
def enlist (names : List String) (name : String) : List String :=
  if name ∈ names then names else names ++ [name]

theorem mem_enlist_iff (names : List String) (name other : String) :
    other ∈ enlist names name ↔ other ∈ names ∨ other = name := by
  grind [enlist]

theorem nodup_enlist {names : List String} (h : names.Nodup) (name : String) :
    (enlist names name).Nodup := by
  rw [enlist]
  split
  · exact h
  · rw [List.nodup_append]
    exact ⟨h, by simp, by grind⟩

/-- The names that statements assign to, in order of first assignment, after the given names. -/
def assignedAfter (names : List String) (statements : List Statement) : List String :=
  (statements.filterMap Statement.target?).foldl enlist names

def assigned (program : Program) : List String :=
  assignedAfter [] program.statements

theorem nodup_assignedAfter {names : List String} (h : names.Nodup)
    (statements : List Statement) : (assignedAfter names statements).Nodup := by
  rw [assignedAfter]
  induction statements.filterMap Statement.target? generalizing names with
  | nil => exact h
  | cons name rest ih => exact ih (nodup_enlist h name)

theorem mem_assignedAfter_iff (names : List String) (statements : List Statement)
    (name : String) :
    name ∈ assignedAfter names statements ↔
      name ∈ names ∨ ∃ statement ∈ statements, statement.target? = some name := by
  rw [assignedAfter, ← List.mem_filterMap]
  induction statements.filterMap Statement.target? generalizing names with
  | nil => simp
  | cons target rest ih =>
    rw [List.foldl_cons, ih, mem_enlist_iff, List.mem_cons]
    exact or_assoc

end Program

end StraightLine
