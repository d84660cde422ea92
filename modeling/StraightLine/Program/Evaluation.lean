import StraightLine.Program
import StraightLine.Text.Decimal

/-!
# Running a program

Statements run in order on a store of signed words. A name that has not been
assigned to reads as zero, and every run begins with an empty store.
-/

namespace StraightLine

/-- What each name was given, the latest first. -/
structure Store where
  entries : List (String × Int32)
  deriving DecidableEq, Inhabited, Repr

namespace Store

def empty : Store :=
  ⟨[]⟩

def value? (store : Store) (name : String) : Option Int32 :=
  store.entries.lookup name

def set (store : Store) (name : String) (value : Int32) : Store :=
  ⟨(name, value) :: store.entries⟩

@[simp] theorem value?_empty (name : String) : empty.value? name = none := rfl

theorem value?_set (store : Store) (name other : String) (value : Int32) :
    (store.set name value).value? other =
      if other = name then some value else store.value? other := by
  simp only [value?, set, List.lookup_cons]
  split <;> simp_all

end Store

def Expression.value (store : Store) : Expression → Int32
  | identifier name => (store.value? name).getD 0
  | number literal => Decimal.literal literal

namespace Statement

/-- The store after the statements, and the values they print, in order. -/
def run (store : Store) : List Statement → Store × List Int32
  | [] => (store, [])
  | assignment target expression :: rest =>
    run (store.set target (expression.value store)) rest
  | output expression :: rest =>
    let (final, printed) := run store rest
    (final, expression.value store :: printed)

theorem run_append (store : Store) (first second : List Statement) :
    run store (first ++ second) =
      ((run (run store first).1 second).1,
        (run store first).2 ++ (run (run store first).1 second).2) := by
  induction first generalizing store with
  | nil => rfl
  | cons statement rest ih => cases statement <;> simp [run, ih]

end Statement

namespace Program

def printed (program : Program) : List Int32 :=
  (Statement.run .empty program.statements).2

def finalStore (program : Program) : Store :=
  (Statement.run .empty program.statements).1

/-- What the program prints: each value in decimal, on a line of its own. -/
def output (program : Program) : String :=
  String.join (program.printed.map fun value => Decimal.ofValue value ++ "\n")

end Program

end StraightLine
