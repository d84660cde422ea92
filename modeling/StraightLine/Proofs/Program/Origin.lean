import StraightLine.Proofs.Program
import StraightLine.Program.Evaluation
import Mathlib.Logic.Function.Basic

/-!
# Origins of values

Every value of a compiled program is either a word that the source determines
or what some slot held before the program began. A slot is given out before
the right-hand side is read, so the second kind enters where a name is first
assigned to itself, and nowhere else. With zero in the place of these
leftovers the origins are worth what the program computes.
-/

namespace StraightLine

inductive Origin
  | word (value : Int32)
  | leftover (name : String)
  deriving DecidableEq, Inhabited, Repr

def Origin.read (leftovers : String → Int32) : Origin → Int32
  | word value => value
  | leftover name => leftovers name

abbrev Origins := String → Option Origin

def Expression.origin (origins : Origins) : Expression → Origin
  | identifier name => (origins name).getD (.word 0)
  | number literal => .word (Decimal.literal literal)

namespace Origins

def empty : Origins := fun _ => none

/-- A fresh slot holds what was there before. -/
def reserve (origins : Origins) (name : String) : Origins :=
  Function.update origins name (some ((origins name).getD (.leftover name)))

def assign (origins : Origins) (target : String) (expression : Expression) : Origins :=
  Function.update origins target (some (expression.origin (origins.reserve target)))

/-- A name whose first assignment is still ahead, and is to the name itself. -/
structure Pending (origins : Origins) (statements : List Statement) (name : String) : Prop where
  fresh : origins name = none
  first : statements.findSome? (Statement.given? name) = some (.identifier name)

variable {origins : Origins} {rest : List Statement}

theorem Pending.of_output {expression : Expression} {name : String}
    (h : Pending origins rest name) : Pending origins (.output expression :: rest) name :=
  ⟨h.fresh, h.first⟩

theorem Pending.of_assign {target name : String} {expression : Expression}
    (h : Pending (origins.assign target expression) rest name) :
    Pending origins (.assignment target expression :: rest) name := by
  have hne : name ≠ target := by
    rintro rfl
    have hfresh := h.fresh
    rw [assign, Function.update_self] at hfresh
    cases hfresh
  have hfresh := h.fresh
  rw [assign, Function.update_of_ne hne] at hfresh
  refine ⟨hfresh, ?_⟩
  rw [List.findSome?_cons, Statement.given?, if_neg hne.symm]
  exact h.first

/-- Reading after the slot is given out differs from reading before only where a fresh name is
assigned to itself. -/
theorem origin_reserve (rest : List Statement) (target : String) (expression : Expression) :
    expression.origin (origins.reserve target) = expression.origin origins ∨
      Pending origins (.assignment target expression :: rest) target ∧
        expression = .identifier target ∧
        expression.origin (origins.reserve target) = .leftover target := by
  cases expression with
  | number literal => exact .inl rfl
  | identifier name =>
    rw [Expression.origin, Expression.origin, reserve]
    rcases eq_or_ne name target with rfl | hne
    · rw [Function.update_self, Option.getD_some]
      cases hname : origins name with
      | none =>
        refine .inr ⟨⟨hname, ?_⟩, rfl, rfl⟩
        rw [List.findSome?_cons, Statement.given?, if_pos rfl]
      | some origin => exact .inl rfl
    · rw [Function.update_of_ne hne]
      exact .inl rfl

end Origins

namespace Statement

open Origins

def trace (origins : Origins) : List Statement → Origins × List Origin
  | [] => (origins, [])
  | assignment target expression :: rest => trace (origins.assign target expression) rest
  | output expression :: rest =>
    let (final, printed) := trace origins rest
    (final, expression.origin origins :: printed)

def Agree (leftovers : String → Int32) (origins : Origins) (store : Store) : Prop :=
  ∀ name, store.value? name = (origins name).map (Origin.read leftovers)

variable {leftovers : String → Int32} {origins : Origins} {store : Store}

theorem value_of_agree (h : Agree leftovers origins store) (expression : Expression) :
    expression.value store = (expression.origin origins).read leftovers := by
  cases expression with
  | number literal => rfl
  | identifier name =>
    rw [Expression.value, Expression.origin, h name]
    cases origins name <;> rfl

theorem agree_assign {target : String} {expression : Expression} {rest : List Statement}
    (h : Agree leftovers origins store)
    (hzero : ∀ name, Pending origins (.assignment target expression :: rest) name →
      leftovers name = 0) :
    Agree leftovers (origins.assign target expression)
      (store.set target (expression.value store)) := by
  have hvalue : expression.value store =
      (expression.origin (origins.reserve target)).read leftovers := by
    obtain heq | ⟨hpending, hself, heq⟩ := origin_reserve rest target expression
    · rw [heq, value_of_agree h]
    · rw [heq, Origin.read, hzero target hpending, hself, Expression.value, h target,
        hpending.fresh]
      rfl
  intro name
  rw [Store.value?_set, assign]
  rcases eq_or_ne name target with rfl | hne
  · rw [if_pos rfl, Function.update_self, hvalue]
    rfl
  · rw [if_neg hne, Function.update_of_ne hne]
    exact h name

/-- Running statements computes what their origins are worth, if every name that is still to be
assigned to itself has zero left over in its slot. -/
theorem run_of_agree {statements : List Statement} (h : Agree leftovers origins store)
    (hzero : ∀ name, Pending origins statements name → leftovers name = 0) :
    Agree leftovers (trace origins statements).1 (run store statements).1 ∧
      (run store statements).2 = (trace origins statements).2.map (Origin.read leftovers) := by
  induction statements generalizing origins store with
  | nil => exact ⟨h, rfl⟩
  | cons statement rest ih =>
    cases statement with
    | assignment target expression =>
      apply ih (agree_assign h hzero)
      intro name hname
      exact hzero name hname.of_assign
    | output expression =>
      obtain ⟨hfinal, hprinted⟩ := ih h fun name hname => hzero name hname.of_output
      refine ⟨hfinal, ?_⟩
      exact congrArg₂ List.cons (value_of_agree h expression) hprinted

def LeftoversIn (allowed : String → Prop) (origins : Origins) : Prop :=
  ∀ name other, origins name = some (.leftover other) → allowed other

variable {allowed : String → Prop}

theorem allowed_of_origin (h : LeftoversIn allowed origins) {expression : Expression}
    {other : String} (horigin : expression.origin origins = .leftover other) : allowed other := by
  cases expression with
  | number literal => cases horigin
  | identifier name =>
    rw [Expression.origin] at horigin
    cases hname : origins name with
    | none =>
      rw [hname] at horigin
      cases horigin
    | some origin =>
      rw [hname] at horigin
      exact h name other (hname.trans (congrArg some horigin))

theorem leftoversIn_assign {target : String} {expression : Expression} {rest : List Statement}
    (h : LeftoversIn allowed origins)
    (hpending : ∀ name, Pending origins (.assignment target expression :: rest) name →
      allowed name) :
    LeftoversIn allowed (origins.assign target expression) := by
  intro name other hother
  rw [assign] at hother
  rcases eq_or_ne name target with rfl | hne
  · rw [Function.update_self] at hother
    have horigin := Option.some_inj.mp hother
    obtain heq | ⟨hname, _, heq⟩ := origin_reserve rest name expression
    · exact allowed_of_origin h (heq.symm.trans horigin)
    · rw [heq] at horigin
      cases horigin
      exact hpending name hname
  · rw [Function.update_of_ne hne] at hother
    exact h name other hother

theorem allowed_of_mem_trace {statements : List Statement} (h : LeftoversIn allowed origins)
    (hpending : ∀ name, Pending origins statements name → allowed name) {other : String}
    (hmem : .leftover other ∈ (trace origins statements).2) : allowed other := by
  induction statements generalizing origins with
  | nil => cases hmem
  | cons statement rest ih =>
    cases statement with
    | assignment target expression =>
      apply ih (leftoversIn_assign h hpending) _ hmem
      intro name hname
      exact hpending name hname.of_assign
    | output expression =>
      rcases List.mem_cons.mp hmem with horigin | hmem
      · exact allowed_of_origin h horigin.symm
      · exact ih h (fun name hname => hpending name hname.of_output) hmem

end Statement

namespace Program

open Statement

def finalOrigins (program : Program) : Origins :=
  (trace .empty program.statements).1

def printedOrigins (program : Program) : List Origin :=
  (trace .empty program.statements).2

/-- The names of which the program prints what their slots held before it began. -/
def leftovers (program : Program) : List String :=
  program.printedOrigins.filterMap fun
    | .word _ => none
    | .leftover name => some name

theorem mem_leftovers_iff (program : Program) (name : String) :
    name ∈ program.leftovers ↔ .leftover name ∈ program.printedOrigins := by
  rw [leftovers, List.mem_filterMap]
  constructor
  · rintro ⟨origin, horigin, hname⟩
    cases origin with
    | word value => cases hname
    | leftover other =>
      cases hname
      exact horigin
  · intro h
    exact ⟨_, h, rfl⟩

/-- Only a name whose first assignment is to itself is ever printed as it was left over. -/
theorem firstGiven?_of_mem_leftovers {program : Program} {name : String}
    (h : name ∈ program.leftovers) : program.firstGiven? name = some (.identifier name) := by
  have hempty : LeftoversIn (fun other => program.firstGiven? other = some (.identifier other))
      .empty := by
    intro _ _ hnone
    cases hnone
  exact allowed_of_mem_trace hempty (fun _ hpending => hpending.first)
    ((mem_leftovers_iff program name).mp h)

theorem agree_finalStore {program : Program} {leftovers : String → Int32}
    (h : ∀ name, program.firstGiven? name = some (.identifier name) → leftovers name = 0) :
    Agree leftovers program.finalOrigins program.finalStore ∧
      program.printed = program.printedOrigins.map (Origin.read leftovers) := by
  apply run_of_agree
  · intro name
    rfl
  · intro name hpending
    exact h name hpending.first

end Program

end StraightLine
