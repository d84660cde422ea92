import StraightLine.Proofs.Decimal
import StraightLine.Proofs.Program
import StraightLine.Proofs.Tools

/-!
# Values by looking back

What an expression is worth at a place in a program can be found without
running anything: a name is worth what the last assignment to it in front of
the place gave it, and that is an expression at an earlier place. A run keeps
in its store, for each name, just what looking back from there finds. So it
prints the value of every printed expression at its place.
-/

namespace StraightLine

namespace Program

/-- The last of the statements in front of a place that assigns to a name: its own place, and the
right-hand side. -/
def latest? (program : Program) (name : String) : Nat → Option (Nat × Expression)
  | 0 => none
  | place + 1 =>
    match program.statements[place]? with
    | some (.assignment target expression) =>
      if target = name then some (place, expression) else latest? program name place
    | _ => latest? program name place

variable {program : Program} {name : String} {place : Nat}

theorem latest?_succ_assignment {target : String} {expression : Expression}
    (h : program.statements[place]? = some (.assignment target expression)) (name : String) :
    program.latest? name (place + 1) =
      if target = name then some (place, expression) else program.latest? name place := by
  rw [latest?, h]

theorem latest?_succ_of_ne
    (h : ∀ expression, program.statements[place]? ≠ some (.assignment name expression)) :
    program.latest? name (place + 1) = program.latest? name place := by
  rw [latest?]
  split
  · rename_i target expression hstatement
    rw [if_neg]
    rintro rfl
    exact h expression hstatement
  · rfl

theorem latest?_eq_some_iff {earlier : Nat} {expression : Expression} :
    program.latest? name place = some (earlier, expression) ↔
      earlier < place ∧
      program.statements[earlier]? = some (.assignment name expression) ∧
      ∀ between, earlier < between → between < place →
        ∀ other, program.statements[between]? ≠ some (.assignment name other) := by
  induction place with
  | zero => simp [latest?]
  | succ place ih =>
    by_cases hassigns : ∃ given, program.statements[place]? = some (.assignment name given)
    · obtain ⟨given, hgiven⟩ := hassigns
      rw [latest?_succ_assignment hgiven, if_pos rfl, Option.some_inj, Prod.mk.injEq]
      constructor
      · rintro ⟨rfl, rfl⟩
        exact ⟨Nat.lt_succ_self _, hgiven, fun between hlow hhigh => by omega⟩
      · rintro ⟨hlt, hstatement, hbetween⟩
        have hplace : place = earlier := by
          by_contra hne
          exact hbetween place (by omega) (Nat.lt_succ_self _) given hgiven
        subst hplace
        rw [hgiven] at hstatement
        cases hstatement
        exact ⟨rfl, rfl⟩
    · rw [not_exists] at hassigns
      rw [latest?_succ_of_ne hassigns, ih]
      constructor
      · rintro ⟨hlt, hstatement, hbetween⟩
        refine ⟨by omega, hstatement, fun between hlow hhigh => ?_⟩
        rcases Nat.lt_succ_iff_lt_or_eq.mp hhigh with hhigh | rfl
        · exact hbetween between hlow hhigh
        · exact hassigns
      · rintro ⟨hlt, hstatement, hbetween⟩
        refine ⟨?_, hstatement, fun between hlow hhigh => hbetween between hlow (by omega)⟩
        rcases Nat.lt_succ_iff_lt_or_eq.mp hlt with hlt | rfl
        · exact hlt
        · exact absurd hstatement (hassigns expression)

theorem latest?_eq_none_iff :
    program.latest? name place = none ↔
      ∀ earlier < place, ∀ expression,
        program.statements[earlier]? ≠ some (.assignment name expression) := by
  induction place with
  | zero => simp [latest?]
  | succ place ih =>
    rw [Nat.forall_lt_succ_right]
    by_cases hassigns : ∃ given, program.statements[place]? = some (.assignment name given)
    · obtain ⟨given, hgiven⟩ := hassigns
      rw [latest?_succ_assignment hgiven, if_pos rfl]
      exact iff_of_false nofun fun h => h.2 given hgiven
    · rw [not_exists] at hassigns
      rw [latest?_succ_of_ne hassigns, ih]
      exact (and_iff_left hassigns).symm

theorem isSome_latest?_length_iff :
    (program.latest? name program.statements.length).isSome = true ↔ name ∈ program.assigned := by
  rw [← not_iff_not, Option.not_isSome_iff_eq_none, latest?_eq_none_iff, mem_assigned_iff_exists,
    not_exists]
  constructor
  · intro h expression hmem
    obtain ⟨earlier, hlt, hget⟩ := List.mem_iff_getElem.mp hmem
    exact h earlier hlt expression (List.getElem?_eq_some_iff.mpr ⟨hlt, hget⟩)
  · intro h earlier _ expression hstatement
    exact h expression (List.mem_of_getElem? hstatement)

/-- The value of an expression read at a place: a literal counts modulo 2^32 as a signed word, and a
name as the right-hand side of its last assignment in front of the place, read there. -/
def resolve (program : Program) : Expression → Nat → Int
  | .number literal, _ => Decimal.wrapped (Decimal.written literal.toList)
  | .identifier name, place =>
    match _ : program.latest? name place with
    | some (earlier, expression) => resolve program expression earlier
    | none => 0
termination_by _ place => place
decreasing_by exact (latest?_eq_some_iff.mp ‹_›).1

theorem resolve_number (program : Program) (literal : String) (place : Nat) :
    program.resolve (.number literal) place =
      Decimal.wrapped (Decimal.written literal.toList) := by
  rw [resolve]

theorem resolve_identifier (program : Program) (name : String) (place : Nat) :
    program.resolve (.identifier name) place =
      ((program.latest? name place).map fun given => program.resolve given.2 given.1).getD 0 := by
  rw [resolve]
  split
  · rename_i hlatest
    rw [hlatest]
    rfl
  · rename_i hlatest
    rw [hlatest]
    rfl

/-- The expressions that statements from a place on print, each with its own place. -/
def outputs (place : Nat) : List Statement → List (Expression × Nat)
  | [] => []
  | .assignment _ _ :: rest => outputs (place + 1) rest
  | .output expression :: rest => (expression, place) :: outputs (place + 1) rest

end Program

/-- The store has, for each name, what looking back from the place finds. -/
def Store.Recalls (store : Store) (program : Program) (place : Nat) : Prop :=
  ∀ name, (store.value? name).map Int32.toInt =
    (program.latest? name place).map fun given => program.resolve given.2 given.1

namespace Store.Recalls

variable {store : Store} {program : Program} {place : Nat}

theorem empty (program : Program) : Store.empty.Recalls program 0 := by
  intro name
  rfl

theorem toInt_value (h : store.Recalls program place) (expression : Expression) :
    (expression.value store).toInt = program.resolve expression place := by
  cases expression with
  | number literal =>
    rw [Program.resolve_number]
    exact Decimal.toInt_literal literal
  | identifier name =>
    rw [Program.resolve_identifier, ← h name]
    change ((store.value? name).getD 0).toInt = _
    cases store.value? name with
    | none => rfl
    | some value => rfl

theorem assignment {target : String} {expression : Expression} (h : store.Recalls program place)
    (hstatement : program.statements[place]? = some (.assignment target expression)) :
    (store.set target (expression.value store)).Recalls program (place + 1) := by
  intro name
  rw [value?_set, Program.latest?_succ_assignment hstatement]
  by_cases hname : name = target
  · rw [if_pos hname, if_pos hname.symm, Option.map_some, Option.map_some, h.toInt_value]
  · rw [if_neg hname, if_neg (Ne.symm hname), h name]

theorem output {expression : Expression} (h : store.Recalls program place)
    (hstatement : program.statements[place]? = some (.output expression)) :
    store.Recalls program (place + 1) := by
  intro name
  rw [Program.latest?_succ_of_ne, h name]
  rw [hstatement]
  nofun

/-- From a place on, a run prints what looking back finds, and the store goes on to have it. -/
theorem run {done rest : List Statement} (hprogram : program.statements = done ++ rest)
    (h : store.Recalls program done.length) :
    (Statement.run store rest).1.Recalls program program.statements.length ∧
      (Statement.run store rest).2.map Int32.toInt =
        (Program.outputs done.length rest).map fun (expression, place) =>
          program.resolve expression place := by
  induction rest generalizing done store with
  | nil =>
    rw [hprogram, List.append_nil]
    exact ⟨h, rfl⟩
  | cons statement rest ih =>
    -- looking back needs the whole program, so the induction keeps what is done beside what is left
    have hstatement : program.statements[done.length]? = some statement := by
      rw [hprogram, List.getElem?_append_right le_rfl, Nat.sub_self]
      rfl
    have hnext : program.statements = (done ++ [statement]) ++ rest := by
      rw [hprogram, List.append_assoc]
      rfl
    have hlength : (done ++ [statement]).length = done.length + 1 := List.length_append
    cases statement with
    | assignment target expression =>
      have hrest := ih hnext (hlength ▸ h.assignment hstatement)
      rw [hlength] at hrest
      exact hrest
    | output expression =>
      have hrest := ih hnext (hlength ▸ h.output hstatement)
      rw [hlength] at hrest
      refine ⟨hrest.1, ?_⟩
      change (expression.value store).toInt :: _ = _
      rw [h.toInt_value, hrest.2]
      rfl

end Store.Recalls

namespace Program

/-- Whatever a runner was used for before, a run prints the values that looking back finds for the
printed expressions, in order and each on a line of its own. After the run each name that is
assigned to anywhere has the value that looking back from the end finds, and no other name has one. -/
theorem run_resolves (runner : Runner) (program : Program) :
    (runner.run program).1 =
        String.join ((outputs 0 program.statements).map fun (expression, place) =>
          toString (program.resolve expression place) ++ "\n") ∧
      ∀ name, ((runner.run program).2.store.value? name).map Int32.toInt =
        if name ∈ program.assigned then
          some (program.resolve (.identifier name) program.statements.length)
        else none := by
  obtain ⟨hfinal, hprinted⟩ :=
    Store.Recalls.run (List.nil_append program.statements).symm (Store.Recalls.empty program)
  rw [Runner.run_eq]
  constructor
  · have hlines : program.printed.map (fun value => Decimal.ofValue value ++ "\n") =
        (program.printed.map Int32.toInt).map fun value => toString value ++ "\n" := by
      rw [List.map_map]
      exact List.map_congr_left fun value _ => congrArg (· ++ "\n") (Decimal.ofValue_eq_toString value)
    change String.join _ = _
    rw [hlines]
    change String.join (((Statement.run .empty program.statements).2.map Int32.toInt).map _) = _
    rw [hprinted, List.map_map]
    rfl
  · intro name
    change ((Statement.run .empty program.statements).1.value? name).map Int32.toInt = _
    rw [hfinal name]
    split
    · rename_i hassigned
      obtain ⟨given, hgiven⟩ := Option.isSome_iff_exists.mp (isSome_latest?_length_iff.mpr hassigned)
      rw [resolve_identifier, hgiven]
      rfl
    · rename_i hassigned
      rw [← isSome_latest?_length_iff, Option.not_isSome_iff_eq_none] at hassigned
      rw [hassigned]
      rfl

end Program

end StraightLine
