import StraightLine.Proofs.Machine.Refinement

/-!
# Dependence on the stack

What a listing prints depends on what the stack held before only through the
slots of names that are assigned to themselves first. Which of these slots
matter can be told from the program, and each of them does.
-/

namespace StraightLine.Machine

open Assembly

theorem splitOn_join_ofValue {α : Type} (read : α → Int32) (values : List α) :
    (String.join (values.map fun value => Decimal.ofValue (read value) ++ "\n")).toList.splitOn
      '\n' = values.map (fun value => (Decimal.ofValue (read value)).toList) ++ [[]] := by
  have hunbroken : ∀ text ∈ values.map fun value => Decimal.ofValue (read value),
      '\n' ∉ text.toList := by
    intro text htext
    obtain ⟨value, _, rfl⟩ := List.mem_map.mp htext
    rw [Decimal.ofValue, String.toList_ofList]
    exact not_mem_numeral rfl (by decide) _
  have hsplit := splitOn_join hunbroken
  rw [List.map_map, List.map_map] at hsplit
  exact hsplit

/-- Values printed on lines of their own can be told apart. -/
theorem join_ofValue_inj {α : Type} {first second : α → Int32} {values : List α} :
    String.join (values.map fun value => Decimal.ofValue (first value) ++ "\n") =
      String.join (values.map fun value => Decimal.ofValue (second value) ++ "\n") ↔
      ∀ value ∈ values, first value = second value := by
  constructor
  · intro h value hvalue
    have hlines := splitOn_join_ofValue first values
    rw [h, splitOn_join_ofValue second values] at hlines
    have htexts := List.map_inj_left.mp (List.append_cancel_right hlines) value hvalue
    exact (Decimal.ofValue_injective (String.toList_inj.mp htexts)).symm
  · intro h
    refine congrArg String.join (List.map_inj_left.mpr ?_)
    intro value hvalue
    rw [h value hvalue]

theorem read_eq_iff_leftovers (program : Program) (first second : String → Int32) :
    (∀ origin ∈ program.printedOrigins, origin.read first = origin.read second) ↔
      ∀ name ∈ program.leftovers, first name = second name := by
  constructor
  · intro h name hname
    exact h _ ((program.mem_leftovers_iff name).mp hname)
  · intro h origin horigin
    cases origin with
    | word value => rfl
    | leftover name => exact h name ((program.mem_leftovers_iff name).mpr horigin)

/-- Two runs of the listing of a program read from a source print the same just when the slots of
the names whose leftovers are printed held the same. Only a name that is first assigned to itself
is among them. -/
theorem printed_eq_iff_leftovers {mode : Mode} {source : String} {program : Program}
    (h : Program.ofSource mode source = .ok program) (first second : Surroundings) :
    (∃ final other, execute first program.assembly = some final ∧
      execute second program.assembly = some other ∧
      final.stage = .returned ∧ other.stage = .returned ∧
      (final.printed = other.printed ↔ ∀ name ∈ program.leftovers,
        first.atStart.memory.cell (-(program.slots.address name : Int)) =
          second.atStart.memory.cell (-(program.slots.address name : Int)))) ∧
    ∀ name ∈ program.leftovers, program.firstGiven? name = some (.identifier name) := by
  have hunbroken := Program.unbroken_of_ofSource h
  obtain ⟨final, hfinal, hstage, hprinted, _⟩ := execute_assembly first hunbroken
  obtain ⟨other, hother, hreturned, htext, _⟩ := execute_assembly second hunbroken
  refine ⟨⟨final, other, hfinal, hother, hstage, hreturned, ?_⟩, ?_⟩
  · rw [hprinted, htext, join_ofValue_inj, read_eq_iff_leftovers]
    rfl
  · intro name hname
    exact Program.firstGiven?_of_mem_leftovers hname

theorem printed_eq_iff_leftovers_overwritten :
    ∃ program, Program.ofSource .pattern "start x=x y=x x=7 print(x) end" = .ok program ∧
      program.leftovers = [] ∧
      (∃ final other, execute (filled 0) program.assembly = some final ∧
        execute (filled 1) program.assembly = some other ∧
        final.stage = .returned ∧ other.stage = .returned ∧
        (final.printed = other.printed ↔ ∀ name ∈ program.leftovers,
          (filled 0).atStart.memory.cell (-(program.slots.address name : Int)) =
            (filled 1).atStart.memory.cell (-(program.slots.address name : Int)))) ∧
      ∀ name ∈ program.leftovers, program.firstGiven? name = some (.identifier name) := by
  have hread : Program.ofSource .pattern "start x=x y=x x=7 print(x) end" =
      .ok ⟨[.assignment "x" (.identifier "x"), .assignment "y" (.identifier "x"),
        .assignment "x" (.number "7"), .output (.identifier "x")]⟩ := by
    decide +kernel
  exact ⟨_, hread, by decide +kernel, printed_eq_iff_leftovers hread (filled 0) (filled 1)⟩

/-- Surroundings in which the frame has its own content at the start. -/
def Surroundings.withFrame (outside : Surroundings) (size : Nat) (frame : Memory) : Surroundings :=
  { outside with
    atStart := { outside.atStart with
      memory := fun place =>
        if -(size : Int) ≤ place ∧ place < 0 then frame place else outside.atStart.memory place } }

/-- A fresh name that is assigned to itself and printed shows what its slot held. -/
theorem not_printed_eq_of_frames :
    ¬ ∀ (mode : Mode) (source : String) (program : Program),
      Program.ofSource mode source = .ok program →
        ∀ (outside : Surroundings) (first second : Memory) (final other : State),
          execute (outside.withFrame program.frameSize first) program.assembly = some final →
          execute (outside.withFrame program.frameSize second) program.assembly = some other →
          final.printed = other.printed := by
  intro h
  have hread : Program.ofSource .pattern "start x=x print(x) end" =
      .ok ⟨[.assignment "x" (.identifier "x"), .output (.identifier "x")]⟩ := by
    decide +kernel
  have hunbroken := Program.unbroken_of_ofSource hread
  generalize hprogram :
    (⟨[.assignment "x" (.identifier "x"), .output (.identifier "x")]⟩ : Program) =
      program at hread hunbroken
  obtain ⟨final, hfinal, _, hprinted, _⟩ :=
    execute_assembly ((filled 0).withFrame program.frameSize fun _ => 0) hunbroken
  obtain ⟨other, hother, _, htext, _⟩ :=
    execute_assembly ((filled 0).withFrame program.frameSize fun _ => 1) hunbroken
  have heq := h _ _ program hread _ _ _ final other hfinal hother
  rw [hprinted, htext, join_ofValue_inj] at heq
  subst hprogram
  have hleftover := heq (.leftover "x") (by decide)
  revert hleftover
  decide

end StraightLine.Machine
