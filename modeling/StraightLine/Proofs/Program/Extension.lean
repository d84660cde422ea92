import StraightLine.Proofs.Slots.Frame

/-!
# Programs that go on

A program can go on with the statements of another one. Only the size of the
frame looks ahead to them: what is printed before they begin, the lines that
are written before theirs and the slots that are handed out before they ask for
any are those of the first program alone.
-/

namespace StraightLine

namespace Program

/-- One program followed by another. -/
def append (first second : Program) : Program :=
  ⟨first.statements ++ second.statements⟩

instance : Append Program :=
  ⟨append⟩

theorem statements_append (first second : Program) :
    (first ++ second).statements = first.statements ++ second.statements := rfl

/-! ### Assigned names -/

theorem prefix_enlist (names : List String) (name : String) : names <+: enlist names name := by
  rw [enlist]
  split
  · exact List.prefix_refl names
  · exact List.prefix_append names [name]

theorem prefix_assignedAfter (names : List String) (statements : List Statement) :
    names <+: assignedAfter names statements := by
  rw [assignedAfter]
  induction statements.filterMap Statement.target? generalizing names with
  | nil => exact List.prefix_refl names
  | cons name rest ih => exact (prefix_enlist names name).trans (ih (enlist names name))

theorem assigned_append (first second : Program) :
    (first ++ second).assigned = assignedAfter first.assigned second.statements :=
  assignedAfter_append [] first.statements second.statements

theorem frameSize_le_append (first second : Program) :
    first.frameSize ≤ (first ++ second).frameSize := by
  apply Assembly.frameSize_mono
  rw [assigned_append]
  exact (prefix_assignedAfter first.assigned second.statements).length_le

/-! ### Runs and listings -/

theorem output_append (first second : Program) :
    (first ++ second).output = first.output ++
      String.join ((Statement.run first.finalStore second.statements).2.map fun value =>
        Decimal.ofValue value ++ "\n") := by
  rw [output, printed, statements_append, Statement.run_append, List.map_append]
  simp [output, printed, finalStore]

theorem slots_append (first second : Program) :
    (first ++ second).slots = (Assembly.compile first.slots second.statements).1 := by
  rw [slots, statements_append, Assembly.compile_append]
  rfl

theorem body_append (first second : Program) :
    (first ++ second).body =
      first.body ++ (Assembly.compile first.slots second.statements).2 := by
  rw [body, statements_append, Assembly.compile_append]
  rfl

open Assembly

theorem assembly_eq (program : Program) :
    program.assembly =
      listing (prologue program.frameSize) ++ listing program.body ++ listing epilogue := by
  rw [assembly, lines, listing_append, listing_append]
  rfl

theorem assembly_append (first second : Program) :
    (first ++ second).assembly = listing (prologue (first ++ second).frameSize) ++
      (listing first.body ++ listing (compile first.slots second.statements).2) ++
      listing epilogue := by
  rw [assembly_eq, body_append, listing_append]

/-- Statements that come later change nothing about earlier ones, whatever the tools did before.
The output of the first program stays and is followed by what the second one prints from there.
The text between prologue and epilogue stays and is followed by the text that the second one adds.
The names keep their slots, and the frame does not shrink. -/
theorem append_keeps_first (first second : Program) (runner another : Runner)
    (translator other : Translator) :
    (another.run (first ++ second)).1 =
      (runner.run first).1 ++ ((runner.run first).2.steps "" second.statements).1 ∧
    (∃ body,
      (translator.translate first).1 =
        listing (prologue first.frameSize) ++ body ++ listing epilogue ∧
      (other.translate (first ++ second)).1 =
        listing (prologue (first ++ second).frameSize) ++
          (body ++
            (second.statements.foldl Translator.statement (translator.translate first).2).output) ++
          listing epilogue) ∧
    (∀ name ∈ first.assigned, ∃ address,
      (translator.translate first).2.slots.address? name = some address ∧
      (other.translate (first ++ second)).2.slots.address? name = some address) ∧
    first.frameSize ≤ (first ++ second).frameSize := by
  rw [Runner.run_eq, Runner.run_eq, Runner.steps_eq, String.empty_append, Translator.translate_eq,
    Translator.translate_eq, Translator.foldl_statement, String.empty_append]
  refine ⟨output_append first second, ⟨_, assembly_eq first, assembly_append first second⟩, ?_,
    frameSize_le_append first second⟩
  intro name hname
  have haddress := Slots.mem_names_iff_address?.mp ((first.mem_names_slots_iff name).mpr hname)
  refine ⟨_, haddress, ?_⟩
  change (first ++ second).slots.address? name = _
  rw [slots_append]
  exact address?_compile_of_some haddress second.statements

theorem append_keeps_first_reassigned :
    ∃ first second : Program,
      first = ⟨[.output (.identifier "y"), .assignment "x" (.identifier "y")]⟩ ∧
      second = ⟨[.assignment "y" (.number "5"), .assignment "x" (.identifier "y")]⟩ ∧
      (Runner.fresh.run (first ++ second)).1 =
        (Runner.fresh.run first).1 ++ ((Runner.fresh.run first).2.steps "" second.statements).1 ∧
      "x" ∈ first.assigned ∧
      ∃ address, (Translator.fresh.translate first).2.slots.address? "x" = some address ∧
        (Translator.fresh.translate (first ++ second)).2.slots.address? "x" = some address := by
  refine ⟨_, _, rfl, rfl, ?_, by decide, ?_⟩
  · exact (append_keeps_first _ _ .fresh .fresh .fresh .fresh).1
  · exact (append_keeps_first _ _ .fresh .fresh .fresh .fresh).2.2.1 "x" (by decide)

end Program

end StraightLine
