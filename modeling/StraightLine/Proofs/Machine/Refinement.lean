import StraightLine.Proofs.Machine.Simulation

/-!
# Listings refine the interpreter

A machine that is given the listing of a program read from a source comes to
the end of it, whatever the stack held before and whatever the calls leave
behind. What it prints and keeps is what the interpreter computes, except that
a name first assigned to itself starts from what its slot held.
-/

namespace StraightLine

namespace Assembly

instance (line : Line) : Decidable line.ReadsBack :=
  decidable_of_iff (readLine? line.text.toList = some line.instructions ∧ '\n' ∉ line.text.toList)
    ⟨fun h => ⟨h.1, h.2⟩, fun h => ⟨h.reads, h.unbroken⟩⟩

theorem readsBack_prologue (frame : Nat) : ∀ line ∈ prologue frame, line.ReadsBack := by
  have hfixed : ∀ line ∈ (prologue 0).take 11, line.ReadsBack := by decide
  intro line hline
  have hsplit : prologue frame = (prologue 0).take 11 ++ [.code (.reserve frame)] := rfl
  rw [hsplit] at hline
  rcases List.mem_append.mp hline with hline | hline
  · exact hfixed line hline
  · rw [List.mem_singleton.mp hline]
    exact Line.readsBack_code _

theorem readsBack_epilogue : ∀ line ∈ epilogue, line.ReadsBack := by
  have hlast : (Line.directive ".section .note.GNU-stack,\"\",@progbits").ReadsBack := by decide
  rw [epilogue]
  simp only [List.forall_mem_cons]
  exact ⟨Line.readsBack_comment (by decide), Line.readsBack_code _, Line.readsBack_code _,
    Line.readsBack_code _, hlast, List.forall_mem_nil _⟩

theorem readsBack_assignmentLines {target : String} {expression : Expression}
    (h : ∀ text ∈ (Statement.assignment target expression).texts, '\n' ∉ text.toList)
    (slots : Slots) : ∀ line ∈ assignmentLines slots target expression, line.ReadsBack := by
  have htarget : '\n' ∉ target.toList := h target (by simp [Statement.texts])
  have hsource : '\n' ∉ expression.source.toList := h _ (by simp [Statement.texts])
  rw [assignmentLines]
  simp only [List.forall_mem_cons]
  refine ⟨Line.readsBack_comment ?_, Line.readsBack_code _, Line.readsBack_code _,
    List.forall_mem_nil _⟩
  simp [htarget, hsource]

theorem readsBack_outputLines {expression : Expression}
    (h : ∀ text ∈ (Statement.output expression).texts, '\n' ∉ text.toList) (slots : Slots) :
    ∀ line ∈ outputLines slots expression, line.ReadsBack := by
  have hsource : '\n' ∉ expression.source.toList := h _ (by simp [Statement.texts])
  rw [outputLines]
  simp only [List.forall_mem_cons]
  refine ⟨Line.readsBack_comment ?_, Line.readsBack_code _, Line.readsBack_code _,
    Line.readsBack_code _, Line.readsBack_code _, List.forall_mem_nil _⟩
  simp [hsource]

theorem readsBack_compile {statements : List Statement}
    (h : ∀ statement ∈ statements, ∀ text ∈ statement.texts, '\n' ∉ text.toList) (slots : Slots) :
    ∀ line ∈ (compile slots statements).2, line.ReadsBack := by
  induction statements generalizing slots with
  | nil => nofun
  | cons statement rest ih =>
    have hfirst := h statement List.mem_cons_self
    have hrest : ∀ other ∈ rest, ∀ text ∈ other.texts, '\n' ∉ text.toList :=
      fun other hother => h other (List.mem_cons_of_mem _ hother)
    intro line hline
    cases statement with
    | assignment target expression =>
      rcases List.mem_append.mp hline with hline | hline
      · exact readsBack_assignmentLines hfirst _ line hline
      · exact ih hrest _ line hline
    | output expression =>
      rcases List.mem_append.mp hline with hline | hline
      · exact readsBack_outputLines hfirst _ line hline
      · exact ih hrest _ line hline

theorem readsBack_lines {program : Program} (h : program.Unbroken) :
    ∀ line ∈ program.lines, line.ReadsBack := by
  intro line hline
  rcases List.mem_append.mp hline with hline | hline
  · rcases List.mem_append.mp hline with hline | hline
    · exact readsBack_prologue _ line hline
    · exact readsBack_compile h _ line hline
  · exact readsBack_epilogue line hline

end Assembly

namespace Machine

open Assembly

theorem run_prologue (outside : Surroundings) (frame : Nat) :
    run outside (start outside) ((prologue frame).flatMap Line.instructions) =
      some { start outside with stage := .based, reserved := 0 + frame } := rfl

theorem run_epilogue {outside : Surroundings} {state : State} (h : state.stage = .based) :
    run outside state (epilogue.flatMap Line.instructions) =
      some { state.put .eax 0 with stage := .returned } := by
  have hloaded : (state.put .eax 0).stage = .based := h
  change run outside state [.load .eax (.immediate 0), .leave, .ret] = _
  rw [run_cons, step_load h, Option.bind_some, run_cons, State.operand, step_leave hloaded]
  rfl

/-- What the slot of each name holds before the program begins. -/
def leftoverIn (outside : Surroundings) (program : Program) (name : String) : Int32 :=
  outside.atStart.memory.cell (-(program.slots.address name : Int))

theorem follows_start (outside : Surroundings) (program : Program) :
    Follows program.slots (leftoverIn outside program) .empty .empty
      { start outside with stage := .based, reserved := 0 + program.frameSize } := by
  refine ⟨rfl, ?_, nofun, ?_, fun _ _ => rfl⟩
  · rw [program.names_slots, Nat.zero_add]
    exact le_frameSize program.assigned.length
  · intro name
    exact Slots.address?_empty name

/-- A machine comes to the end of every listing without broken lines. It prints what the origins
are worth over what the slots held before, and leaves that in the slots. -/
theorem execute_assembly (outside : Surroundings) {program : Program} (h : program.Unbroken) :
    ∃ final, execute outside program.assembly = some final ∧ final.stage = .returned ∧
      final.printed = String.join (program.printedOrigins.map fun origin =>
        Decimal.ofValue (origin.read (leftoverIn outside program)) ++ "\n") ∧
      ∀ name ∈ program.assigned, ∃ origin, program.finalOrigins name = some origin ∧
        final.memory.cell (-(program.slots.address name : Int)) =
          origin.read (leftoverIn outside program) := by
  obtain ⟨next, hrun, hnext, hprinted⟩ :=
    (follows_start outside program).statements rfl
  refine ⟨{ next.put .eax 0 with stage := .returned }, ?_, rfl, ?_, ?_⟩
  · rw [Program.assembly, execute_listing outside (readsBack_lines h), Program.lines,
      List.flatMap_append, List.flatMap_append, run_append, run_append, run_prologue,
      Option.bind_some, hrun]
    exact run_epilogue hnext.based
  · exact hprinted.trans (String.empty_append)
  · intro name hname
    have hmem := (program.mem_names_slots_iff name).mpr hname
    have hheld := hnext.held name hmem
    have hgiven := hnext.given name
    rw [Slots.mem_names_iff_address?.mp hmem] at hgiven
    obtain ⟨origin, horigin, _⟩ := Option.map_eq_some_iff.mp hgiven.symm
    rw [horigin] at hheld
    exact ⟨origin, horigin, hheld⟩

def filled (byte : BitVec 8) : Surroundings :=
  let contents : Contents := ⟨0, 0, 0, fun _ => byte⟩
  ⟨0, contents, fun _ => contents⟩

theorem cell_filled (byte : BitVec 8) (address : Int) :
    (filled byte).atStart.memory.cell address = .ofBitVec (byte ++ byte ++ byte ++ byte) := rfl

theorem leftoverIn_eq_zero {outside : Surroundings} {program : Program}
    (h : ∀ k, 4 ∣ k → 0 < k → k ≤ program.frameSize →
      outside.atStart.memory.cell (-(k : Int)) = 0)
    {name : String} (hname : name ∈ program.assigned) : leftoverIn outside program name = 0 := by
  have hle := Slots.address_le ((program.mem_names_slots_iff name).mpr hname)
  rw [program.names_slots] at hle
  apply h
  · exact ⟨_, rfl⟩
  · exact Nat.lt_of_lt_of_le (by decide) (program.slots.four_le_address name)
  · exact hle.trans (le_frameSize program.assigned.length)

/-- The listing of a program read from a source prints what the interpreter prints and leaves the
final values in the slots, if the slots of the frame are zero at the start or no name is first
assigned to itself. Leaving the frame and returning write nothing. -/
theorem execute_refines_interpreter {mode : Mode} {source : String} {program : Program}
    (h : Program.ofSource mode source = .ok program) (outside : Surroundings)
    (hstart : (∀ k, 4 ∣ k → 0 < k → k ≤ program.frameSize →
        outside.atStart.memory.cell (-(k : Int)) = 0) ∨
      ∀ name, program.firstGiven? name ≠ some (.identifier name)) :
    ∃ final, execute outside program.assembly = some final ∧ final.stage = .returned ∧
      final.printed = program.output ∧
      ∀ name ∈ program.assigned, ∃ address value, program.slots.address? name = some address ∧
        program.finalStore.value? name = some value ∧
        final.memory.cell (-(address : Int)) = value := by
  have hzero : ∀ name, program.firstGiven? name = some (.identifier name) →
      leftoverIn outside program name = 0 := by
    intro name hname
    rcases hstart with hframe | hnone
    · apply leftoverIn_eq_zero hframe
      rw [Program.mem_assigned_iff_isSome_firstGiven?, hname]
      rfl
    · exact absurd hname (hnone name)
  obtain ⟨hagree, hprinted⟩ := Program.agree_finalStore hzero
  obtain ⟨final, hexecute, hstage, htext, hslots⟩ :=
    execute_assembly outside (Program.unbroken_of_ofSource h)
  refine ⟨final, hexecute, hstage, ?_, ?_⟩
  · rw [htext, Program.output, hprinted, List.map_map]
    rfl
  · intro name hname
    obtain ⟨origin, horigin, hcell⟩ := hslots name hname
    have hmem := (program.mem_names_slots_iff name).mpr hname
    refine ⟨_, _, Slots.mem_names_iff_address?.mp hmem, ?_, hcell⟩
    rw [hagree name, horigin]
    rfl

theorem execute_refines_interpreter_filled_zero :
    ∃ program, Program.ofSource .scan "start x=x y=x x=7 print(y) print(x) end" = .ok program ∧
      program.output = "0\n7\n" ∧
      ∃ final, execute (filled 0) program.assembly = some final ∧ final.stage = .returned ∧
        final.printed = program.output ∧
        ∀ name ∈ program.assigned, ∃ address value, program.slots.address? name = some address ∧
          program.finalStore.value? name = some value ∧
          final.memory.cell (-(address : Int)) = value := by
  have hread : Program.ofSource .scan "start x=x y=x x=7 print(y) print(x) end" =
      .ok ⟨[.assignment "x" (.identifier "x"), .assignment "y" (.identifier "x"),
        .assignment "x" (.number "7"), .output (.identifier "y"), .output (.identifier "x")]⟩ := by
    decide +kernel
  refine ⟨_, hread, by decide +kernel, ?_⟩
  apply execute_refines_interpreter hread
  left
  intro k _ _ _
  exact (cell_filled 0 _).trans (by decide)

end Machine

end StraightLine
