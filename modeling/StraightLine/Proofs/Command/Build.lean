import StraightLine.Command.Workshop
import StraightLine.Proofs.Command.Journal

/-!
# How a build goes

A build reads its input, chooses its outputs, writes the listing, and unless it
ends there tries the compilers in order and removes the listing. Each way this
can go is one case, with what is said, what is left, and the deeds in order.
-/

namespace StraightLine.Command

/-- What is said about a result. -/
def Outcome.ofResult (jsonErrors : Bool) : Except Failure String → Outcome
  | .ok text => success text
  | .error failure => ofFailure jsonErrors failure

@[simp] theorem Outcome.status_ofFailure (jsonErrors : Bool) (failure : Failure) :
    (ofFailure jsonErrors failure).status = 1 := by
  rw [ofFailure.eq_def]
  split
  · split <;> rfl
  · rfl

theorem Outcome.exists_ok_of_status {jsonErrors : Bool} {result : Except Failure String}
    (h : (ofResult jsonErrors result).status = 0) : ∃ text, result = .ok text := by
  cases result with
  | ok text => exact ⟨text, rfl⟩
  | error failure =>
    rw [ofResult, status_ofFailure] at h
    cases h

section Running

variable {σ α β : Type} {state after : σ}

theorem run_bind_ok {action : ExceptT Failure (StateM σ) α}
    {next : α → ExceptT Failure (StateM σ) β} {a : α}
    (h : action.run.run state = (.ok a, after)) :
    (action >>= next).run.run state = (next a).run.run after := by
  rw [ExceptT.run_bind, StateT.run_bind, h]
  rfl

theorem run_bind_error {action : ExceptT Failure (StateM σ) α}
    {next : α → ExceptT Failure (StateM σ) β} {failure : Failure}
    (h : action.run.run state = (.error failure, after)) :
    (action >>= next).run.run state = (.error failure, after) := by
  rw [ExceptT.run_bind, StateT.run_bind, h]
  rfl

theorem run_except (a : α) (state : σ) :
    (liftM (Except.ok a : Except Failure α) : ExceptT Failure (StateM σ) α).run.run state =
      (.ok a, state) := rfl

theorem run_lift {action : StateM σ α} {a : α} (h : action.run state = (a, after)) :
    (ExceptT.lift (ε := Failure) action).run.run state = (.ok a, after) := by
  rw [ExceptT.run_lift, StateT.run_map, h]
  rfl

theorem run_invoke {host : Host (StateM σ)} {invocation : Invocation}
    {result : Except Failure String}
    (h : (perform host invocation).run.run state = (result, after)) :
    (invoke host invocation).run state = (.ofResult invocation.jsonErrors result, after) := by
  rw [invoke, StateT.run_bind, h]
  cases result with
  | ok text => rfl
  | error failure => rfl

end Running

namespace Workshop

/-- The host, but for the paths that it refuses to remove. -/
def refusing (refuses : String → Bool) : Host (StateM Workshop) :=
  { host with remove := fun path => if refuses path then pure () else host.remove path }

theorem refusing_never : refusing (fun _ => false) = host := rfl

theorem refusing_write (refuses : String → Bool) : (refusing refuses).write = host.write := rfl

theorem refusing_compile (refuses : String → Bool) : (refusing refuses).compile = host.compile :=
  rfl

/-- Carries out an invocation and keeps a journal. -/
def record (workshop : Workshop) (arguments : List String) :
    Outcome × Workshop × Journal Workshop :=
  (Command.execute host.recorded arguments).run (workshop, [])

/-- Carries out an invocation where some removals are refused, and keeps a journal. -/
def recordRefusing (workshop : Workshop) (refuses : String → Bool) (arguments : List String) :
    Outcome × Workshop × Journal Workshop :=
  (Command.execute (refusing refuses).recorded arguments).run (workshop, [])

theorem record_eq_execute (workshop : Workshop) (arguments : List String) :
    ((workshop.record arguments).1, (workshop.record arguments).2.1) =
      workshop.execute arguments :=
  Tracks.execute host arguments workshop []

theorem execute_of_record {workshop after : Workshop} {arguments : List String}
    {outcome : Outcome} {journal : Journal Workshop}
    (h : workshop.record arguments = (outcome, after, journal)) :
    workshop.execute arguments = (outcome, after) := by
  rw [← record_eq_execute, h]

/-- Calls the compilers one after another until one of them succeeds. -/
inductive Tries (arguments : List String) :
    Workshop → List String → Journal Workshop → Option String → Workshop → Prop
  | none (workshop : Workshop) : Tries arguments workshop [] [] none workshop
  | success {workshop after : Workshop} {name : String} {rest : List String}
      (hcompile : (host.compile name arguments).run workshop = (some 0, after)) :
      Tries arguments workshop (name :: rest) [(.compile name arguments (some 0), after)]
        (some name) after
  | failure {workshop next after : Workshop} {name : String} {rest : List String}
      {status? : Option Nat} {tries : Journal Workshop} {found? : Option String}
      (hcompile : (host.compile name arguments).run workshop = (status?, next))
      (hstatus : status? ≠ some 0) (hrest : Tries arguments next rest tries found? after) :
      Tries arguments workshop (name :: rest) ((.compile name arguments status?, next) :: tries)
        found? after

theorem exists_tries (refuses : String → Bool) (arguments names : List String)
    (workshop : Workshop) (journal : Journal Workshop) :
    ∃ tries found? after,
      (firstCompiler (refusing refuses).recorded arguments names).run (workshop, journal) =
        (found?, after, journal ++ tries) ∧
      Tries arguments workshop names tries found? after := by
  induction names generalizing workshop journal with
  | nil => exact ⟨[], none, workshop, by rw [List.append_nil]; rfl, .none workshop⟩
  | cons name rest ih =>
    cases hcompile : (host.compile name arguments).run workshop with
    | mk status? next =>
      rw [firstCompiler, StateT.run_bind, Host.recorded_compile, refusing_compile,
        run_recording hcompile]
      by_cases hstatus : status? = some 0
      · subst hstatus
        exact ⟨_, _, _, rfl, .success hcompile⟩
      · obtain ⟨tries, found?, after, hrun, htries⟩ :=
          ih next (journal ++ [(.compile name arguments status?, next)])
        refine ⟨_, _, _, ?_, .failure hcompile hstatus htries⟩
        change StateT.run (if status? = some 0 then _ else _) _ = _
        rw [if_neg hstatus]
        rw [List.append_assoc] at hrun
        exact hrun

/-- Removing a file that cannot be removed changes nothing, and so does a removal that is
refused. -/
def without (workshop : Workshop) (refuses : String → Bool) (path : String) : Workshop :=
  if refuses path then workshop
  else
    match workshop.disk.remove path with
    | .ok disk => { workshop with disk }
    | .error _ => workshop

/-- How a build of a program can go. -/
inductive Build (refuses : String → Bool) (workshop : Workshop) (input : String)
    (output? : Option String) (emitAssembly : Bool) (program : Program) :
    Except Failure String → Workshop → Journal Workshop → Prop
  | refused {failure : Failure}
      (hpaths : outputPaths input output? emitAssembly = .error failure) :
      Build refuses workshop input output? emitAssembly program (.error failure) workshop []
  | unwritten {listing executable : String} {error : DiskError}
      (hpaths : outputPaths input output? emitAssembly = .ok (listing, executable))
      (hwrite : workshop.disk.write listing program.assembly.toUTF8 = .error error) :
      Build refuses workshop input output? emitAssembly program
        (.error (.writing listing error.message)) workshop
        [(.write listing program.assembly, workshop)]
  | generated {listing executable : String} {disk : Disk}
      (hpaths : outputPaths input output? emitAssembly = .ok (listing, executable))
      (hwrite : workshop.disk.write listing program.assembly.toUTF8 = .ok disk)
      (hemit : emitAssembly = true) :
      Build refuses workshop input output? emitAssembly program
        (.ok ("  [✓] Generated assembly: " ++ listing ++ "\n")) { workshop with disk }
        [(.write listing program.assembly, { workshop with disk })]
  | assembled {listing executable name : String} {disk : Disk} {after : Workshop}
      {tries : Journal Workshop}
      (hpaths : outputPaths input output? emitAssembly = .ok (listing, executable))
      (hwrite : workshop.disk.write listing program.assembly.toUTF8 = .ok disk)
      (hemit : emitAssembly = false)
      (htries : Tries ["-no-pie", "-o", executable, listing] { workshop with disk }
        Command.compilers tries (some name) after) :
      Build refuses workshop input output? emitAssembly program
        (.ok ("  [✓] Assembled with " ++ name ++ "\n\n✅ Output: " ++ executable ++ "\n"))
        (after.without refuses listing)
        ((.write listing program.assembly, { workshop with disk }) ::
          (tries ++ [(.remove listing, after.without refuses listing)]))
  | unassembled {listing executable : String} {disk : Disk} {after : Workshop}
      {tries : Journal Workshop}
      (hpaths : outputPaths input output? emitAssembly = .ok (listing, executable))
      (hwrite : workshop.disk.write listing program.assembly.toUTF8 = .ok disk)
      (hemit : emitAssembly = false)
      (htries : Tries ["-no-pie", "-o", executable, listing] { workshop with disk }
        Command.compilers tries none after) :
      Build refuses workshop input output? emitAssembly program
        (.error (.fault (reportOf
          (.assembler "could not assemble with cc, gcc or clang") input "")))
        (after.without refuses listing)
        ((.write listing program.assembly, { workshop with disk }) ::
          (tries ++ [(.remove listing, after.without refuses listing)]))

section Steps

variable (refuses : String → Bool) (workshop : Workshop)

theorem run_write (journal : Journal Workshop) (path text : String) :
    ((refusing refuses).recorded.write path text).run (workshop, journal) =
      match workshop.disk.write path text.toUTF8 with
      | .ok disk =>
        (.ok (), { workshop with disk }, journal ++ [(.write path text, { workshop with disk })])
      | .error error =>
        (.error error.message, workshop, journal ++ [(.write path text, workshop)]) := by
  have h : (host.write path text).run workshop =
      match workshop.disk.write path text.toUTF8 with
      | .ok disk => (.ok (), { workshop with disk })
      | .error error => (.error error.message, workshop) := by
    change (StateT.run (match workshop.disk.write path text.toUTF8 with
        | .ok disk => do
          set { workshop with disk }
          return .ok ()
        | .error error => return .error error.message : StateM Workshop (Except String Unit))
      workshop) = _
    cases workshop.disk.write path text.toUTF8 <;> rfl
  rw [Host.recorded_write, refusing_write]
  cases hwrite : workshop.disk.write path text.toUTF8 with
  | ok disk => exact run_recording (h.trans (by rw [hwrite]))
  | error error => exact run_recording (h.trans (by rw [hwrite]))

theorem run_remove (journal : Journal Workshop) (path : String) :
    ((refusing refuses).recorded.remove path).run (workshop, journal) =
      ((), workshop.without refuses path,
        journal ++ [(.remove path, workshop.without refuses path)]) := by
  rw [Host.recorded_remove]
  refine run_recording ?_
  change StateT.run (if refuses path then pure () else host.remove path) workshop = _
  rw [without]
  split
  · rfl
  · change (StateT.run (match workshop.disk.remove path with
        | .ok disk => set { workshop with disk }
        | .error _ => pure () : StateM Workshop _) workshop) = _
    cases workshop.disk.remove path <;> rfl

theorem run_compile (name : String) (arguments : List String) :
    (host.compile name arguments).run workshop =
      match workshop.compilers.lookup name with
      | none => (none, workshop)
      | some compiler =>
        (some (compiler arguments workshop.disk).2,
          { workshop with disk := (compiler arguments workshop.disk).1 }) := by
  change (StateT.run (match workshop.compilers.lookup name with
      | none => return none
      | some compiler => do
        set { workshop with disk := (compiler arguments workshop.disk).1 }
        return some (compiler arguments workshop.disk).2 : StateM Workshop (Option Nat))
    workshop) = _
  cases workshop.compilers.lookup name <;> rfl

end Steps

/-- A call of a compiler that is not there does nothing. -/
theorem eq_or_exists_compiler {workshop after : Workshop} {name : String}
    {arguments : List String} {status? : Option Nat}
    (h : (host.compile name arguments).run workshop = (status?, after)) :
    (status? = none ∧ after = workshop) ∨
      ∃ compiler, (name, compiler) ∈ workshop.compilers ∧
        status? = some (compiler arguments workshop.disk).2 ∧
        after = { workshop with disk := (compiler arguments workshop.disk).1 } := by
  rw [run_compile] at h
  cases hlookup : workshop.compilers.lookup name with
  | none =>
    rw [hlookup] at h
    cases h
    exact .inl ⟨rfl, rfl⟩
  | some compiler =>
    rw [hlookup] at h
    cases h
    obtain ⟨front, back, hcompilers, -⟩ := List.lookup_eq_some_iff.mp hlookup
    refine .inr ⟨compiler, ?_, rfl, rfl⟩
    rw [hcompilers]
    exact List.mem_append_right _ List.mem_cons_self

/-- The action changes neither the workshop nor the journal. -/
def Leaves {α : Type} (action : ExceptT Failure (StateM (Workshop × Journal Workshop)) α) : Prop :=
  ∀ state, ∃ result, action.run.run state = (result, state)

theorem Leaves.pure {α : Type} (result : Except Failure α) :
    Leaves (ExceptT.mk (Pure.pure result)) :=
  fun _ => ⟨result, rfl⟩

theorem Leaves.bind {α β : Type}
    {action : ExceptT Failure (StateM (Workshop × Journal Workshop)) α}
    {next : α → ExceptT Failure (StateM (Workshop × Journal Workshop)) β}
    (h : Leaves action) (hnext : ∀ a, Leaves (next a)) : Leaves (action >>= next) := by
  intro state
  obtain ⟨result, hrun⟩ := h state
  rw [ExceptT.run_bind, StateT.run_bind, hrun]
  cases result with
  | ok a => exact hnext a state
  | error failure => exact ⟨.error failure, rfl⟩

theorem leaves_readProgram (refuses : String → Bool) (mode : Mode) (input : String) :
    Leaves (readProgram (refusing refuses).recorded mode input) := by
  refine .bind (.bind (fun state => ⟨_, rfl⟩) fun read => ?_) fun source => ?_
  · cases read with
    | error reason => exact .pure _
    | ok content =>
      dsimp only
      cases String.fromUTF8? content with
      | none => exact .pure _
      | some source => exact .pure _
  · cases Program.ofSource mode source with
    | error fault => exact .pure _
    | ok program => exact .pure _

theorem exists_build (refuses : String → Bool) (workshop : Workshop) (input : String)
    (output? : Option String) (emitAssembly : Bool) (program : Program) :
    ∃ result after journal,
      (build (refusing refuses).recorded input output? emitAssembly program).run.run
        (workshop, []) = (result, after, journal) ∧
      Build refuses workshop input output? emitAssembly program result after journal := by
  rw [build]
  cases hpaths : outputPaths input output? emitAssembly with
  | error failure => exact ⟨_, _, _, rfl, .refused hpaths⟩
  | ok paths =>
    obtain ⟨listing, executable⟩ := paths
    have hwritten := run_write refuses workshop [] listing program.assembly
    rw [run_bind_ok (run_except _ _)]
    dsimp only
    cases hwrite : workshop.disk.write listing program.assembly.toUTF8 with
    | error error =>
      rw [hwrite] at hwritten
      exact ⟨_, _, _, run_bind_ok (run_lift hwritten), .unwritten hpaths hwrite⟩
    | ok disk =>
      rw [hwrite] at hwritten
      cases emitAssembly with
      | true => exact ⟨_, _, _, run_bind_ok (run_lift hwritten), .generated hpaths hwrite rfl⟩
      | false =>
        obtain ⟨tries, found?, after, hrun, htries⟩ :=
          exists_tries refuses ["-no-pie", "-o", executable, listing] Command.compilers
            { workshop with disk } [(.write listing program.assembly, { workshop with disk })]
        have hremoved := run_remove refuses after
          ((.write listing program.assembly, { workshop with disk }) :: tries) listing
        cases found? with
        | none =>
          refine ⟨_, _, _, ?_, .unassembled hpaths hwrite rfl htries⟩
          refine Eq.trans (run_bind_ok (run_lift hwritten)) ?_
          refine Eq.trans (run_bind_ok (run_lift hrun)) ?_
          exact run_bind_ok (run_lift hremoved)
        | some name =>
          refine ⟨_, _, _, ?_, .assembled hpaths hwrite rfl htries⟩
          refine Eq.trans (run_bind_ok (run_lift hwritten)) ?_
          refine Eq.trans (run_bind_ok (run_lift hrun)) ?_
          exact run_bind_ok (run_lift hremoved)

theorem run_build (workshop : Workshop) (input : String) (output? : Option String)
    (emitAssembly : Bool) (program : Program) :
    ∃ result after journal,
      (build host input output? emitAssembly program).run.run workshop = (result, after) ∧
      Build (fun _ => false) workshop input output? emitAssembly program result after journal := by
  obtain ⟨result, after, journal, hrun, hbuild⟩ :=
    exists_build (fun _ => false) workshop input output? emitAssembly program
  have htracks := Tracks.build host input output? emitAssembly program workshop []
  rw [refusing_never] at hrun
  rw [hrun] at htracks
  exact ⟨result, after, journal, htracks.symm, hbuild⟩

/-- What a build is asked for is refused when the input cannot be read as a program, and is a
build of the program otherwise. -/
theorem recordRefusing_build (refuses : String → Bool) (workshop : Workshop)
    {arguments : List String} {mode : Mode} {jsonErrors emitAssembly : Bool}
    {output? : Option String} {input : String}
    (h : Request.ofArguments? arguments =
      some (.invoke ⟨mode, jsonErrors, .build output? emitAssembly, input⟩)) :
    (∃ failure, workshop.recordRefusing refuses arguments =
      (.ofFailure jsonErrors failure, workshop, [])) ∨
    ∃ program result after journal,
      workshop.recordRefusing refuses arguments =
        (.ofResult jsonErrors result, after, journal) ∧
      ((readProgram host mode input).run.run workshop).1 = .ok program ∧
      Build refuses workshop input output? emitAssembly program result after journal := by
  obtain ⟨result, hread⟩ := leaves_readProgram refuses mode input (workshop, [])
  rw [recordRefusing, Command.execute, h]
  cases result with
  | error failure =>
    have hperform : (perform (refusing refuses).recorded
        ⟨mode, jsonErrors, .build output? emitAssembly, input⟩).run.run (workshop, []) =
        (.error failure, workshop, []) := run_bind_error hread
    exact .inl ⟨failure, run_invoke hperform⟩
  | ok program =>
    obtain ⟨result, after, journal, hrun, hbuild⟩ :=
      exists_build refuses workshop input output? emitAssembly program
    have hsource := congrArg Prod.fst
      (Tracks.readProgram (refusing refuses) mode input workshop [])
    rw [hread] at hsource
    have hperform : (perform (refusing refuses).recorded
        ⟨mode, jsonErrors, .build output? emitAssembly, input⟩).run.run (workshop, []) =
        (result, after, journal) := (run_bind_ok hread).trans hrun
    exact .inr ⟨program, result, after, journal, run_invoke hperform, hsource.symm, hbuild⟩

/-- The host itself refuses nothing. -/
theorem record_build (workshop : Workshop) {arguments : List String} {mode : Mode}
    {jsonErrors emitAssembly : Bool} {output? : Option String} {input : String}
    (h : Request.ofArguments? arguments =
      some (.invoke ⟨mode, jsonErrors, .build output? emitAssembly, input⟩)) :
    (∃ failure, workshop.record arguments = (.ofFailure jsonErrors failure, workshop, [])) ∨
    ∃ program result after journal,
      workshop.record arguments = (.ofResult jsonErrors result, after, journal) ∧
      ((readProgram host mode input).run.run workshop).1 = .ok program ∧
      Build (fun _ => false) workshop input output? emitAssembly program result after journal :=
  workshop.recordRefusing_build (fun _ => false) h

end Workshop

end StraightLine.Command
