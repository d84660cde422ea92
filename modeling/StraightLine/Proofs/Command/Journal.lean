import StraightLine.Command.Execution

/-!
# Journals

All that is done to the outside goes through a host, so a host can keep a
journal of it: every attempt to write, to remove or to compile, in order, with
the state it left. Keeping a journal changes nothing else.
-/

namespace StraightLine.Command

/-- An attempt to change the outside. -/
inductive Deed
  | write (path text : String)
  | remove (path : String)
  | compile (name : String) (arguments : List String) (status? : Option Nat)
  deriving DecidableEq, Inhabited, Repr

/-- The deeds in order, each with the state it left. -/
abbrev Journal (σ : Type) := List (Deed × σ)

section Recording

variable {σ α β : Type}

/-- An action that is no deed. -/
def unrecorded (action : StateM σ α) : StateM (σ × Journal σ) α := fun (state, journal) =>
  let (a, after) := action.run state
  (a, after, journal)

def recording (deed : α → Deed) (action : StateM σ α) : StateM (σ × Journal σ) α :=
  fun (state, journal) =>
    let (a, after) := action.run state
    (a, after, journal ++ [(deed a, after)])

/-- The host with a journal. -/
def Host.recorded (host : Host (StateM σ)) : Host (StateM (σ × Journal σ)) where
  read path := unrecorded (host.read path)
  write path text := recording (fun _ => .write path text) (host.write path text)
  remove path := recording (fun _ => .remove path) (host.remove path)
  compile name arguments := recording (.compile name arguments) (host.compile name arguments)

theorem run_recording {deed : α → Deed} {action : StateM σ α} {state after : σ} {a : α}
    {journal : Journal σ} (h : action.run state = (a, after)) :
    (recording deed action).run (state, journal) = (a, after, journal ++ [(deed a, after)]) := by
  change (fun ran : α × σ => (ran.1, ran.2, journal ++ [(deed ran.1, ran.2)]))
    (action.run state) = _
  rw [h]

theorem Host.recorded_write (host : Host (StateM σ)) (path text : String) :
    host.recorded.write path text = recording (fun _ => .write path text) (host.write path text) :=
  rfl

theorem Host.recorded_remove (host : Host (StateM σ)) (path : String) :
    host.recorded.remove path = recording (fun _ => .remove path) (host.remove path) := rfl

theorem Host.recorded_compile (host : Host (StateM σ)) (name : String) (arguments : List String) :
    host.recorded.compile name arguments =
      recording (.compile name arguments) (host.compile name arguments) := rfl

/-- But for the journal the two actions do the same. -/
def Tracks (recorded : StateM (σ × Journal σ) α) (action : StateM σ α) : Prop :=
  ∀ state journal, ((recorded.run (state, journal)).1, (recorded.run (state, journal)).2.1) =
    action.run state

namespace Tracks

theorem pure (a : α) : Tracks (σ := σ) (Pure.pure a) (Pure.pure a) := fun _ _ => rfl

theorem bind {recorded : StateM (σ × Journal σ) α} {action : StateM σ α}
    {recordedNext : α → StateM (σ × Journal σ) β} {next : α → StateM σ β}
    (h : Tracks recorded action) (hnext : ∀ a, Tracks (recordedNext a) (next a)) :
    Tracks (recorded >>= recordedNext) (action >>= next) := by
  intro state journal
  have hfirst := h state journal
  rw [StateT.run_bind, StateT.run_bind, ← hfirst]
  exact hnext _ _ _

theorem unrecorded (action : StateM σ α) : Tracks (unrecorded action) action := fun _ _ => rfl

theorem recording (deed : α → Deed) (action : StateM σ α) : Tracks (recording deed action) action :=
  fun _ _ => rfl

theorem bindExcept {ε : Type} {recorded : ExceptT ε (StateM (σ × Journal σ)) α}
    {action : ExceptT ε (StateM σ) α} {recordedNext : α → ExceptT ε (StateM (σ × Journal σ)) β}
    {next : α → ExceptT ε (StateM σ) β} (h : Tracks recorded.run action.run)
    (hnext : ∀ a, Tracks (recordedNext a).run (next a).run) :
    Tracks (recorded >>= recordedNext).run (action >>= next).run := by
  rw [ExceptT.run_bind, ExceptT.run_bind]
  refine h.bind fun result => ?_
  cases result with
  | ok a => exact hnext a
  | error error => exact pure _

theorem lift {ε : Type} {recorded : StateM (σ × Journal σ) α} {action : StateM σ α}
    (h : Tracks recorded action) :
    Tracks (ExceptT.lift (ε := ε) recorded).run (ExceptT.lift action).run :=
  h.bind fun _ => pure _

variable (host : Host (StateM σ))

theorem readSource (input : String) :
    Tracks (readSource host.recorded input).run (readSource host input).run := by
  refine bindExcept (lift (unrecorded _)) fun read => ?_
  cases read with
  | error reason => exact pure _
  | ok content =>
    dsimp only
    cases String.fromUTF8? content with
    | none => exact pure _
    | some source => exact pure _

theorem reported (file source : String) (outcome : Except Fault α) :
    Tracks (σ := σ) (reported file source outcome).run (reported file source outcome).run := by
  cases outcome with
  | ok a => exact pure _
  | error fault => exact pure _

theorem readProgram (mode : Mode) (input : String) :
    Tracks (readProgram host.recorded mode input).run (readProgram host mode input).run :=
  bindExcept (readSource host input) fun source => reported input source _

theorem firstCompiler (arguments compilers : List String) :
    Tracks (firstCompiler host.recorded arguments compilers)
      (firstCompiler host arguments compilers) := by
  induction compilers with
  | nil => exact pure _
  | cons compiler rest ih =>
    refine bind (recording _ _) fun status? => ?_
    split
    · exact pure _
    · exact ih

theorem build (input : String) (output? : Option String) (emitAssembly : Bool)
    (program : Program) :
    Tracks (build host.recorded input output? emitAssembly program).run
      (build host input output? emitAssembly program).run := by
  refine bindExcept ?_ fun (listing, executable) => ?_
  · cases outputPaths input output? emitAssembly with
    | error failure => exact pure _
    | ok paths => exact pure _
  refine bindExcept (lift (recording _ _)) fun written => ?_
  cases written with
  | error reason => exact pure _
  | ok _ =>
    dsimp only
    split
    · exact pure _
    · refine bindExcept (lift (firstCompiler host _ _)) fun compiler? => ?_
      refine bindExcept (lift (recording _ _)) fun _ => ?_
      cases compiler? with
      | none => exact pure _
      | some compiler => exact pure _

theorem perform (invocation : Invocation) :
    Tracks (perform host.recorded invocation).run (perform host invocation).run := by
  obtain ⟨mode, jsonErrors, job, input⟩ := invocation
  cases job with
  | lex json =>
    refine bindExcept (readSource host input) fun source => ?_
    refine bindExcept (reported input source _) fun lexemes => ?_
    cases json <;> exact pure _
  | parse json =>
    refine bindExcept (readProgram host mode input) fun program => ?_
    cases json <;> exact pure _
  | run => exact bindExcept (readProgram host mode input) fun program => pure _
  | build output? emitAssembly =>
    exact bindExcept (readProgram host mode input) fun program => build host input _ _ program
  | check => exact bindExcept (readProgram host mode input) fun program => pure _

theorem execute (arguments : List String) :
    Tracks (execute host.recorded arguments) (execute host arguments) := by
  rw [Command.execute, Command.execute]
  split
  · exact pure _
  · exact pure _
  · refine bind (perform host _) fun result => ?_
    cases result with
    | ok text => exact pure _
    | error failure => exact pure _

end Tracks

end Recording

end StraightLine.Command
