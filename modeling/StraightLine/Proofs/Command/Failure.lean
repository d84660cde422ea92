import StraightLine.Proofs.Command.Delivery
import StraightLine.Proofs.Json
import StraightLine.Proofs.Report

/-!
# Which failures are reported

A job can fail because of a fault, in the source or of the compilers, or because
a file is not what it should be. Asked for reports in JSON, an invocation gives
one for a fault, and the report can be read back. A failure with files is no
fault: it is a line of text as always.
-/

namespace StraightLine.Command

/-- What is said is the report of the fault and nothing else. -/
structure Outcome.Reports (outcome : Outcome) (report : Report) (fault : Fault)
    (file source : String) : Prop where
  report_eq : Report.ofFault? fault file source = some report
  code_eq : report.code = fault.code
  output_eq : outcome.output = report.pretty ++ "\n"
  errors_eq : outcome.errors = ""
  read_eq : (Json.read? report.pretty).bind Report.ofJson? = some report

theorem Outcome.reports_ofFailure {report : Report} {fault : Fault} {file source : String}
    (h : Report.ofFault? fault file source = some report) :
    (ofFailure true (.fault report)).Reports report fault file source where
  report_eq := h
  code_eq := Report.code_of_ofFault? h
  output_eq := rfl
  errors_eq := rfl
  read_eq := report.read?_text .pretty

namespace Workshop

/-- The text of a file, or why there is none. -/
def text (workshop : Workshop) (path : String) : Except String String :=
  match workshop.disk.read path with
  | .error error => .error error.message
  | .ok content =>
    match String.fromUTF8? content with
    | some source => .ok source
    | none => .error "stream did not contain valid UTF-8"

section Causes

variable (workshop : Workshop) (mode : Mode) (job : Job) (input : String)

/-- The text of the input is a program. -/
def Provides (program : Program) : Prop :=
  ∃ source, workshop.text input = .ok source ∧ Program.ofSource mode source = .ok program

/-- The fault of a job, and the text it is about: the source is not a program, or no compiler takes
the listing. -/
inductive Finds : String → Fault → Prop
  | unparsed {source : String} {fault : Fault} (hjob : ∀ json, job ≠ .lex json)
      (hsource : workshop.text input = .ok source)
      (hfault : Program.ofSource mode source = .error fault) : Finds source fault
  | unassembled {output? : Option String} {program : Program} {listing executable : String}
      {disk : Disk} {tries : Journal Workshop} {after : Workshop}
      (hjob : job = .build output? false) (hprogram : workshop.Provides mode input program)
      (hpaths : outputPaths input output? false = .ok (listing, executable))
      (hwrite : workshop.disk.write listing program.assembly.toUTF8 = .ok disk)
      (htries : Tries ["-no-pie", "-o", executable, listing] { workshop with disk }
        Command.compilers tries none after) :
      Finds "" (.assembler "could not assemble with cc, gcc or clang")

/-- What stops a job and is no fault: its input has no text, an output would be written over the
input, or the listing cannot be written. -/
inductive Stops : Failure → Prop
  | unread {reason : String} (hread : workshop.text input = .error reason) :
      Stops (.reading input reason)
  | refused {output? : Option String} {emitAssembly : Bool} {program : Program}
      {failure : Failure} (hjob : job = .build output? emitAssembly)
      (hprogram : workshop.Provides mode input program)
      (hpaths : outputPaths input output? emitAssembly = .error failure) : Stops failure
  | unwritten {output? : Option String} {emitAssembly : Bool} {program : Program}
      {listing executable : String} {error : DiskError}
      (hjob : job = .build output? emitAssembly) (hprogram : workshop.Provides mode input program)
      (hpaths : outputPaths input output? emitAssembly = .ok (listing, executable))
      (hwrite : workshop.disk.write listing program.assembly.toUTF8 = .error error) :
      Stops (.writing listing error.message)

end Causes

section Failing

variable {workshop after : Workshop} {mode : Mode} {job : Job} {input : String}

-- The constructors say which equations hold at each stage, and two that differ never agree on all.
theorem Finds.not_stops {source : String} {fault : Fault} {failure : Failure}
    (h : workshop.Finds mode job input source fault) :
    ¬ workshop.Stops mode job input failure := by
  intro hstops
  cases h <;> cases hstops <;> grind [Provides]

theorem Stops.unique {one other : Failure} (h : workshop.Stops mode job input one)
    (hother : workshop.Stops mode job input other) : one = other := by
  cases h <;> cases hother <;> grind [Provides]

theorem exists_overwriting_of_outputPaths {output? : Option String} {emitAssembly : Bool}
    {failure : Failure} (h : outputPaths input output? emitAssembly = .error failure) :
    ∃ output path, failure = .overwriting output path := by
  simp only [outputPaths] at h
  grind

theorem Stops.ofFailure_eq {failure : Failure} (h : workshop.Stops mode job input failure)
    (jsonErrors : Bool) :
    Outcome.ofFailure jsonErrors failure = ⟨1, "", "Error: " ++ failure.message ++ "\n"⟩ := by
  cases h with
  | unread => rfl
  | refused _ _ hpaths =>
    obtain ⟨output, path, rfl⟩ := exists_overwriting_of_outputPaths hpaths
    rfl
  | unwritten => rfl

/-- The failure of a job has one of its causes. -/
def Fails (workshop : Workshop) (mode : Mode) (job : Job) (input : String)
    (failure : Failure) : Prop :=
  (∃ source fault report, workshop.Finds mode job input source fault ∧
    Report.ofFault? fault input source = some report ∧ failure = .fault report) ∨
  workshop.Stops mode job input failure

theorem run_readSource (workshop : Workshop) (input : String) :
    (readSource host input).run.run workshop =
      ((workshop.text input).mapError (.reading input), workshop) := by
  have hhost : (host.read input).run workshop =
      ((workshop.disk.read input).mapError DiskError.message, workshop) := rfl
  rw [readSource, text]
  refine (run_bind_ok (run_lift hhost)).trans ?_
  cases workshop.disk.read input with
  | error error => rfl
  | ok content =>
    dsimp only [Except.mapError]
    cases String.fromUTF8? content <;> rfl

theorem reportOf_eq {fault : Fault} {file source : String} {report : Report}
    (h : Report.ofFault? fault file source = some report) :
    reportOf fault file source = report := by
  rw [reportOf, h]
  rfl

theorem run_readProgram (workshop : Workshop) (mode : Mode) (input : String) :
    (readProgram host mode input).run.run workshop =
      (((workshop.text input).mapError (.reading input)).bind fun source =>
        (Program.ofSource mode source).mapError fun fault => .fault (reportOf fault input source),
        workshop) := by
  have hread := run_readSource workshop input
  rw [readProgram]
  cases htext : workshop.text input with
  | error reason =>
    rw [htext] at hread
    exact run_bind_error hread
  | ok source =>
    rw [htext] at hread
    rw [run_bind_ok hread]
    dsimp only [Except.mapError, Except.bind]
    cases Program.ofSource mode source <;> rfl

/-- A job that needs a program fails with its input, or else in what it does with the program that
its input provides. -/
theorem fails_of_readProgram {next : Program → ExceptT Failure (StateM Workshop) String}
    {failure : Failure} (hjob : ∀ json, job ≠ .lex json)
    (hnext : ∀ program, workshop.Provides mode input program →
      (next program).run.run workshop = (.error failure, after) →
        workshop.Fails mode job input failure)
    (h : (readProgram host mode input >>= next).run.run workshop = (.error failure, after)) :
    workshop.Fails mode job input failure := by
  have hread := run_readProgram workshop mode input
  cases htext : workshop.text input with
  | error reason =>
    rw [htext] at hread
    rw [run_bind_error hread] at h
    cases h
    exact .inr (.unread htext)
  | ok source =>
    rw [htext] at hread
    cases hprogram : Program.ofSource mode source with
    | error fault =>
      obtain ⟨report, span, location, hplaces⟩ := Report.exists_places_fault input hprogram
      dsimp only [Except.mapError, Except.bind] at hread
      rw [hprogram] at hread
      rw [run_bind_error hread, reportOf_eq hplaces.report_eq] at h
      cases h
      exact .inl ⟨_, _, _, .unparsed hjob htext hprogram, hplaces.report_eq, rfl⟩
    | ok program =>
      dsimp only [Except.mapError, Except.bind] at hread
      rw [hprogram] at hread
      rw [run_bind_ok hread] at h
      exact hnext program ⟨source, htext, hprogram⟩ h

/-- A build of a program fails for a cause of its own. -/
theorem Build.fails {refuses : String → Bool} {output? : Option String} {emitAssembly : Bool}
    {program : Program} {failure : Failure} {journal : Journal Workshop}
    (h : Build refuses workshop input output? emitAssembly program (.error failure) after journal)
    (hprogram : workshop.Provides mode input program) :
    workshop.Fails mode (.build output? emitAssembly) input failure := by
  cases h with
  | refused hpaths => exact .inr (.refused rfl hprogram hpaths)
  | unwritten hpaths hwrite => exact .inr (.unwritten rfl hprogram hpaths hwrite)
  | unassembled hpaths hwrite hemit htries =>
    subst hemit
    exact .inl ⟨_, _, _, .unassembled rfl hprogram hpaths hwrite htries, rfl, rfl⟩

theorem fails_of_perform {jsonErrors : Bool} {failure : Failure}
    (h : (perform host ⟨mode, jsonErrors, job, input⟩).run.run workshop =
      (.error failure, after)) : workshop.Fails mode job input failure := by
  cases job with
  | lex json =>
    have hread := run_readSource workshop input
    cases htext : workshop.text input with
    | error reason =>
      rw [htext] at hread
      rw [perform, run_bind_error hread] at h
      cases h
      exact .inr (.unread htext)
    | ok source =>
      -- Every text has lexemes, so this job has no fault.
      obtain ⟨lexemes, hlexemes⟩ := Lexeme.exists_analyze_eq_ok mode source
      rw [htext] at hread
      rw [perform, run_bind_ok hread, hlexemes] at h
      cases json <;> cases h
  | parse json =>
    refine fails_of_readProgram nofun (fun program _ h => ?_) h
    cases json <;> cases h
  | run =>
    refine fails_of_readProgram nofun (fun program _ h => ?_) h
    cases h
  | check =>
    refine fails_of_readProgram nofun (fun program _ h => ?_) h
    cases h
  | build output? emitAssembly =>
    refine fails_of_readProgram nofun (fun program hprogram h => ?_) h
    obtain ⟨result, left, journal, hrun, hbuild⟩ :=
      run_build workshop input output? emitAssembly program
    obtain ⟨rfl, rfl⟩ := Prod.mk.inj (hrun.symm.trans h)
    exact hbuild.fails hprogram

/-- What is said of an invocation that fails is what is said of its failure. -/
theorem exists_fails {arguments : List String} {jsonErrors : Bool}
    (hrequest : Request.ofArguments? arguments =
      some (.invoke ⟨mode, jsonErrors, job, input⟩))
    (hstatus : (workshop.execute arguments).1.status = 1) :
    ∃ failure, workshop.Fails mode job input failure ∧
      (workshop.execute arguments).1 = .ofFailure jsonErrors failure := by
  rw [execute, Command.execute, hrequest] at hstatus ⊢
  dsimp only at hstatus ⊢
  cases hrun : (perform host ⟨mode, jsonErrors, job, input⟩).run.run workshop with
  | mk result after =>
    rw [run_invoke hrun] at hstatus ⊢
    cases result with
    | ok text => cases hstatus
    | error failure => exact ⟨failure, fails_of_perform hrun, rfl⟩

/-- Asked for reports in JSON, an invocation that fails gives the report of its fault, unless it is
stopped by a failure that is no fault. -/
theorem exists_reports_iff_not_stops {arguments : List String}
    (hrequest : Request.ofArguments? arguments = some (.invoke ⟨mode, true, job, input⟩))
    (hstatus : (workshop.execute arguments).1.status = 1) :
    ((∃ source fault report, workshop.Finds mode job input source fault ∧
        (workshop.execute arguments).1.Reports report fault input source) ↔
      ∀ failure, ¬ workshop.Stops mode job input failure) ∧
    ∀ failure, workshop.Stops mode job input failure →
      (workshop.execute arguments).1 = ⟨1, "", "Error: " ++ failure.message ++ "\n"⟩ := by
  obtain ⟨failure, hfails, houtcome⟩ := exists_fails hrequest hstatus
  rw [houtcome]
  obtain ⟨source, fault, report, hfinds, hreport, rfl⟩ | hstops := hfails
  · have hfree : ∀ failure, ¬ workshop.Stops mode job input failure := fun _ => hfinds.not_stops
    refine ⟨iff_of_true ?_ hfree, fun other hother => (hfree other hother).elim⟩
    exact ⟨source, fault, report, hfinds, Outcome.reports_ofFailure hreport⟩
  · refine ⟨iff_of_false ?_ fun hfree => hfree failure hstops, fun other hother => ?_⟩
    · rintro ⟨source, fault, report, hfinds, -⟩
      exact hfinds.not_stops hstops
    · rw [hstops.unique hother, hother.ofFailure_eq]

end Failing

/-- A source that is not a program is reported, and so is the lack of a compiler. -/
theorem exists_reports_shed :
    (∃ source fault report,
      (shed "prog.start" "start x end").Finds .pattern .check "prog.start" source fault ∧
      ((shed "prog.start" "start x end").execute
        ["check", "prog.start", "--json-errors"]).1.Reports report fault "prog.start" source) ∧
    ∃ source fault report,
      Finds { shed "prog.start" "start end" with compilers := [] } .pattern (.build none false)
        "prog.start" source fault ∧
      (execute { shed "prog.start" "start end" with compilers := [] }
        ["--json-errors", "build", "prog.start"]).1.Reports report fault "prog.start" source := by
  have hcheck : Request.ofArguments? ["check", "prog.start", "--json-errors"] =
      some (.invoke ⟨.pattern, true, .check, "prog.start"⟩) := by decide +kernel
  have hbuild : Request.ofArguments? ["--json-errors", "build", "prog.start"] =
      some (.invoke ⟨.pattern, true, .build none false, "prog.start"⟩) := by decide +kernel
  constructor
  · refine (exists_reports_iff_not_stops hcheck (by decide +kernel)).1.mpr fun failure hstops => ?_
    have htext : (shed "prog.start" "start x end").text "prog.start" = .ok "start x end" := by
      decide +kernel
    cases hstops with
    | unread hread => cases htext.symm.trans hread
    | refused hjob => cases hjob
    | unwritten hjob => cases hjob
  · refine (exists_reports_iff_not_stops hbuild (by decide +kernel)).1.mpr fun failure hstops => ?_
    have htext : (shed "prog.start" "start end").text "prog.start" = .ok "start end" := by
      decide +kernel
    have hpaths : outputPaths "prog.start" none false = .ok ("prog.s", "prog.out") := by
      decide +kernel
    have hlisting : (shed "prog.start" "start end").disk.Denotes "prog.s" ["prog.s"] := by
      decide +kernel
    cases hstops with
    | unread hread => cases htext.symm.trans hread
    | refused hjob _ hrefused =>
      cases hjob
      cases hpaths.symm.trans hrefused
    | unwritten hjob _ hchosen hwrite =>
      cases hjob
      cases hpaths.symm.trans hchosen
      cases hwrite.symm.trans (Disk.write_eq_ok_iff.mpr ⟨_, hlisting, rfl⟩)

/-- A file that is not there is no fault, and there is no report. -/
theorem not_exists_reports :
    ¬ ∀ (workshop : Workshop) (arguments : List String) (mode : Mode) (job : Job)
      (input : String),
      Request.ofArguments? arguments = some (.invoke ⟨mode, true, job, input⟩) →
      (workshop.execute arguments).1.status = 1 →
      ∃ source fault report,
        (workshop.execute arguments).1.Reports report fault input source := by
  intro h
  have hrequest : Request.ofArguments? ["run", "missing.start", "--json-errors"] =
      some (.invoke ⟨.pattern, true, .run, "missing.start"⟩) := by decide +kernel
  obtain ⟨source, fault, report, hreports⟩ :=
    h (shed "prog.start" "start end") _ _ _ _ hrequest (by decide +kernel)
  exact absurd hreports.errors_eq (by decide +kernel)

end Workshop

end StraightLine.Command
