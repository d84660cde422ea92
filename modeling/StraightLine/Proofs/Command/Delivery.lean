import StraightLine.Proofs.Command.Outputs

/-!
# What a build spares and what it delivers

A build does no harm to its input as long as an output that denotes the input
is also spelled like it: only the spelling is compared. The executable of a
build that succeeds is there in the end unless it has the place of the listing,
which is removed.
-/

namespace StraightLine.Command.Workshop

/-- Neither a deed nor the whole run does harm to the file at the place, and an output that would
do so is refused before anything is done. -/
structure Spares (workshop : Workshop) (arguments : List String) (outputs : List String)
    (place : Place) : Prop where
  deeds : ∀ entry ∈ (workshop.record arguments).2.2, Keeps place workshop entry.2 ∧
    ∀ path ∈ entry.1.path?, ¬ entry.2.disk.Denotes path place
  kept : Keeps place workshop (workshop.execute arguments).2
  refused : ∀ path ∈ outputs, workshop.disk.Denotes path place →
    (workshop.execute arguments).1.status = 1 ∧ (workshop.record arguments).2.2 = []

theorem spares_of_refused {workshop : Workshop} {arguments outputs : List String} {place : Place}
    {jsonErrors : Bool} {failure : Failure}
    (h : workshop.record arguments = (.ofFailure jsonErrors failure, workshop, [])) :
    workshop.Spares arguments outputs place := by
  refine ⟨?_, ?_, fun _ _ _ => ⟨?_, ?_⟩⟩
  · rw [h]
    exact List.forall_mem_nil _
  · rw [execute_of_record h]
    exact .refl _ _
  · rw [execute_of_record h, Outcome.status_ofFailure]
  · rw [h]

/-- A build spares its input unless an output is given that denotes the input and is not spelled
like it. -/
theorem spares_input {workshop : Workshop} {arguments : List String} {mode : Mode}
    {jsonErrors emitAssembly : Bool} {output? : Option String} {input : String} {place : Place}
    (hrequest : Request.ofArguments? arguments =
      some (.invoke ⟨mode, jsonErrors, .build output? emitAssembly, input⟩))
    (hconfined : ∀ entry ∈ workshop.compilers, entry.2.Confined (callArguments input output?))
    (hinput : workshop.disk.Denotes input place)
    (hspelled : ∀ output ∈ output?, workshop.disk.Denotes output place →
      Path.alike output input = true) :
    workshop.Spares arguments (outputs input output? emitAssembly) place := by
  -- An output that has the place of the input is spelled like it.
  have halike : ∀ path ∈ outputs input output? emitAssembly, workshop.disk.Denotes path place →
      Path.alike path input = true := by
    intro path hpath hdenotes
    obtain ⟨extension, hslash, rfl⟩ | houtput := eq_withExtension_of_mem_outputs hpath
    · rw [hdenotes.withExtension_eq hslash hinput]
      exact Path.alike_refl input
    · exact hspelled path houtput hdenotes
  obtain ⟨failure, hrecord⟩ | ⟨program, result, after, journal, hrecord, -, hbuild⟩ :=
    workshop.record_build hrequest
  · exact spares_of_refused hrecord
  · cases hpaths : outputPaths input output? emitAssembly with
    | error failure =>
      obtain ⟨rfl, rfl, rfl⟩ := hbuild.eq_of_refused hpaths
      exact spares_of_refused hrecord
    | ok paths =>
      have hfree : ∀ path ∈ outputs input output? emitAssembly,
          ¬ workshop.disk.Denotes path place := by
        intro path hpath hdenotes
        have htrue := halike path hpath hdenotes
        rw [alike_eq_false_of_mem_outputs hpaths hpath] at htrue
        cases htrue
      obtain ⟨hdeeds, hkept⟩ := hbuild.keeps hconfined hfree
      refine ⟨?_, ?_, fun path hpath hdenotes => absurd hdenotes (hfree path hpath)⟩
      · rw [hrecord]
        exact fun entry hentry => ⟨hdeeds entry hentry, fun path hpath =>
          (hdeeds entry hentry).not_denotes
            (hfree path (hbuild.path_mem_outputs entry hentry path hpath))⟩
      · rw [execute_of_record hrecord]
        exact hkept

/-- A directory with one file in it, and a compiler that writes its target. -/
def shed (path source : String) : Workshop :=
  ⟨⟨[], [], [([path], source.toUTF8)]⟩, [("cc", .writer "executable")]⟩

theorem confined_shed (path source : String) (arguments : List String) :
    ∀ entry ∈ (shed path source).compilers, entry.2.Confined arguments :=
  List.forall_mem_singleton.mpr (Compiler.confined_writer arguments _)

theorem creates_shed (path source : String) (arguments : List String) :
    ∀ entry ∈ (shed path source).compilers, entry.2.Creates arguments :=
  List.forall_mem_singleton.mpr (Compiler.creates_writer arguments _)

/-- An executable of its own is made; an output with the spelling of the input is refused. -/
theorem spares_input_shed :
    (shed "prog.start" "start end").Spares ["build", "prog.start", "-o", "./prog.out"]
      (outputs "prog.start" (some "./prog.out") false) ["prog.start"] ∧
    (shed "prog.start" "start end").Spares ["build", "./prog.start", "-o", ".//prog.start"]
      (outputs "./prog.start" (some ".//prog.start") false) ["prog.start"] := by
  have hmade : Request.ofArguments? ["build", "prog.start", "-o", "./prog.out"] =
      some (.invoke ⟨.pattern, false, .build (some "./prog.out") false, "prog.start"⟩) := by
    decide +kernel
  have hrefused : Request.ofArguments? ["build", "./prog.start", "-o", ".//prog.start"] =
      some (.invoke ⟨.pattern, false, .build (some ".//prog.start") false, "./prog.start"⟩) := by
    decide +kernel
  exact ⟨spares_input hmade (confined_shed _ _ _) (by decide +kernel) (by decide +kernel),
    spares_input hrefused (confined_shed _ _ _) (by decide +kernel) (by decide +kernel)⟩

/-- Behind a dot the output is not spelled like the input, and the listing is written over it. -/
theorem not_spares_input :
    ¬ ∀ (workshop : Workshop) (arguments : List String) (mode : Mode)
      (jsonErrors emitAssembly : Bool) (output? : Option String) (input : String) (place : Place),
      Request.ofArguments? arguments =
        some (.invoke ⟨mode, jsonErrors, .build output? emitAssembly, input⟩) →
      (∀ entry ∈ workshop.compilers, entry.2.Confined (callArguments input output?)) →
      workshop.disk.Denotes input place →
      workshop.Spares arguments (outputs input output? emitAssembly) place := by
  intro h
  have hrequest : Request.ofArguments?
      ["build", "prog.start", "-o", "./prog.start", "--emit-asm"] =
      some (.invoke ⟨.pattern, false, .build (some "./prog.start") true, "prog.start"⟩) := by
    decide +kernel
  have hspares := h (shed "prog.start" "start end") _ _ _ _ _ _ ["prog.start"] hrequest
    (confined_shed _ _ _) (by decide +kernel)
  exact absurd hspares.kept.file?_eq (by decide +kernel)

/-- The last call is the one that succeeds. -/
theorem Tries.exists_success {arguments names : List String} {workshop after : Workshop}
    {tries : Journal Workshop} {name : String}
    (h : Tries arguments workshop names tries (some name) after) :
    ∃ before compiler disk,
      tries = before ++ [(.compile name arguments (some 0), after)] ∧
      (name, compiler) ∈ workshop.compilers ∧ compiler arguments disk = (after.disk, 0) := by
  generalize hfound : some name = found? at h
  induction h with
  | none workshop => cases hfound
  | @success workshop after other rest hcompile =>
    cases hfound
    obtain ⟨hstatus, -⟩ | ⟨compiler, hcompiler, hstatus, rfl⟩ := eq_or_exists_compiler hcompile
    · cases hstatus
    · exact ⟨[], compiler, workshop.disk, rfl, hcompiler,
        Prod.ext rfl (Option.some.inj hstatus).symm⟩
  | @failure workshop next after other rest status? tries found? hcompile _ _ ih =>
    obtain ⟨before, compiler, disk, rfl, hcompiler, hafter⟩ := ih hfound
    refine ⟨(.compile other arguments status?, next) :: before, compiler, disk, rfl, ?_, hafter⟩
    obtain ⟨-, rfl⟩ | ⟨_, _, _, rfl⟩ := eq_or_exists_compiler hcompile
    · exact hcompiler
    · exact hcompiler

theorem Tries.exists_created {arguments names : List String} {workshop after : Workshop}
    {tries : Journal Workshop} {name target : String}
    (h : Tries arguments workshop names tries (some name) after)
    (hcreates : ∀ entry ∈ workshop.compilers, entry.2.Creates arguments)
    (htarget : target ∈ Compiler.target? arguments) :
    (∃ before, tries = before ++ [(.compile name arguments (some 0), after)]) ∧
      ∃ place, after.disk.Denotes target place ∧ (after.disk.file? place).isSome := by
  obtain ⟨before, compiler, disk, htries, hcompiler, hrun⟩ := h.exists_success
  have hcreated := hcreates _ hcompiler disk
  simp only [hrun] at hcreated
  exact ⟨⟨before, htries⟩, hcreated trivial target htarget⟩

section Removing

variable (refuses : String → Bool) {workshop : Workshop} {path : String} {place : Place}

theorem sameTree_without (workshop : Workshop) (path : String) :
    workshop.disk.SameTree (workshop.without refuses path).disk := by
  rw [without]
  split
  · exact .refl _
  split
  · rename_i disk hremove
    obtain ⟨place, _, _, rfl⟩ := Disk.remove_eq_ok_iff.mp hremove
    exact Disk.sameTree_erase _ _
  · exact .refl _

theorem file?_without (h : workshop.disk.Denotes path place) :
    (workshop.without refuses path).disk.file? place =
      if refuses path then workshop.disk.file? place else none := by
  rw [without]
  split
  · rfl
  cases hremove : workshop.disk.remove path with
  | ok disk =>
    obtain ⟨other, hother, _, rfl⟩ := Disk.remove_eq_ok_iff.mp hremove
    obtain rfl := h.unique hother
    exact Disk.file?_erase_self _ _
  | error error =>
    rw [← Option.not_isSome_iff_eq_none]
    intro hfile
    rw [Disk.remove_eq_ok_iff.mpr ⟨place, h, hfile, rfl⟩] at hremove
    cases hremove

end Removing

/-- The run of a build in which a compiler succeeds and then the listing is removed. -/
structure Assembles (workshop : Workshop) (arguments : List String)
    (name executable listing : String) (assembled : Workshop) (place : Place) : Prop where
  outcome_eq : (workshop.execute arguments).1 =
    .success ("  [✓] Assembled with " ++ name ++ "\n\n✅ Output: " ++ executable ++ "\n")
  journal_eq : ∃ before, (workshop.record arguments).2.2 = before ++
    [(.compile name ["-no-pie", "-o", executable, listing] (some 0), assembled),
      (.remove listing, (workshop.execute arguments).2)]
  denotes : assembled.disk.Denotes executable place
  isSome : (assembled.disk.file? place).isSome

/-- The path still leads to the place, and what was there still is. -/
def Leads (path : String) (place : Place) (before after : Workshop) : Prop :=
  after.disk.Denotes path place ∧ after.disk.file? place = before.disk.file? place

theorem leads_without_iff (refuses : String → Bool) (other : String) {workshop : Workshop}
    {path : String} {place : Place} (h : workshop.disk.Denotes path place)
    (hfile : (workshop.disk.file? place).isSome) :
    Leads path place workshop (workshop.without refuses other) ↔
      (workshop.disk.Denotes other place → refuses other = true) := by
  constructor
  · rintro ⟨-, hkept⟩ hother
    by_contra hgranted
    rw [file?_without refuses hother, if_neg hgranted] at hkept
    rw [← hkept] at hfile
    cases hfile
  · intro hother
    refine ⟨(sameTree_without refuses workshop other).denotes h, ?_⟩
    by_cases hdenotes : workshop.disk.Denotes other place
    · rw [file?_without refuses hdenotes, if_pos (hother hdenotes)]
    · exact (Keeps.without refuses hdenotes).file?_eq

/-- A build that succeeds delivers the executable it names, unless the listing has its place. -/
theorem exists_assembles {workshop : Workshop} {arguments : List String} {mode : Mode}
    {jsonErrors : Bool} {output? : Option String} {input : String}
    (hrequest : Request.ofArguments? arguments =
      some (.invoke ⟨mode, jsonErrors, .build output? false, input⟩))
    (hcreates : ∀ entry ∈ workshop.compilers, entry.2.Creates (callArguments input output?))
    (hstatus : (workshop.execute arguments).1.status = 0) :
    ∃ name assembled place,
      workshop.Assembles arguments name (output?.getD (Path.withExtension input "out"))
        (Path.withExtension input "s") assembled place ∧
      (Leads (output?.getD (Path.withExtension input "out")) place assembled
          (workshop.execute arguments).2 ↔
        ¬ assembled.disk.Denotes (Path.withExtension input "s") place) ∧
      (output? = none → Leads (output?.getD (Path.withExtension input "out")) place assembled
        (workshop.execute arguments).2) := by
  obtain ⟨failure, hrecord⟩ | ⟨program, result, after, journal, hrecord, -, hbuild⟩ :=
    workshop.record_build hrequest
  · rw [execute_of_record hrecord, Outcome.status_ofFailure] at hstatus
    cases hstatus
  rw [execute_of_record hrecord] at hstatus
  obtain ⟨text, rfl⟩ := Outcome.exists_ok_of_status hstatus
  -- With a text to say, and an executable to make, a build can only have gone one way.
  cases hbuild with
  | generated hpaths hwrite hemit => cases hemit
  | @assembled listing executable name disk assembled tries hpaths hwrite hemit htries =>
    obtain ⟨hlisting, hexecutable⟩ := eq_of_outputPaths hpaths
    rw [callArguments_of_outputPaths hpaths] at hcreates
    obtain ⟨⟨before, rfl⟩, place, hplace, hfile⟩ := htries.exists_created hcreates rfl
    have hleads : Leads executable place assembled (assembled.without (fun _ => false) listing) ↔
        ¬ assembled.disk.Denotes listing place := by
      rw [leads_without_iff _ listing hplace hfile, Bool.false_eq_true]
    have hdefault : output? = none → ¬ assembled.disk.Denotes listing place := by
      rintro rfl hdenotes
      rw [← hlisting] at hdenotes
      rw [← hexecutable] at hplace
      exact absurd (hdenotes.extension_eq (by decide) (by decide) hplace) (by decide)
    rw [hlisting, hexecutable]
    refine ⟨name, assembled, place, ⟨?_, ?_, hplace, hfile⟩, ?_, fun hnone => ?_⟩
    · rw [execute_of_record hrecord, Outcome.ofResult]
    · rw [execute_of_record hrecord, hrecord]
      refine ⟨(.write listing program.assembly, { workshop with disk }) :: before, ?_⟩
      rw [List.append_assoc]
      rfl
    · rw [execute_of_record hrecord]
      exact hleads
    · rw [execute_of_record hrecord]
      exact hleads.mpr (hdefault hnone)

/-- The executable is where the output says, and stays there. -/
theorem exists_assembles_shed :
    ∃ name assembled place,
      (shed "prog.start" "start end").Assembles ["build", "prog.start", "-o", "prog"] name "prog"
        "prog.s" assembled place ∧
      Leads "prog" place assembled
        ((shed "prog.start" "start end").execute ["build", "prog.start", "-o", "prog"]).2 := by
  have hrequest : Request.ofArguments? ["build", "prog.start", "-o", "prog"] =
      some (.invoke ⟨.pattern, false, .build (some "prog") false, "prog.start"⟩) := by
    decide +kernel
  have hlisting : Path.withExtension "prog.start" "s" = "prog.s" := by decide +kernel
  obtain ⟨name, assembled, place, hassembles, hleads, -⟩ := exists_assembles hrequest
    (creates_shed "prog.start" "start end" _) (by decide +kernel)
  rw [hlisting] at hassembles hleads
  refine ⟨name, assembled, place, hassembles, hleads.mpr fun hdenotes => ?_⟩
  have hname := hassembles.denotes.getLast?_eq.1.symm.trans hdenotes.getLast?_eq.1
  exact absurd hname (by decide +kernel)

/-- An output with the place of the listing is removed with it. -/
theorem not_exists_assembles_leads :
    ¬ ∀ (workshop : Workshop) (arguments : List String) (mode : Mode) (jsonErrors : Bool)
      (output? : Option String) (input : String),
      Request.ofArguments? arguments =
        some (.invoke ⟨mode, jsonErrors, .build output? false, input⟩) →
      (∀ entry ∈ workshop.compilers, entry.2.Creates (callArguments input output?)) →
      (workshop.execute arguments).1.status = 0 →
      ∃ name assembled place,
        workshop.Assembles arguments name (output?.getD (Path.withExtension input "out"))
          (Path.withExtension input "s") assembled place ∧
        Leads (output?.getD (Path.withExtension input "out")) place assembled
          (workshop.execute arguments).2 := by
  intro h
  have hrequest : Request.ofArguments? ["build", "prog.start", "-o", "prog.s"] =
      some (.invoke ⟨.pattern, false, .build (some "prog.s") false, "prog.start"⟩) := by
    decide +kernel
  obtain ⟨name, assembled, place, hassembles, hplace, hkept⟩ :=
    h (shed "prog.start" "start end") _ _ _ _ _ hrequest (creates_shed _ _ _) (by decide +kernel)
  have hdenotes : ((shed "prog.start" "start end").execute
      ["build", "prog.start", "-o", "prog.s"]).2.disk.Denotes "prog.s" ["prog.s"] := by
    decide +kernel
  have hgone : ((shed "prog.start" "start end").execute
      ["build", "prog.start", "-o", "prog.s"]).2.disk.file? ["prog.s"] = none := by
    decide +kernel
  obtain rfl := hplace.unique hdenotes
  have hfile := hassembles.isSome
  rw [← hkept, hgone] at hfile
  cases hfile

end StraightLine.Command.Workshop
