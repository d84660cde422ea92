import StraightLine.Proofs.Command.Delivery

/-!
# What a failed build leaves

A build that fails leaves every file as it was, but for what the compilers have
written themselves, as long as it has written no listing over a file. The
listing is removed when the compilers have been tried, and what was in its place
before does not come back. Where the removal is refused the listing stays.
-/

namespace StraightLine.Command

/-- Called with these arguments the compiler makes no difference to where the path leads. -/
def Compiler.KeepsPath (arguments : List String) (path : String) (compiler : Compiler) : Prop :=
  ∀ (disk : Disk) (place : Place),
    disk.Denotes path place → (compiler arguments disk).1.Denotes path place

/-- Called with these arguments the compiler does not change the file at the place. -/
def Compiler.LeavesAlone (arguments : List String) (place : Place) (compiler : Compiler) : Prop :=
  ∀ disk : Disk, (compiler arguments disk).1.file? place = disk.file? place

theorem Compiler.keepsPath_recorder (arguments : List String) (path name : String)
    (status : Nat) : (recorder name status).KeepsPath arguments path :=
  fun _ _ h => (Disk.sameTree_put _ _ _).denotes h

theorem Compiler.leavesAlone_recorder (arguments : List String) {place : Place}
    (h : place.getLast? ≠ some "calls.log") (name : String) (status : Nat) :
    (recorder name status).LeavesAlone arguments place := by
  intro disk
  apply Disk.file?_put_of_ne
  rintro rfl
  exact h List.getLast?_concat

namespace Workshop

/-- No call of a compiler changes the file at the place. -/
def CompilersKeep (place : Place) (workshop : Workshop) : Journal Workshop → Prop
  | [] => True
  | (.compile .., after) :: rest =>
    after.disk.file? place = workshop.disk.file? place ∧ after.CompilersKeep place rest
  | (_, after) :: rest => after.CompilersKeep place rest

section Trying

variable {arguments names : List String} {workshop after : Workshop} {tries : Journal Workshop}
  {found? : Option String} {status? : Option Nat} {name path : String} {place : Place}

theorem compilers_compile (h : (host.compile name arguments).run workshop = (status?, after)) :
    after.compilers = workshop.compilers := by
  obtain ⟨-, rfl⟩ | ⟨compiler, -, -, rfl⟩ := eq_or_exists_compiler h <;> rfl

theorem denotes_compile (hpath : ∀ entry ∈ workshop.compilers, entry.2.KeepsPath arguments path)
    (h : (host.compile name arguments).run workshop = (status?, after))
    (hplace : workshop.disk.Denotes path place) : after.disk.Denotes path place := by
  obtain ⟨-, rfl⟩ | ⟨compiler, hcompiler, -, rfl⟩ := eq_or_exists_compiler h
  · exact hplace
  · exact hpath _ hcompiler workshop.disk place hplace

theorem file?_compile
    (halone : ∀ entry ∈ workshop.compilers, entry.2.LeavesAlone arguments place)
    (h : (host.compile name arguments).run workshop = (status?, after)) :
    after.disk.file? place = workshop.disk.file? place := by
  obtain ⟨-, rfl⟩ | ⟨compiler, hcompiler, -, rfl⟩ := eq_or_exists_compiler h
  · rfl
  · exact halone _ hcompiler workshop.disk

theorem Tries.denotes (h : Tries arguments workshop names tries found? after)
    (hpath : ∀ entry ∈ workshop.compilers, entry.2.KeepsPath arguments path)
    (hplace : workshop.disk.Denotes path place) : after.disk.Denotes path place := by
  induction h with
  | none workshop => exact hplace
  | success hcompile => exact denotes_compile hpath hcompile hplace
  | failure hcompile _ _ ih =>
    exact ih (compilers_compile hcompile ▸ hpath) (denotes_compile hpath hcompile hplace)

/-- The compilers that are tried leave a file as it was if none of their calls changes it. -/
theorem Tries.file?_eq (h : Tries arguments workshop names tries found? after)
    {rest : Journal Workshop} (hkeep : workshop.CompilersKeep place (tries ++ rest)) :
    after.disk.file? place = workshop.disk.file? place := by
  induction h with
  | none workshop => rfl
  | success hcompile => exact hkeep.1
  | failure hcompile _ _ ih => exact (ih hkeep.2).trans hkeep.1

theorem Tries.compilersKeep (h : Tries arguments workshop names tries found? after)
    (halone : ∀ entry ∈ workshop.compilers, entry.2.LeavesAlone arguments place)
    {rest : Journal Workshop} (hrest : after.CompilersKeep place rest) :
    workshop.CompilersKeep place (tries ++ rest) := by
  induction h with
  | none workshop => exact hrest
  | success hcompile => exact ⟨file?_compile halone hcompile, hrest⟩
  | failure hcompile _ _ ih =>
    exact ⟨file?_compile halone hcompile, ih (compilers_compile hcompile ▸ halone) hrest⟩

end Trying

/-- Compilers that do not change a place when they are called do not change it in a build. -/
theorem compilersKeep_record {workshop : Workshop} {arguments : List String} {mode : Mode}
    {jsonErrors emitAssembly : Bool} {output? : Option String} {input : String} {place : Place}
    (hrequest : Request.ofArguments? arguments =
      some (.invoke ⟨mode, jsonErrors, .build output? emitAssembly, input⟩))
    (halone : ∀ entry ∈ workshop.compilers,
      entry.2.LeavesAlone (callArguments input output?) place) :
    workshop.CompilersKeep place (workshop.record arguments).2.2 := by
  obtain ⟨failure, hrecord⟩ | ⟨program, result, after, journal, hrecord, -, hbuild⟩ :=
    workshop.record_build hrequest
  · rw [hrecord]
    trivial
  · rw [hrecord]
    cases hbuild with
    | refused | unwritten | generated => trivial
    | assembled hpaths _ hemit htries | unassembled hpaths _ hemit htries =>
      subst hemit
      rw [callArguments_of_outputPaths hpaths] at halone
      exact htries.compilersKeep halone trivial

/-- What an attempt to remove the listing leaves. -/
theorem file?_without_of_write (refuses : String → Bool) {workshop after : Workshop} {disk : Disk}
    {path : String} {content : ByteArray} {place : Place}
    (hwrite : workshop.disk.write path content = .ok disk)
    (hdenotes : ∀ other, disk.Denotes path other → after.disk.Denotes path other)
    (hkeep : after.disk.file? place = disk.file? place) :
    (after.without refuses path).disk.file? place =
      if workshop.disk.Denotes path place then if refuses path then some content else none
      else workshop.disk.file? place := by
  obtain ⟨target, htarget, rfl⟩ := Disk.write_eq_ok_iff.mp hwrite
  have hafter := hdenotes target ((Disk.sameTree_put _ _ _).denotes htarget)
  by_cases hplace : place = target
  · subst hplace
    rw [file?_without refuses hafter, hkeep, Disk.file?_put_self, if_pos htarget]
  · have hfree : ¬ after.disk.Denotes path place := fun h => hplace (h.unique hafter)
    have hbefore : ¬ workshop.disk.Denotes path place := fun h => hplace (h.unique htarget)
    rw [(Keeps.without refuses hfree).file?_eq, hkeep, Disk.file?_put_of_ne _ hplace,
      if_neg hbefore]

section Failing

variable {workshop : Workshop} {arguments : List String} {mode : Mode}
  {jsonErrors emitAssembly : Bool} {output? : Option String} {input : String} {place : Place}

/-- After a build that fails a file is as it was before, unless a compiler has changed it, or the
listing was written over it. The listing is removed then, and stays where that is refused. -/
theorem file?_recordRefusing (refuses : String → Bool) {outcome : Outcome} {after : Workshop}
    {journal : Journal Workshop}
    (hrequest : Request.ofArguments? arguments =
      some (.invoke ⟨mode, jsonErrors, .build output? emitAssembly, input⟩))
    (hpath : ∀ entry ∈ workshop.compilers,
      entry.2.KeepsPath (callArguments input output?) (Path.withExtension input "s"))
    (hrecord : workshop.recordRefusing refuses arguments = (outcome, after, journal))
    (hstatus : outcome.status = 1) (hkeep : workshop.CompilersKeep place journal) :
    ((∀ left, (.remove (Path.withExtension input "s"), left) ∉ journal) ∧
        after.disk.file? place = workshop.disk.file? place) ∨
      ∃ text written left,
        (.write (Path.withExtension input "s") text, written) ∈ journal ∧
        (.remove (Path.withExtension input "s"), left) ∈ journal ∧
        after.disk.file? place =
          if workshop.disk.Denotes (Path.withExtension input "s") place then
            if refuses (Path.withExtension input "s") then some text.toUTF8 else none
          else workshop.disk.file? place := by
  obtain ⟨failure, hfailed⟩ | ⟨program, result, left, deeds, hran, -, hbuild⟩ :=
    workshop.recordRefusing_build refuses hrequest
  · cases hrecord.symm.trans hfailed
    exact .inl ⟨fun _ => List.not_mem_nil, rfl⟩
  cases hrecord.symm.trans hran
  cases hbuild with
  | refused hchosen => exact .inl ⟨fun _ => List.not_mem_nil, rfl⟩
  | unwritten hchosen hwrite =>
    refine .inl ⟨fun left hleft => ?_, rfl⟩
    cases List.mem_singleton.mp hleft
  | generated | assembled => cases hstatus
  | @unassembled listing executable disk after tries hchosen hwrite hemit htries =>
    subst hemit
    obtain ⟨hlisting, -⟩ := eq_of_outputPaths hchosen
    rw [callArguments_of_outputPaths hchosen, hlisting] at hpath
    rw [hlisting]
    refine .inr ⟨program.assembly, _, _, List.mem_cons_self,
      List.mem_cons_of_mem _ List.mem_concat_self, ?_⟩
    exact file?_without_of_write refuses hwrite (fun _ h => htries.denotes hpath h)
      (htries.file?_eq hkeep)

/-- A listing whose removal is refused is left over. -/
example :
    (({ shed "prog.start" "start end" with compilers := [] }.recordRefusing (fun _ => true)
      ["build", "prog.start"]).2.1.disk.file? ["prog.s"]).isSome = true := by
  decide +kernel

/-- After a build that fails a file is as it was before, unless a compiler has changed it, or the
listing was written over it and removed. -/
theorem file?_execute_eq_iff
    (hrequest : Request.ofArguments? arguments =
      some (.invoke ⟨mode, jsonErrors, .build output? emitAssembly, input⟩))
    (hpath : ∀ entry ∈ workshop.compilers,
      entry.2.KeepsPath (callArguments input output?) (Path.withExtension input "s"))
    (hstatus : (workshop.execute arguments).1.status = 1)
    (hkeep : workshop.CompilersKeep place (workshop.record arguments).2.2) :
    (workshop.execute arguments).2.disk.file? place = workshop.disk.file? place ↔
      ¬ ((∃ left, (.remove (Path.withExtension input "s"), left) ∈
          (workshop.record arguments).2.2) ∧
        workshop.disk.Denotes (Path.withExtension input "s") place ∧
        (workshop.disk.file? place).isSome) := by
  obtain ⟨outcome, after, journal, hrecord⟩ : ∃ outcome after journal,
      workshop.record arguments = (outcome, after, journal) := ⟨_, _, _, rfl⟩
  rw [execute_of_record hrecord] at hstatus ⊢
  rw [hrecord] at hkeep ⊢
  -- The host itself refuses nothing.
  obtain ⟨hkept, hfile⟩ | ⟨_, _, left, -, hremoved, hfile⟩ :=
    file?_recordRefusing (fun _ => false) hrequest hpath hrecord hstatus hkeep
  · refine iff_of_true hfile ?_
    rintro ⟨⟨left, hleft⟩, -⟩
    exact hkept left hleft
  · rw [hfile, and_iff_right ⟨left, hremoved⟩]
    by_cases hdenotes : workshop.disk.Denotes (Path.withExtension input "s") place
    · rw [if_pos hdenotes, and_iff_right hdenotes, Option.not_isSome_iff_eq_none]
      exact eq_comm
    · rw [if_neg hdenotes]
      exact iff_of_true rfl fun h => hdenotes h.1

end Failing

/-- A source to be compiled, and a compiler that does not succeed. -/
def idle (disk : Disk) : Workshop :=
  ⟨disk.put ["prog.start"] "start end".toUTF8, [("cc", .recorder "cc" 1)]⟩

theorem keepsPath_idle (disk : Disk) (arguments : List String) (path : String) :
    ∀ entry ∈ (idle disk).compilers, entry.2.KeepsPath arguments path :=
  List.forall_mem_singleton.mpr (Compiler.keepsPath_recorder arguments path _ _)

theorem leavesAlone_idle (disk : Disk) (arguments : List String) :
    ∀ entry ∈ (idle disk).compilers, entry.2.LeavesAlone arguments ["prog.s"] :=
  List.forall_mem_singleton.mpr (Compiler.leavesAlone_recorder arguments (by decide) _ _)

theorem ofArguments?_idle : Request.ofArguments? ["build", "prog.start"] =
    some (.invoke ⟨.pattern, false, .build none false, "prog.start"⟩) := by decide +kernel

/-- Where there was no file before the listing, there is none after it. -/
theorem file?_execute_eq_iff_idle :
    ((idle ⟨[], [], []⟩).execute ["build", "prog.start"]).2.disk.file? ["prog.s"] =
      (idle ⟨[], [], []⟩).disk.file? ["prog.s"] := by
  have hkeep := compilersKeep_record ofArguments?_idle (leavesAlone_idle ⟨[], [], []⟩ _)
  refine (file?_execute_eq_iff ofArguments?_idle (keepsPath_idle _ _ _) (by decide +kernel)
    hkeep).mpr ?_
  rintro ⟨-, -, hfile⟩
  exact absurd hfile (by decide +kernel)

/-- A file in the place of the listing is lost. -/
theorem not_file?_execute_eq :
    ¬ ∀ (workshop : Workshop) (arguments : List String) (mode : Mode)
      (jsonErrors emitAssembly : Bool) (output? : Option String) (input : String) (place : Place),
      Request.ofArguments? arguments =
        some (.invoke ⟨mode, jsonErrors, .build output? emitAssembly, input⟩) →
      (∀ entry ∈ workshop.compilers,
        entry.2.KeepsPath (callArguments input output?) (Path.withExtension input "s")) →
      (workshop.execute arguments).1.status = 1 →
      workshop.CompilersKeep place (workshop.record arguments).2.2 →
      (workshop.execute arguments).2.disk.file? place = workshop.disk.file? place := by
  intro h
  have hkept := h (idle ⟨[], [], [(["prog.s"], "old".toUTF8)]⟩) _ _ _ _ _ _ ["prog.s"]
    ofArguments?_idle (keepsPath_idle _ _ _) (by decide +kernel)
    (compilersKeep_record ofArguments?_idle (leavesAlone_idle _ _))
  exact absurd hkept (by decide +kernel)

end Workshop

end StraightLine.Command
