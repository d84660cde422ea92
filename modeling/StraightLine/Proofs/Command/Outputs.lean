import StraightLine.Proofs.Command.Build
import StraightLine.Proofs.Disk

/-!
# Outputs of a build

Compilers that write nothing but what they are asked to make leave a build with
no way to change a place that none of its outputs denotes.
-/

namespace StraightLine.Command

namespace Compiler

/-- What a compiler is asked to make. -/
def target? : List String → Option String
  | option :: target :: rest =>
    if option = "-o" then some target else target? (target :: rest)
  | _ => none

/-- Called with these arguments the compiler writes nothing but its target. -/
def Confined (arguments : List String) (compiler : Compiler) : Prop :=
  ∀ disk : Disk,
    disk.SameTree (compiler arguments disk).1 ∧
    ∀ place : Place, (∀ target ∈ target? arguments, ¬ disk.Denotes target place) →
      (compiler arguments disk).1.file? place = disk.file? place

/-- When this call of the compiler exits with zero its target is there. -/
def Creates (arguments : List String) (compiler : Compiler) : Prop :=
  ∀ disk : Disk, (compiler arguments disk).2 = 0 →
    ∀ target ∈ target? arguments, ∃ place : Place,
      (compiler arguments disk).1.Denotes target place ∧
      ((compiler arguments disk).1.file? place).isSome

/-- A compiler that writes a fixed text to its target. -/
def writer (text : String) : Compiler := fun arguments disk =>
  match target? arguments with
  | none => (disk, 1)
  | some target =>
    match disk.write target text.toUTF8 with
    | .ok after => (after, 0)
    | .error _ => (disk, 1)

theorem confined_writer (arguments : List String) (text : String) :
    Confined arguments (writer text) := by
  intro disk
  rw [writer]
  split
  · exact ⟨.refl disk, fun _ _ => rfl⟩
  · rename_i target htarget
    split
    · rename_i after hwrite
      obtain ⟨other, hother, rfl⟩ := Disk.write_eq_ok_iff.mp hwrite
      refine ⟨Disk.sameTree_put _ _ _, fun place hfree => ?_⟩
      have hne : place ≠ other := by rintro rfl; exact hfree target htarget hother
      exact Disk.file?_put_of_ne disk hne _
    · exact ⟨.refl disk, fun _ _ => rfl⟩

theorem creates_writer (arguments : List String) (text : String) :
    Creates arguments (writer text) := by
  intro disk hstatus target htarget
  rw [Option.mem_def] at htarget
  simp only [writer, htarget] at hstatus ⊢
  split at hstatus
  · rename_i after hwrite
    obtain ⟨place, hplace, rfl⟩ := Disk.write_eq_ok_iff.mp hwrite
    refine ⟨place, (Disk.sameTree_put _ _ _).denotes hplace, ?_⟩
    rw [Disk.file?_put_self, Option.isSome_some]
  · cases hstatus

end Compiler

/-- The path a deed is done to. -/
def Deed.path? : Deed → Option String
  | write path _ => some path
  | remove path => some path
  | compile _ arguments _ => Compiler.target? arguments

/-- The files a build makes. -/
def outputs (input : String) (output? : Option String) (emitAssembly : Bool) : List String :=
  if emitAssembly then [output?.getD (Path.withExtension input "s")]
  else [Path.withExtension input "s", output?.getD (Path.withExtension input "out")]

/-- The arguments with which a build calls the compilers. -/
def callArguments (input : String) (output? : Option String) : List String :=
  ["-no-pie", "-o", output?.getD (Path.withExtension input "out"), Path.withExtension input "s"]

section Outputs

variable {input path listing executable : String} {output? : Option String} {emitAssembly : Bool}

theorem outputs_of_outputPaths
    (h : outputPaths input output? emitAssembly = .ok (listing, executable)) :
    outputs input output? emitAssembly =
      if emitAssembly then [listing] else [listing, executable] := by
  rw [outputPaths] at h
  cases emitAssembly with
  | true =>
    simp only [if_true, Bool.not_true, Bool.false_and, Bool.false_eq_true, if_false] at h
    split at h
    · cases h
    · obtain ⟨hlisting, -⟩ := Prod.mk.inj (Except.ok.inj h)
      rw [outputs, if_pos rfl, if_pos rfl, hlisting]
  | false =>
    simp only [Bool.false_eq_true, if_false, Bool.not_false, Bool.true_and] at h
    split at h
    · cases h
    split at h
    · cases h
    · obtain ⟨hlisting, hexecutable⟩ := Prod.mk.inj (Except.ok.inj h)
      rw [outputs, if_neg Bool.false_ne_true, if_neg Bool.false_ne_true, hlisting, hexecutable]

theorem eq_of_outputPaths (h : outputPaths input output? false = .ok (listing, executable)) :
    Path.withExtension input "s" = listing ∧
      output?.getD (Path.withExtension input "out") = executable := by
  have houtputs := outputs_of_outputPaths h
  simpa only [outputs, Bool.false_eq_true, if_false, List.cons.injEq, and_true] using houtputs

theorem callArguments_of_outputPaths
    (h : outputPaths input output? false = .ok (listing, executable)) :
    callArguments input output? = ["-no-pie", "-o", executable, listing] := by
  obtain ⟨hlisting, hexecutable⟩ := eq_of_outputPaths h
  rw [callArguments, hlisting, hexecutable]

theorem alike_eq_false_of_mem_outputs
    (h : outputPaths input output? emitAssembly = .ok (listing, executable))
    (hpath : path ∈ outputs input output? emitAssembly) : Path.alike path input = false := by
  obtain ⟨hlisting, hexecutable⟩ := not_alike_of_outputPaths h
  rw [outputs_of_outputPaths h] at hpath
  cases emitAssembly with
  | true =>
    obtain rfl := List.mem_singleton.mp hpath
    exact hlisting
  | false =>
    obtain rfl | hpath := List.mem_cons.mp hpath
    · exact hlisting
    · obtain rfl := List.mem_singleton.mp hpath
      exact hexecutable rfl

theorem eq_withExtension_of_mem_outputs (h : path ∈ outputs input output? emitAssembly) :
    (∃ extension : String, '/' ∉ extension.toList ∧ path = Path.withExtension input extension) ∨
      output? = some path := by
  have hs : ∃ extension : String, '/' ∉ extension.toList ∧
      Path.withExtension input "s" = Path.withExtension input extension := ⟨"s", by decide, rfl⟩
  have hout : ∃ extension : String, '/' ∉ extension.toList ∧
      Path.withExtension input "out" = Path.withExtension input extension := ⟨"out", by decide, rfl⟩
  cases emitAssembly with
  | true =>
    obtain rfl := List.mem_singleton.mp h
    cases output? with
    | none => exact .inl hs
    | some out => exact .inr rfl
  | false =>
    obtain rfl | h := List.mem_cons.mp h
    · exact .inl hs
    · obtain rfl := List.mem_singleton.mp h
      cases output? with
      | none => exact .inl hout
      | some out => exact .inr rfl

end Outputs

namespace Workshop

/-- The compilers, the directories and the file at the place are the same. -/
structure Keeps (place : Place) (before after : Workshop) : Prop where
  compilers_eq : after.compilers = before.compilers
  sameTree : before.disk.SameTree after.disk
  file?_eq : after.disk.file? place = before.disk.file? place

namespace Keeps

variable {place : Place} {workshop next after : Workshop} {path : String}

theorem refl (place : Place) (workshop : Workshop) : Keeps place workshop workshop :=
  ⟨rfl, .refl _, rfl⟩

theorem trans (h : Keeps place workshop next) (hnext : Keeps place next after) :
    Keeps place workshop after :=
  ⟨hnext.compilers_eq.trans h.compilers_eq, h.sameTree.trans hnext.sameTree,
    hnext.file?_eq.trans h.file?_eq⟩

theorem not_denotes (h : Keeps place workshop after) (hfree : ¬ workshop.disk.Denotes path place) :
    ¬ after.disk.Denotes path place :=
  fun hafter => hfree (h.sameTree.denotes_iff.mpr hafter)

theorem write {content : ByteArray} {disk : Disk} (hfree : ¬ workshop.disk.Denotes path place)
    (h : workshop.disk.write path content = .ok disk) :
    Keeps place workshop { workshop with disk } := by
  obtain ⟨other, hother, rfl⟩ := Disk.write_eq_ok_iff.mp h
  have hne : place ≠ other := by rintro rfl; exact hfree hother
  exact ⟨rfl, Disk.sameTree_put _ _ _, Disk.file?_put_of_ne _ hne content⟩

theorem without (refuses : String → Bool) (hfree : ¬ workshop.disk.Denotes path place) :
    Keeps place workshop (workshop.without refuses path) := by
  rw [Workshop.without]
  split
  · exact refl place workshop
  split
  · rename_i disk hremove
    obtain ⟨other, hother, _, rfl⟩ := Disk.remove_eq_ok_iff.mp hremove
    have hne : place ≠ other := by rintro rfl; exact hfree hother
    exact ⟨rfl, Disk.sameTree_erase _ _, Disk.file?_erase_of_ne _ hne⟩
  · exact refl place workshop

theorem compile {name : String} {arguments : List String} {status? : Option Nat}
    (hconfined : ∀ entry ∈ workshop.compilers, entry.2.Confined arguments)
    (hfree : ∀ target ∈ Compiler.target? arguments, ¬ workshop.disk.Denotes target place)
    (h : (host.compile name arguments).run workshop = (status?, after)) :
    Keeps place workshop after := by
  obtain ⟨-, rfl⟩ | ⟨compiler, hcompiler, -, rfl⟩ := eq_or_exists_compiler h
  · exact refl place after
  · obtain ⟨htree, hfile⟩ := hconfined _ hcompiler workshop.disk
    exact ⟨rfl, htree, hfile place hfree⟩

end Keeps

/-- Compilers that write their target alone keep every other place, one after another. -/
theorem Tries.keeps {arguments names : List String} {workshop after : Workshop}
    {tries : Journal Workshop} {found? : Option String} {place : Place}
    (h : Tries arguments workshop names tries found? after)
    (hconfined : ∀ entry ∈ workshop.compilers, entry.2.Confined arguments)
    (hfree : ∀ target ∈ Compiler.target? arguments, ¬ workshop.disk.Denotes target place) :
    (∀ entry ∈ tries, Keeps place workshop entry.2) ∧ Keeps place workshop after := by
  induction h with
  | none workshop => exact ⟨List.forall_mem_nil _, .refl place workshop⟩
  | success hcompile =>
    have hkeeps := Keeps.compile hconfined hfree hcompile
    exact ⟨List.forall_mem_singleton.mpr hkeeps, hkeeps⟩
  | failure hcompile _ _ ih =>
    have hkeeps := Keeps.compile hconfined hfree hcompile
    obtain ⟨htries, hafter⟩ := ih (hkeeps.compilers_eq ▸ hconfined)
      fun target htarget => hkeeps.not_denotes (hfree target htarget)
    refine ⟨List.forall_mem_cons.mpr ⟨hkeeps, fun entry hentry => ?_⟩, hkeeps.trans hafter⟩
    exact hkeeps.trans (htries entry hentry)

/-- Every deed of the compilers is a call of one of them. -/
theorem Tries.path?_eq {arguments names : List String} {workshop after : Workshop}
    {tries : Journal Workshop} {found? : Option String}
    (h : Tries arguments workshop names tries found? after) :
    ∀ entry ∈ tries, entry.1.path? = Compiler.target? arguments := by
  induction h with
  | none workshop => exact List.forall_mem_nil _
  | success hcompile => exact List.forall_mem_singleton.mpr rfl
  | failure hcompile _ _ ih => exact List.forall_mem_cons.mpr ⟨rfl, ih⟩

section Assembling

variable {refuses : String → Bool} {workshop next after : Workshop}
  {input text listing executable : String} {output? : Option String} {tries : Journal Workshop}
  {found? : Option String} {place : Place}

/-- The deeds behind the choice of the outputs, when there is more to make than a listing. -/
theorem path_mem_outputs_of_tries
    (hpaths : outputPaths input output? false = .ok (listing, executable))
    (htries : Tries ["-no-pie", "-o", executable, listing] next Command.compilers tries found?
      after) :
    ∀ entry ∈ (Deed.write listing text, next) ::
        (tries ++ [(.remove listing, after.without refuses listing)]),
      ∀ path ∈ entry.1.path?, path ∈ outputs input output? false := by
  rw [outputs_of_outputPaths hpaths]
  intro entry hentry path hpath
  obtain rfl | hentry := List.mem_cons.mp hentry
  · cases hpath
    exact List.mem_cons_self
  obtain hentry | hentry := List.mem_append.mp hentry
  · rw [htries.path?_eq entry hentry] at hpath
    cases hpath
    exact List.mem_cons_of_mem _ List.mem_cons_self
  · obtain rfl := List.mem_singleton.mp hentry
    cases hpath
    exact List.mem_cons_self

theorem keeps_of_tries {disk : Disk} {content : ByteArray}
    (hpaths : outputPaths input output? false = .ok (listing, executable))
    (hconfined : ∀ entry ∈ workshop.compilers, entry.2.Confined (callArguments input output?))
    (hfree : ∀ path ∈ outputs input output? false, ¬ workshop.disk.Denotes path place)
    (hwritten : workshop.disk.write listing content = .ok disk)
    (htries : Tries ["-no-pie", "-o", executable, listing] { workshop with disk }
      Command.compilers tries found? after) :
    (∀ entry ∈ (Deed.write listing text, { workshop with disk }) ::
        (tries ++ [(.remove listing, after.without refuses listing)]),
          Keeps place workshop entry.2) ∧
      Keeps place workshop (after.without refuses listing) := by
  rw [outputs_of_outputPaths hpaths, if_neg Bool.false_ne_true] at hfree
  rw [callArguments_of_outputPaths hpaths] at hconfined
  have hlisting := hfree listing List.mem_cons_self
  have hexecutable := hfree executable (List.mem_cons_of_mem _ List.mem_cons_self)
  have hwrite := Keeps.write hlisting hwritten
  -- The directories stay as they are, so no output comes to denote the place on the way.
  have htarget : ∀ target ∈ Compiler.target? ["-no-pie", "-o", executable, listing],
      ¬ disk.Denotes target place := by
    intro target htarget
    cases htarget
    exact hwrite.not_denotes hexecutable
  obtain ⟨hkeeps, hafter⟩ := htries.keeps hconfined htarget
  have hlast := hwrite.trans hafter
  have hremove := hlast.trans (Keeps.without refuses (hlast.not_denotes hlisting))
  refine ⟨fun entry hentry => ?_, hremove⟩
  obtain rfl | hentry := List.mem_cons.mp hentry
  · exact hwrite
  obtain hentry | hentry := List.mem_append.mp hentry
  · exact hwrite.trans (hkeeps entry hentry)
  · obtain rfl := List.mem_singleton.mp hentry
    exact hremove

end Assembling

namespace Build

variable {refuses : String → Bool} {workshop after : Workshop} {input : String}
  {output? : Option String} {emitAssembly : Bool} {program : Program}
  {result : Except Failure String} {journal : Journal Workshop} {place : Place}

theorem eq_of_refused {failure : Failure}
    (h : Build refuses workshop input output? emitAssembly program result after journal)
    (hrefused : outputPaths input output? emitAssembly = .error failure) :
    result = .error failure ∧ after = workshop ∧ journal = [] := by
  cases h with
  | refused hpaths =>
    obtain rfl := Except.error.inj (hpaths.symm.trans hrefused)
    exact ⟨rfl, rfl, rfl⟩
  | unwritten hpaths | generated hpaths | assembled hpaths | unassembled hpaths =>
    cases hpaths.symm.trans hrefused

/-- A build does nothing but to the files it makes. -/
theorem path_mem_outputs
    (h : Build refuses workshop input output? emitAssembly program result after journal) :
    ∀ entry ∈ journal, ∀ path ∈ entry.1.path?, path ∈ outputs input output? emitAssembly := by
  cases h with
  | refused hpaths => exact List.forall_mem_nil _
  | unwritten hpaths hwrite =>
    refine List.forall_mem_singleton.mpr fun path hpath => ?_
    rw [outputs_of_outputPaths hpaths]
    cases hpath
    cases emitAssembly <;> exact List.mem_cons_self
  | generated hpaths hwrite hemit =>
    refine List.forall_mem_singleton.mpr fun path hpath => ?_
    rw [outputs_of_outputPaths hpaths, if_pos hemit]
    cases hpath
    exact List.mem_cons_self
  | assembled hpaths hwrite hemit htries =>
    subst hemit
    exact path_mem_outputs_of_tries hpaths htries
  | unassembled hpaths hwrite hemit htries =>
    subst hemit
    exact path_mem_outputs_of_tries hpaths htries

/-- A build keeps every place that none of its outputs denotes. -/
theorem keeps (h : Build refuses workshop input output? emitAssembly program result after journal)
    (hconfined : ∀ entry ∈ workshop.compilers, entry.2.Confined (callArguments input output?))
    (hfree : ∀ path ∈ outputs input output? emitAssembly, ¬ workshop.disk.Denotes path place) :
    (∀ entry ∈ journal, Keeps place workshop entry.2) ∧ Keeps place workshop after := by
  cases h with
  | refused hpaths => exact ⟨List.forall_mem_nil _, .refl _ _⟩
  | unwritten hpaths hwrite => exact ⟨List.forall_mem_singleton.mpr (.refl _ _), .refl _ _⟩
  | generated hpaths hwrite hemit =>
    rw [outputs_of_outputPaths hpaths, if_pos hemit] at hfree
    have hkeeps := Keeps.write (hfree _ List.mem_cons_self) hwrite
    exact ⟨List.forall_mem_singleton.mpr hkeeps, hkeeps⟩
  | assembled hpaths hwrite hemit htries =>
    subst hemit
    exact keeps_of_tries hpaths hconfined hfree hwrite htries
  | unassembled hpaths hwrite hemit htries =>
    subst hemit
    exact keeps_of_tries hpaths hconfined hfree hwrite htries

end Build

end Workshop

end StraightLine.Command
