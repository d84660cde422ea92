import StraightLine.Command.Disk
import StraightLine.Proofs.Carving

/-!
# Where paths lead

A path denotes the place its pieces lead to, and only the directories decide
which place that is. The last piece of a path is the name of the place, so two
paths made from one by giving it an extension denote the same place only when
they are the same path.
-/

namespace StraightLine

namespace Path

/-- What stands in front of the name of a path. -/
def front (path : List Char) : List Char :=
  (path.reverse.dropWhile (· != '/')).reverse

theorem front_append_fileName (path : List Char) : front path ++ fileName path = path := by
  rw [front, fileName, ← List.reverse_append, List.takeWhile_append_dropWhile,
    List.reverse_reverse]

theorem take_eq_front (path : List Char) :
    path.take (path.length - (fileName path).length) = front path := by
  have hpath := front_append_fileName path
  have hlength := congrArg List.length hpath
  rw [List.length_append] at hlength
  calc
    path.take (path.length - (fileName path).length) = path.take (front path).length := by
      rw [← hlength, Nat.add_sub_cancel]
    _ = (front path ++ fileName path).take (front path).length := by rw [hpath]
    _ = front path := List.take_left

theorem withExtension_eq (path extension : String) :
    withExtension path extension =
      String.ofList (front path.toList ++
        nameWithExtension (fileName path.toList) extension.toList) := by
  rw [withExtension, take_eq_front]

/-- The front of a path is empty or ends with a slash. -/
theorem ends_reverse_front (path : List Char) : Text.Ends (· != '/') (front path).reverse := by
  rw [front, List.reverse_reverse]
  exact Text.ends_dropWhile _ _

theorem slash_not_mem_fileName (path : List Char) : '/' ∉ fileName path := by
  intro h
  have := List.mem_takeWhile_imp (List.mem_reverse.mp h)
  simp at this

theorem fileName_append {front name : List Char} (hfront : Text.Ends (· != '/') front.reverse)
    (hname : '/' ∉ name) : fileName (front ++ name) = name := by
  rw [fileName, List.reverse_append, Text.takeWhile_of_ends (fun c hc => ?_) hfront,
    List.reverse_reverse]
  rw [bne_iff_ne]
  rintro rfl
  exact hname (List.mem_reverse.mp hc)

theorem pieces_of_not_mem {name : List Char} (h : '/' ∉ name) : pieces name = [name] := by
  induction name with
  | nil => rfl
  | cons c cs ih =>
    rw [List.mem_cons, not_or] at h
    rw [pieces, if_neg (Ne.symm h.1), ih h.2]

theorem pieces_ne_nil (path : List Char) : pieces path ≠ [] := by
  fun_cases pieces path <;> simp

theorem pieces_append_slash (path rest : List Char) :
    pieces (path ++ '/' :: rest) = pieces path ++ pieces rest := by
  induction path with
  | nil => rfl
  | cons c cs ih =>
    rw [List.cons_append, pieces, pieces, ih]
    split
    · rfl
    · obtain ⟨piece, more, hpieces⟩ := List.exists_cons_of_ne_nil (pieces_ne_nil cs)
      rw [hpieces]
      rfl

/-- The last piece of a path is its name. -/
theorem exists_pieces_eq (path : List Char) : ∃ outer, pieces path = outer ++ [fileName path] := by
  have hpath := front_append_fileName path
  have hname := pieces_of_not_mem (slash_not_mem_fileName path)
  cases hfront : (front path).reverse with
  | nil =>
    rw [List.reverse_eq_nil_iff.mp hfront, List.nil_append] at hpath
    rw [hpath] at hname ⊢
    exact ⟨[], hname⟩
  | cons c outer =>
    have hends := ends_reverse_front path
    rw [hfront] at hends
    obtain rfl : c = '/' := by simpa using Text.ends_cons.mp hends
    have heq : path = outer.reverse ++ '/' :: fileName path := by
      calc
        path = (front path).reverse.reverse ++ fileName path := by
          rw [List.reverse_reverse, hpath]
        _ = outer.reverse ++ '/' :: fileName path := by
          rw [hfront, List.reverse_cons, List.append_assoc, List.singleton_append]
    refine ⟨pieces outer.reverse, ?_⟩
    rw [← hname, ← pieces_append_slash, ← heq]

/-- No slash at the end: the last piece that is not empty is the name. -/
theorem eq_fileName_of_getLast? {path name : List Char} (hslash : path.getLast? ≠ some '/')
    (h : ((pieces path).filter (!·.isEmpty)).getLast? = some name) : name = fileName path := by
  cases hname : fileName path with
  | nil =>
    have hends := ends_reverse_front path
    rw [← List.append_nil (front path), ← hname, front_append_fileName] at hends
    cases hpath : path.reverse with
    | nil => simp [List.reverse_eq_nil_iff.mp hpath, pieces] at h
    | cons c rest =>
      rw [hpath] at hends
      obtain rfl : c = '/' := by simpa using Text.ends_cons.mp hends
      rw [List.reverse_eq_cons_iff.mp hpath, List.getLast?_concat] at hslash
      exact absurd rfl hslash
  | cons c cs =>
    obtain ⟨outer, hpieces⟩ := exists_pieces_eq path
    rw [hpieces, hname, List.filter_append] at h
    simpa using h.symm

theorem isPrefix_of_stem? {name stem : List Char} (h : stem? name = some stem) :
    stem <+: name := by
  rw [stem?] at h
  split at h
  · cases h
  · rename_i c front _ hdrop
    cases h
    have hsuffix : front <:+ name.reverse :=
      (List.suffix_cons c front).trans (hdrop ▸ List.dropWhile_suffix _)
    rw [← List.reverse_reverse name]
    exact List.reverse_prefix.mpr hsuffix
  · cases h

theorem slash_not_mem_nameWithExtension {name extension : List Char} (hname : '/' ∉ name)
    (hextension : '/' ∉ extension) : '/' ∉ nameWithExtension name extension := by
  rw [nameWithExtension]
  split
  · simp [hname, hextension]
  · simp
  · rename_i stem _ hstem
    have hfront : '/' ∉ stem := fun h => hname ((isPrefix_of_stem? hstem).subset h)
    simp [hfront, hextension]

theorem fileName_withExtension (path : String) {extension : String}
    (h : '/' ∉ extension.toList) :
    fileName (withExtension path extension).toList =
      nameWithExtension (fileName path.toList) extension.toList := by
  rw [withExtension_eq, String.toList_ofList]
  exact fileName_append (ends_reverse_front _)
    (slash_not_mem_nameWithExtension (slash_not_mem_fileName _) h)

theorem nameWithExtension_injective {name one other : List Char}
    (h : nameWithExtension name one = nameWithExtension name other)
    (hname : nameWithExtension name one ≠ ['.', '.']) : one = other := by
  rw [nameWithExtension.eq_def, nameWithExtension.eq_def] at h
  rw [nameWithExtension.eq_def] at hname
  cases hstem : stem? name with
  | none => simpa [hstem] using h
  | some stem =>
    by_cases hdot : stem = ['.']
    · simp [hstem, hdot] at hname
    · simpa [hstem, hdot] using h

end Path

namespace Disk

/-- The two disks differ in nothing but their files. -/
def SameTree (one other : Disk) : Prop :=
  one.home = other.home ∧ one.directories = other.directories

namespace SameTree

theorem refl (disk : Disk) : SameTree disk disk :=
  ⟨rfl, rfl⟩

variable {one other : Disk}

theorem symm (h : SameTree one other) : SameTree other one :=
  ⟨h.1.symm, h.2.symm⟩

theorem trans {last : Disk} (h : SameTree one other) (hlast : SameTree other last) :
    SameTree one last :=
  ⟨h.1.trans hlast.1, h.2.trans hlast.2⟩

theorem isDirectory_eq (h : SameTree one other) (place : Place) :
    one.isDirectory place = other.isDirectory place := by
  rw [isDirectory, isDirectory, h.2]

theorem enter_eq_ok (h : SameTree one other) {place inner : Place} {piece : List Char}
    (hone : one.enter place piece = .ok inner) : other.enter place piece = .ok inner := by
  rw [enter.eq_def] at hone ⊢
  split at hone
  · exact hone
  · exact hone
  · exact hone
  · -- Files decide only between two ways to fail.
    dsimp only at hone ⊢
    rw [← h.isDirectory_eq]
    split at hone
    · cases hone
    · rename_i hlong
      rw [if_neg hlong]
      split at hone
      · rename_i hinner
        rw [if_pos hinner]
        exact hone
      · split at hone <;> cases hone

theorem walk_eq_ok (h : SameTree one other) {start place : Place} {pieces : List (List Char)}
    (hone : pieces.foldlM one.enter start = .ok place) :
    pieces.foldlM other.enter start = .ok place := by
  induction pieces generalizing start with
  | nil => exact hone
  | cons piece rest ih =>
    rw [List.foldlM_cons] at hone ⊢
    cases hpiece : one.enter start piece with
    | error error => rw [hpiece] at hone; cases hone
    | ok inner =>
      rw [hpiece] at hone
      rw [h.enter_eq_ok hpiece]
      exact ih hone

theorem locate_eq_ok (h : SameTree one other) {path : String} {target : Target}
    (hone : one.locate path = .ok target) : other.locate path = .ok target := by
  simp only [locate, bind, Except.bind, throw, throwThe, MonadExceptOf.throw] at hone ⊢
  split at hone
  · cases hone
  · rename_i hempty
    split at hone
    · cases hone
    · rename_i hlong
      split at hone
      · cases hone
      · rename_i directory hwalk
        rw [h.1] at hwalk
        rw [if_neg hempty, if_neg hlong, h.walk_eq_ok hwalk]
        exact hone

end SameTree

/-- The path leads to the place, which holds a file or can hold one. -/
structure Denotes (disk : Disk) (path : String) (place : Place) : Prop where
  locate_eq : disk.locate path = .ok (.entry place false)
  isDirectory_eq : disk.isDirectory place = false

instance (disk : Disk) (path : String) (place : Place) : Decidable (disk.Denotes path place) :=
  decidable_of_iff (disk.locate path = .ok (.entry place false) ∧ disk.isDirectory place = false)
    ⟨fun h => ⟨h.1, h.2⟩, fun h => ⟨h.locate_eq, h.isDirectory_eq⟩⟩

variable {disk : Disk} {path : String} {place : Place}

theorem SameTree.denotes {one other : Disk} (h : SameTree one other)
    (hone : one.Denotes path place) : other.Denotes path place :=
  ⟨h.locate_eq_ok hone.locate_eq, (h.isDirectory_eq place).symm.trans hone.isDirectory_eq⟩

theorem SameTree.denotes_iff {one other : Disk} (h : SameTree one other) :
    one.Denotes path place ↔ other.Denotes path place :=
  ⟨h.denotes, h.symm.denotes⟩

theorem Denotes.unique {other : Place} (h : disk.Denotes path place)
    (hother : disk.Denotes path other) : place = other := by
  have := h.locate_eq.symm.trans hother.locate_eq
  cases this
  rfl

/-- The name of a path is the name of the place it denotes. -/
theorem Denotes.getLast?_eq (h : disk.Denotes path place) :
    place.getLast? = some (String.ofList (Path.fileName path.toList)) ∧
      Path.fileName path.toList ≠ ['.', '.'] := by
  have hlocate := h.locate_eq
  simp only [locate, bind, Except.bind, pure, Except.pure, throw, throwThe,
    MonadExceptOf.throw] at hlocate
  split at hlocate
  · cases hlocate
  split at hlocate
  · cases hlocate
  split at hlocate
  · cases hlocate
  split at hlocate
  · cases hlocate
  · cases hlocate
  · cases hlocate
  · rename_i directory _ _ name _ hdots hname
    split at hlocate
    · cases hlocate
    · injection hlocate with hentry
      injection hentry with hplace hslash
      have heq := Path.eq_fileName_of_getLast? (of_decide_eq_false hslash) hname
      rw [← hplace, ← heq, List.getLast?_concat]
      exact ⟨rfl, fun hparent => hdots hparent⟩

theorem sameTree_put (disk : Disk) (place : Place) (content : ByteArray) :
    SameTree disk (disk.put place content) :=
  ⟨rfl, rfl⟩

theorem sameTree_erase (disk : Disk) (place : Place) : SameTree disk (disk.erase place) :=
  ⟨rfl, rfl⟩

theorem write_eq_ok_iff {content : ByteArray} {after : Disk} :
    disk.write path content = .ok after ↔
      ∃ place, disk.Denotes path place ∧ after = disk.put place content := by
  constructor
  · intro h
    rw [write] at h
    cases hlocate : disk.locate path with
    | error error => rw [hlocate] at h; cases h
    | ok target =>
      rw [hlocate] at h
      cases target with
      | directory place => cases h
      | entry place slash =>
        simp only [bind, Except.bind, pure, Except.pure, throw, throwThe,
          MonadExceptOf.throw] at h
        split at h
        · cases h
        · rename_i hfree
          rw [Bool.or_eq_true, not_or, Bool.not_eq_true, Bool.not_eq_true] at hfree
          obtain ⟨rfl, hdirectory⟩ := hfree
          cases h
          exact ⟨place, ⟨hlocate, hdirectory⟩, rfl⟩
  · rintro ⟨place, h, rfl⟩
    rw [write, h.locate_eq]
    simp [h.isDirectory_eq, bind, Except.bind, pure, Except.pure]

theorem remove_eq_ok_iff {after : Disk} :
    disk.remove path = .ok after ↔
      ∃ place, disk.Denotes path place ∧ (disk.file? place).isSome ∧ after = disk.erase place := by
  constructor
  · intro h
    rw [remove] at h
    cases hlocate : disk.locate path with
    | error error => rw [hlocate] at h; cases h
    | ok target =>
      rw [hlocate] at h
      cases target with
      | directory place => cases h
      | entry place slash =>
        simp only [bind, Except.bind, pure, Except.pure, throw, throwThe,
          MonadExceptOf.throw] at h
        split at h
        · cases h
        split at h
        · cases h
        split at h
        · cases h
        rename_i hdirectory hfile hslash
        rw [Bool.not_eq_true] at hdirectory hslash
        subst hslash
        cases h
        exact ⟨place, ⟨hlocate, hdirectory⟩, by simpa [Option.isSome_iff_ne_none] using hfile, rfl⟩
  · rintro ⟨place, h, hfile, rfl⟩
    obtain ⟨content, hcontent⟩ := Option.isSome_iff_exists.mp hfile
    rw [remove, h.locate_eq]
    simp [h.isDirectory_eq, hcontent, bind, Except.bind, pure, Except.pure]

/-- A path given an extension denotes the place of the path only when it is the path. -/
theorem Denotes.withExtension_eq {extension : String} (hslash : '/' ∉ extension.toList)
    (h : disk.Denotes (Path.withExtension path extension) place) (hpath : disk.Denotes path place) :
    Path.withExtension path extension = path := by
  have hname := h.getLast?_eq.1.symm.trans hpath.getLast?_eq.1
  rw [Option.some_inj, String.ofList_inj, Path.fileName_withExtension path hslash] at hname
  rw [Path.withExtension_eq, hname, Path.front_append_fileName, String.ofList_toList]

/-- With two extensions a path denotes two places. -/
theorem Denotes.extension_eq {one other : String} (hone : '/' ∉ one.toList)
    (hother : '/' ∉ other.toList) (h : disk.Denotes (Path.withExtension path one) place)
    (h' : disk.Denotes (Path.withExtension path other) place) : one = other := by
  have hname := h.getLast?_eq.1.symm.trans h'.getLast?_eq.1
  have hparent := h.getLast?_eq.2
  rw [Path.fileName_withExtension path hone] at hparent
  rw [Option.some_inj, String.ofList_inj, Path.fileName_withExtension path hone,
    Path.fileName_withExtension path hother] at hname
  exact String.toList_inj.mp (Path.nameWithExtension_injective hname hparent)

end Disk

end StraightLine
