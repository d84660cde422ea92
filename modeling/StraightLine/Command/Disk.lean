import StraightLine.Command.Path
import StraightLine.Text.Offset

/-!
# Disks

A disk is a tree of directories and files without links or permissions, together
with a working directory. A path is walked piece by piece, so that every piece but
the last has to lead to a directory that exists.
-/

namespace StraightLine

inductive DiskError
  | notFound
  | notDirectory
  | isDirectory
  | nameTooLong
  deriving DecidableEq, Inhabited, Repr

def DiskError.message : DiskError → String
  | notFound => "No such file or directory (os error 2)"
  | notDirectory => "Not a directory (os error 20)"
  | isDirectory => "Is a directory (os error 21)"
  | nameTooLong => "File name too long (os error 36)"

/-- The names that lead from the root to a file or directory. -/
abbrev Place := List String

structure Disk where
  home : Place
  directories : List Place
  files : List (Place × ByteArray)

namespace Disk

/-- The root is a directory of every disk. -/
def isDirectory (disk : Disk) (place : Place) : Bool :=
  place.isEmpty || disk.directories.contains place

def file? (disk : Disk) (place : Place) : Option ByteArray :=
  disk.files.lookup place

def enter (disk : Disk) (place : Place) (piece : List Char) : Except DiskError Place :=
  match piece with
  | [] => .ok place
  | ['.'] => .ok place
  | ['.', '.'] => .ok place.dropLast
  | piece =>
    let inner := place ++ [String.ofList piece]
    if Text.byteSize piece > 255 then .error .nameTooLong
    else if disk.isDirectory inner then .ok inner
    else if (disk.file? inner).isSome then .error .notDirectory
    else .error .notFound

/-- Where the last piece of a path leads: to a directory, or to a name in a directory. A slash
may stand behind the name. -/
inductive Target
  | directory (place : Place)
  | entry (place : Place) (slash : Bool)
  deriving DecidableEq, Inhabited, Repr

def locate (disk : Disk) (path : String) : Except DiskError Target := do
  if path.isEmpty then throw .notFound
  if path.utf8ByteSize ≥ 4096 then throw .nameTooLong
  let text := path.toList
  let start := if text.head? = some '/' then [] else disk.home
  let parts := (Path.pieces text).filter (!·.isEmpty)
  let directory ← parts.dropLast.foldlM disk.enter start
  match parts.getLast? with
  | none => return .directory directory
  | some ['.'] => return .directory directory
  | some ['.', '.'] => return .directory directory.dropLast
  | some name =>
    if Text.byteSize name > 255 then throw .nameTooLong
    return .entry (directory ++ [String.ofList name]) (text.getLast? = some '/')

def read (disk : Disk) (path : String) : Except DiskError ByteArray := do
  match ← disk.locate path with
  | .directory _ => throw .isDirectory
  | .entry place slash =>
    if disk.isDirectory place then throw .isDirectory
    match disk.file? place with
    | none => throw .notFound
    | some content => if slash then throw .notDirectory else return content

def put (disk : Disk) (place : Place) (content : ByteArray) : Disk :=
  { disk with files := (place, content) :: disk.files.filter (·.1 != place) }

def erase (disk : Disk) (place : Place) : Disk :=
  { disk with files := disk.files.filter (·.1 != place) }

theorem file?_put_self (disk : Disk) (place : Place) (content : ByteArray) :
    (disk.put place content).file? place = some content := by
  simp [file?, put]

theorem lookup_filter_self (place : Place) (files : List (Place × ByteArray)) :
    (files.filter (·.1 != place)).lookup place = none := by
  rw [List.lookup_eq_none_iff]
  intro entry hentry
  have hne : entry.1 ≠ place := by simpa using (List.mem_filter.mp hentry).2
  exact bne_iff_ne.mpr hne.symm

theorem lookup_filter_of_ne {place other : Place} (h : other ≠ place)
    (files : List (Place × ByteArray)) :
    (files.filter (·.1 != place)).lookup other = files.lookup other := by
  induction files with
  | nil => rfl
  | cons entry rest ih =>
    obtain ⟨key, content⟩ := entry
    by_cases hkey : key = place
    · have hne : (other == place) = false := by simpa using h
      simp [ih, hkey, List.lookup_cons, hne]
    · simp [hkey, ih, List.lookup_cons]

theorem file?_erase_self (disk : Disk) (place : Place) :
    (disk.erase place).file? place = none :=
  lookup_filter_self place disk.files

theorem file?_erase_of_ne (disk : Disk) {place other : Place} (h : other ≠ place) :
    (disk.erase place).file? other = disk.file? other :=
  lookup_filter_of_ne h disk.files

theorem file?_put_of_ne (disk : Disk) {place other : Place} (h : other ≠ place)
    (content : ByteArray) : (disk.put place content).file? other = disk.file? other := by
  have hne : (other == place) = false := by simpa using h
  simp [file?, put, List.lookup_cons, hne, lookup_filter_of_ne h]

/-- Writes a file, new or not, in a directory that exists. -/
def write (disk : Disk) (path : String) (content : ByteArray) : Except DiskError Disk := do
  match ← disk.locate path with
  | .directory _ => throw .isDirectory
  | .entry place slash =>
    if slash || disk.isDirectory place then throw .isDirectory
    return disk.put place content

def remove (disk : Disk) (path : String) : Except DiskError Disk := do
  match ← disk.locate path with
  | .directory _ => throw .isDirectory
  | .entry place slash =>
    if disk.isDirectory place then throw .isDirectory
    if (disk.file? place).isNone then throw .notFound
    if slash then throw .notDirectory
    return disk.erase place

/-- The directories on the way to a place, the root first. -/
def ancestors (place : Place) : List Place :=
  (List.range place.length).map place.take

/-- Adds a file together with the directories on the way to it. -/
def add (disk : Disk) (place : Place) (content : ByteArray) : Disk :=
  { disk.put place content with directories := disk.directories ++ ancestors place }

/-- The files that are new or have other content than before. -/
def written (before after : Disk) : List (Place × ByteArray) :=
  after.files.filter fun entry => before.file? entry.1 != some entry.2

def removed (before after : Disk) : List Place :=
  (before.files.map (·.1)).filter fun place => (after.file? place).isNone

/-- The path from the working directory to a place inside it. -/
def pathFromHome? (disk : Disk) (place : Place) : Option String :=
  if disk.home.isPrefixOf place then
    some (String.intercalate "/" (place.drop disk.home.length))
  else none

end Disk

end StraightLine
