import StraightLine.Command.Disk
import StraightLine.Command.Execution

/-!
# Workshops

A workshop is a host without a machine behind it: a disk, and compilers that
are functions on the disk.
-/

namespace StraightLine.Command

/-- What a compiler does to a disk when it is called with some arguments, and its exit status. -/
abbrev Compiler := List String → Disk → Disk × Nat

/-- A compiler that compiles nothing: it adds a line with its call to a log in the working
directory and exits with the given status. -/
def Compiler.recorder (name : String) (status : Nat) : Compiler := fun arguments disk =>
  let log := disk.home ++ ["calls.log"]
  let line := String.intercalate " " (name :: arguments) ++ "\n"
  (disk.put log ((disk.file? log).getD ByteArray.empty ++ line.toUTF8), status)

structure Workshop where
  disk : Disk
  compilers : List (String × Compiler)

namespace Workshop

/-- What is asked of a workshop is done if there is a way. Nobody needs a permission for it, not
even to remove a file. -/
def host : Host (StateM Workshop) where
  read path := do
    return (← get).disk.read path |>.mapError DiskError.message
  write path text := do
    let workshop ← get
    match workshop.disk.write path text.toUTF8 with
    | .ok disk =>
      set { workshop with disk }
      return .ok ()
    | .error error => return .error error.message
  remove path := do
    let workshop ← get
    match workshop.disk.remove path with
    | .ok disk => set { workshop with disk }
    | .error _ => pure ()
  compile name arguments := do
    let workshop ← get
    match workshop.compilers.lookup name with
    | none => return none
    | some compiler =>
      let (disk, status) := compiler arguments workshop.disk
      set { workshop with disk }
      return some status

def execute (workshop : Workshop) (arguments : List String) : Outcome × Workshop :=
  (Command.execute host arguments).run workshop

end Workshop

end StraightLine.Command
