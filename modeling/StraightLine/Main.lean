import StraightLine.Command.Disk
import StraightLine.Command.Execution

/-!
# The command line

The files are those of the machine. No compiler is started from here, so a
build goes no further than its listing.
-/

namespace StraightLine.Command

def failureReason : IO.Error → String
  | .noFileOrDirectory _ _ _ => DiskError.notFound.message
  | .noSuchThing _ _ _ => DiskError.notFound.message
  | .inappropriateType _ code _ =>
    if code = 20 then DiskError.notDirectory.message else DiskError.isDirectory.message
  | .permissionDenied _ _ _ => "Permission denied (os error 13)"
  | error => toString error

def machine : Host IO where
  read path := do
    try
      return .ok (← IO.FS.readBinFile path)
    catch error => return .error (failureReason error)
  write path text := do
    try
      IO.FS.writeFile path text
      return .ok ()
    catch error => return .error (failureReason error)
  remove path := do
    try
      IO.FS.removeFile path
    catch _ => pure ()
  compile _ _ := return none

end StraightLine.Command

open StraightLine.Command in
def main (arguments : List String) : IO UInt32 := do
  let outcome ← execute machine arguments
  IO.print outcome.output
  IO.eprint outcome.errors
  return UInt32.ofNat outcome.status
