/-!
# Paths

A path is a text whose pieces are parted by slashes. Two paths are alike when
they have the same components: empty pieces do not count, nor does a dot
anywhere but in front. Being alike is a matter of spelling and not of files:
a path with a dot in front is not alike the path without it.
-/

namespace StraightLine.Path

def pieces : List Char → List (List Char)
  | [] => [[]]
  | c :: cs =>
    if c = '/' then [] :: pieces cs
    else
      match pieces cs with
      | [] => [[c]]
      | piece :: rest => (c :: piece) :: rest

inductive Component
  | root
  | here
  | parent
  | name (text : String)
  deriving DecidableEq, Inhabited, Repr

/-- The component a piece stands for, unless it counts for nothing behind another one. -/
def Component.ofPiece? : List Char → Option Component
  | [] => none
  | ['.'] => none
  | ['.', '.'] => some .parent
  | piece => some (.name (String.ofList piece))

def components (path : String) : List Component :=
  let parts := pieces path.toList
  let inner := parts.filterMap Component.ofPiece?
  match parts with
  | [] :: _ :: _ => .root :: inner
  | ['.'] :: _ => .here :: inner
  | _ => inner

def alike (a b : String) : Bool :=
  components a == components b

theorem alike_refl (path : String) : alike path path = true := by
  simp [alike]

/-- What stands behind the last slash. -/
def fileName (path : List Char) : List Char :=
  (path.reverse.takeWhile (· != '/')).reverse

/-- What stands before the last dot of a name, if there is a dot behind the first character. -/
def stem? (name : List Char) : Option (List Char) :=
  match name.reverse.dropWhile (· != '.') with
  | _ :: [] => none
  | _ :: front => some front.reverse
  | [] => none

/-- Replaces the extension of a name, or adds one to a name without. When the stem is a single
dot, what is left of the name with its dots is the parent directory, and nothing is added. -/
def nameWithExtension (name extension : List Char) : List Char :=
  match stem? name with
  | none => name ++ '.' :: extension
  | some ['.'] => ['.', '.']
  | some stem => stem ++ '.' :: extension

def withExtension (path extension : String) : String :=
  let name := fileName path.toList
  let directory := path.toList.take (path.toList.length - name.length)
  String.ofList (directory ++ nameWithExtension name extension.toList)

end StraightLine.Path
