import NovelAsm.Bytes

/-!
Paths of files. The parts of a path are separated by slashes; the last part names
the file. Its extension begins at its last dot, unless the name begins there.

A path is followed from a folder, part by part. A name ends the way, because the
folders on it hold nothing that could be entered. What remains is a way upwards:
a path leads to a file of some folder around, to such a folder itself, or nowhere.
-/

namespace NovelAsm.Path

def separator : UInt8 := byte '/'

def dot : UInt8 := byte '.'

/-- The greatest number of bytes in a path that can be followed. -/
def lengthLimit : Nat := 4095

/-- The greatest number of bytes in the name of a file. -/
def nameLimit : Nat := 255

/-- The parts of a path; there is always one. -/
def parts : Bytes → List Bytes
  | [] => [[]]
  | b :: rest =>
      if b == separator then [] :: parts rest
      else
        match parts rest with
        | [] => [[b]]
        | part :: more => (b :: part) :: more

/-- The name of the file and all that stands before it. -/
def splitName (path : Bytes) : Bytes × Bytes :=
  let backwards := path.reverse
  ((backwards.dropWhile (· != separator)).reverse, (backwards.takeWhile (· != separator)).reverse)

/-- A file name without its extension. The two names of directories, which hold nothing but
dots, have none. -/
def stem (name : Bytes) : Bytes :=
  let backwards := name.reverse
  match backwards.dropWhile (· != dot) with
  | [] => name
  | _ :: before =>
      if before.isEmpty || name == [dot, dot] then name else before.reverse

/-- A path with another extension, which has its dot. -/
def withExtension (path extension : Bytes) : Bytes :=
  let (directory, name) := splitName path
  directory ++ stem name ++ extension

/-- What a path leads to. -/
inductive Destination where
  /-- A file of the folder that lies so many levels above. -/
  | file (level : Nat) (name : Bytes)
  | folder
  | nowhere
deriving DecidableEq, Repr

/-- The parts that stay where they are. -/
def isHere (part : Bytes) : Bool := part.isEmpty || part == [dot]

/-- The part that goes one level up. -/
def isAbove (part : Bytes) : Bool := part == [dot, dot]

/-- Follows the parts of a path from the folder that lies `level` levels above. A path with
parts behind a name leads nowhere, even if they are empty. -/
def followFrom (level : Nat) : List Bytes → Destination
  | [] => .folder
  | part :: rest =>
      if isHere part then followFrom level rest
      else if isAbove part then followFrom (level + 1) rest
      else if rest.isEmpty && part.length ≤ nameLimit then .file level part
      else .nowhere

/-- Follows a path that begins at the root. The root is above itself, and no file of it is
known. -/
def followFromRoot (parts : List Bytes) : Destination :=
  if parts.all fun part => isHere part || isAbove part then .folder else .nowhere

/-- Follows a path from a folder. -/
def follow (path : Bytes) : Destination :=
  if path.isEmpty || lengthLimit < path.length then .nowhere
  else if path.head? == some separator then followFromRoot (parts path)
  else followFrom 0 (parts path)

end NovelAsm.Path
