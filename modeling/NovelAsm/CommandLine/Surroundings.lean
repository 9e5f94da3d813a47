import NovelAsm.CommandLine.Path

/-!
What a run of the command line needs of the world: files to read and write, and
two streams to print to. A run is written for any surroundings. A `Desk` stands
in a folder that lies in other folders; the surroundings made from it keep what
a run writes and prints, so that a run is a function.
-/

namespace NovelAsm

structure Surroundings (m : Type → Type) where
  /-- The content of a file, if it can be read. -/
  read : Bytes → m (Option Bytes)
  /-- Gives a file a content; the answer tells whether that was possible. -/
  write : Bytes → Bytes → m Bool
  /-- Prints what was asked for. -/
  print : Bytes → m PUnit
  /-- Prints what went wrong. -/
  complain : Bytes → m PUnit

/-- The files of a directory by their names. -/
structure Folder where
  files : List (Bytes × Bytes)
deriving DecidableEq, Repr

namespace Folder

def empty : Folder := ⟨[]⟩

def find? (folder : Folder) (name : Bytes) : Option Bytes :=
  (folder.files.find? (·.1 == name)).map Prod.snd

/-- Puts a file in its place among the others, or in place of the one of its name. -/
def putInto (name content : Bytes) : List (Bytes × Bytes) → List (Bytes × Bytes)
  | [] => [(name, content)]
  | file :: rest =>
      if file.1 == name then (name, content) :: rest
      else if name < file.1 then (name, content) :: file :: rest
      else file :: putInto name content rest

def put (folder : Folder) (name content : Bytes) : Folder :=
  ⟨putInto name content folder.files⟩

/-- A folder with some files; of two with one name the later one stays. -/
def ofFiles (files : List (Bytes × Bytes)) : Folder :=
  files.foldl (fun folder (name, content) => folder.put name content) empty

end Folder

/-- A folder and the folders around it, from the inside to the outside; those that are not
listed hold no files. -/
structure Nest where
  folders : List Folder
deriving DecidableEq, Repr

namespace Nest

def ofFolder (folder : Folder) : Nest := ⟨[folder]⟩

/-- The folder that lies so many levels above the innermost one. -/
def folderAt (nest : Nest) (level : Nat) : Folder := nest.folders.getD level .empty

/-- The innermost folder. -/
def folder (nest : Nest) : Folder := nest.folderAt 0

/-- Puts a file into one of the folders. -/
def putInto (name content : Bytes) : Nat → List Folder → List Folder
  | 0, [] => [Folder.empty.put name content]
  | 0, folder :: rest => folder.put name content :: rest
  | level + 1, [] => .empty :: putInto name content level []
  | level + 1, folder :: rest => folder :: putInto name content level rest

def put (nest : Nest) (level : Nat) (name content : Bytes) : Nest :=
  ⟨putInto name content level nest.folders⟩

/-- What can be read at a path. A folder can be opened, but yields nothing. -/
def read? (nest : Nest) (path : Bytes) : Option Bytes :=
  match Path.follow path with
  | .file level name => (nest.folderAt level).find? name
  | .folder => some []
  | .nowhere => none

/-- The folders after a file was written, if its path leads to one. -/
def write? (nest : Nest) (path content : Bytes) : Option Nest :=
  match Path.follow path with
  | .file level name => some (nest.put level name content)
  | _ => none

end Nest

/-- Folders with files, and what has been printed beside them. -/
structure Desk where
  nest : Nest
  printed : Bytes
  complaints : Bytes
deriving DecidableEq, Repr

namespace Desk

/-- A desk in a folder. Nothing is known of the folders around it, and nothing is printed. -/
def ofFolder (folder : Folder) : Desk := ⟨.ofFolder folder, [], []⟩

/-- The folder that the desk stands in. -/
def folder (desk : Desk) : Folder := desk.nest.folder

def write (path content : Bytes) : StateM Desk Bool := do
  match (← get).nest.write? path content with
  | some nest =>
      modify fun desk => { desk with nest := nest }
      return true
  | none => return false

/-- The surroundings of a run at a desk. -/
def surroundings : Surroundings (StateM Desk) where
  read path := return (← get).nest.read? path
  write := write
  print text := modify fun desk => { desk with printed := desk.printed ++ text }
  complain text := modify fun desk => { desk with complaints := desk.complaints ++ text }

end Desk

end NovelAsm
