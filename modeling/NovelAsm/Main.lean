import NovelAsm.CommandLine

/-!
The program: a run of the command line in the surroundings of its host. All
decisions are made by `CommandLine.run`; here its few effects are carried out.
-/

namespace NovelAsm

namespace Host

def toBytes (data : ByteArray) : Bytes := data.data.toList

def ofBytes (bytes : Bytes) : ByteArray := ⟨bytes.toArray⟩

/-- The path as the system takes it. One that is no UTF-8 leads nowhere. -/
def path? (path : Bytes) : Option String := String.fromUTF8? (ofBytes path)

/-- What an open file yields. A folder can be opened, but yields nothing. -/
def readAll (handle : IO.FS.Handle) : IO Bytes := do
  try
    return toBytes (← handle.readBinToEnd)
  catch _ => return []

def read (path : Bytes) : IO (Option Bytes) := do
  match path? path with
  | none => return none
  | some name =>
      try
        return some (← readAll (← IO.FS.Handle.mk name .read))
      catch _ => return none

def write (path content : Bytes) : IO Bool := do
  match path? path with
  | none => return false
  | some name =>
      try
        IO.FS.writeBinFile name (ofBytes content)
        return true
      catch _ => return false

def surroundings : Surroundings IO where
  read := read
  write := write
  print text := do (← IO.getStdout).write (ofBytes text)
  complain text := do (← IO.getStderr).write (ofBytes text)

end Host

end NovelAsm

def main (arguments : List String) : IO UInt32 := do
  let arguments := arguments.map fun argument => NovelAsm.Host.toBytes argument.toUTF8
  return NovelAsm.CommandLine.exitCode
    (← NovelAsm.CommandLine.run NovelAsm.Host.surroundings arguments)
