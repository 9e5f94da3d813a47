import NovelAsm.Bytes

/-!
Flags: names that stand behind the operands of an instruction and switch one of
its options on.
-/

namespace NovelAsm

inductive Flag where
  | nowait
  | interruptable
deriving DecidableEq, Repr

namespace Flag

def all : List Flag := [.nowait, .interruptable]

def text : Flag → String
  | .nowait => "nowait"
  | .interruptable => "interruptable"

def ofText? (text : Bytes) : Option Flag := all.find? fun flag => ascii flag.text == text

end Flag

end NovelAsm
