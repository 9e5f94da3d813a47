import NovelAsm.Code.Link
import NovelAsm.Code.Sweep

/-!
Names for the places of a block of code: the offset at which it is entered, its
beginning, and every offset that an instruction leads to and at which an entry of
the sweep begins. An offset has one name; any but the entry is named by its
address.
-/

namespace NovelAsm

/-- A block's base address and the names of its offsets. -/
structure CodeLabels where
  base : UInt32
  names : List (Nat × Bytes)
deriving DecidableEq, Repr

namespace CodeLabels

/-- The name of a place that nothing else gives a name to. -/
def nameOf (address : UInt32) : Bytes := ascii "L_" ++ hex 8 address.toNat

def address (labels : CodeLabels) (offset : Nat) : UInt32 := labels.base + offset.toUInt32

def find? (labels : CodeLabels) (offset : Nat) : Option Bytes :=
  (labels.names.find? (·.1 == offset)).map Prod.snd

/-- Names an offset that has no name yet. -/
def add (labels : CodeLabels) (offset : Nat) (name : Bytes) : CodeLabels :=
  if (labels.find? offset).isSome then labels
  else { labels with names := labels.names ++ [(offset, name)] }

/-- The offset of an address that does not lie before the block. -/
def offset? (base address : UInt32) : Option Nat :=
  if address < base then none else some (address.toNat - base.toNat)

/-- The offset of an address at which an entry begins. -/
def locate? (base : UInt32) (entries : List SweepEntry) (address : UInt32) : Option Nat :=
  (offset? base address).filter fun offset => entries.any (·.offset == offset)

/-- The offset at which a block is entered, if it can be named: the beginning of an entry, or
the beginning of the block even if that holds nothing. -/
def entryOffset? (base : UInt32) (entries : List SweepEntry) (entry : UInt32) : Option Nat :=
  match locate? base entries entry with
  | some offset => some offset
  | none => if entry == base then some 0 else none

/-- The addresses that the instruction of an entry leads to. -/
def addresses (entry : SweepEntry) : List UInt32 :=
  match entry.content with
  | .leftover _ => []
  | .instruction found =>
      found.targets.filterMap fun target =>
        match target.place with
        | .address value => some value
        | .symbol _ => none

/-- The labels of a block that is entered at an address. -/
def ofEntries (base entry : UInt32) (entries : List SweepEntry) : CodeLabels :=
  let entered :=
    match entryOffset? base entries entry with
    | some offset => CodeLabels.mk base [(offset, LinkedProgram.entrySymbol)]
    | none => CodeLabels.mk base []
  (entries.flatMap addresses).foldl
    (fun labels address =>
      match locate? base entries address with
      | some offset => labels.add offset (nameOf address)
      | none => labels)
    (entered.add 0 (nameOf base))

/-- The place with its name instead of its address, if it has one. -/
def symbolize (labels : CodeLabels) (target : CodeTarget) : CodeTarget :=
  match target.place with
  | .symbol _ => target
  | .address value =>
      match (offset? labels.base value).bind labels.find? with
      | some name => { target with place := .symbol name }
      | none => target

/-- The names with their addresses. -/
def externals (labels : CodeLabels) : List (Bytes × UInt32) :=
  labels.names.map fun (offset, name) => (name, labels.address offset)

end CodeLabels

end NovelAsm
