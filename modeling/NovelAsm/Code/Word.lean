import NovelAsm.Bytes

/-!
Numbers as bytes of a fixed width, and the patching of a 32-bit number into code
that is laid out already.
-/

namespace NovelAsm

/-- The lowest `width` bytes of a number, lowest first. -/
def littleEndian : Nat → Nat → Bytes
  | 0, _ => []
  | width + 1, value => value.toUInt8 :: littleEndian width (value / 256)

/-- The lowest `width` bytes of a number, highest first. -/
def bigEndian (width value : Nat) : Bytes := (littleEndian width value).reverse

/-- Writes bytes over those of a block from an offset on. -/
def overwrite (block : Array UInt8) (offset : Nat) : Bytes → Array UInt8
  | [] => block
  | b :: rest => overwrite (block.setIfInBounds offset b) (offset + 1) rest

/-- Puts a 32-bit number at an offset of a block, if its four bytes are inside. -/
def patch? (block : Array UInt8) (offset : Nat) (value : UInt32) : Option (Array UInt8) :=
  if offset + 4 ≤ block.size then some (overwrite block offset (littleEndian 4 value.toNat))
  else none

end NovelAsm
