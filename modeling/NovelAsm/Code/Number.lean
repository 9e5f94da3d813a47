import NovelAsm.Code.Reader
import NovelAsm.Code.Word

/-!
Numbers in code. A number takes one to four bytes. Its first byte holds the form
and the highest bits of the value; the other bytes follow, highest first.

| first byte | meaning                                     |
|------------|---------------------------------------------|
| `00`–`7f`  | constant of 7 bits                          |
| `80`–`8f`  | constant of 12 bits, one more byte          |
| `90`–`9f`  | constant of 20 bits, two more bytes         |
| `a0`–`af`  | constant of 28 bits, three more bytes       |
| `b0`–`bf`  | one of the first sixteen value registers    |
| `c0`–`cf`  | any value register, one more byte           |
| `d0`–`df`  | one of the first sixteen argument registers |

Constants are two's complement numbers. A number is written in the shortest form
that holds it; wider constants and the other argument registers have none.
-/

namespace NovelAsm.Number

/-- Whether a constant has a two's complement form of some bits. -/
def fits (bits : Nat) (value : Int) : Bool :=
  let limit : Int := Nat.pow 2 (bits - 1)
  value < limit && -limit ≤ value

/-- The two's complement form of a constant as a number without a sign. -/
def twosComplement (bits : Nat) (value : Int) : Nat := (value % Nat.pow 2 bits).toNat

/-- The constant of a two's complement form. -/
def ofTwosComplement (bits value : Nat) : Int :=
  if value < Nat.pow 2 (bits - 1) then value else value - Nat.pow 2 bits

/-- A form with four bits of a value in its first byte and the others in `more` bytes. -/
def split (form more value : Nat) : Bytes :=
  (form + value / Nat.pow 256 more).toUInt8 :: bigEndian more value

/-- The shortest form of a constant. -/
def encodeConstant? (value : Int) : Option Bytes :=
  if fits 7 value then some [(twosComplement 7 value).toUInt8]
  else if fits 12 value then some (split 0x80 1 (twosComplement 12 value))
  else if fits 20 value then some (split 0x90 2 (twosComplement 20 value))
  else if fits 28 value then some (split 0xa0 3 (twosComplement 28 value))
  else none

/-- The shortest form of a register. -/
def encodeRegister? : Register → Option Bytes
  | .value index =>
      if index.val < 16 then some [(0xb0 + index.val).toUInt8]
      else some (split 0xc0 1 index.val)
  | .argument index => if index.val < 16 then some [(0xd0 + index.val).toUInt8] else none

/-- The shortest form of a number, if it has one. -/
def encode? : Number → Option Bytes
  | .constant value => encodeConstant? value.toInt
  | .register source => encodeRegister? source

/-- Takes the bytes behind the first one of a form, which gave the highest bits. -/
def readTail (high more : Nat) : CodeReader Nat :=
  return high * Nat.pow 256 more + (← CodeReader.bigEndian more)

/-- A constant of some bits. -/
def ofBits (bits value : Nat) : Number := .constant (Int32.ofInt (ofTwosComplement bits value))

/-- A register that a form is sure to name. -/
def ofRegister (source : Option Register) : Number := .register (source.getD default)

/-- Takes a number. -/
def read : CodeReader Number := do
  let start ← CodeReader.position
  let first ← CodeReader.u8
  let high := first.toNat % 16
  match first.toNat / 16 with
  | 0x8 => return ofBits 12 (← readTail high 1)
  | 0x9 => return ofBits 20 (← readTail high 2)
  | 0xa => return ofBits 28 (← readTail high 3)
  | 0xb => return ofRegister (Register.value? high)
  | 0xc => return ofRegister (Register.value? (← readTail high 1))
  | 0xd => return ofRegister (Register.argument? high)
  | form =>
      if form < 8 then return ofBits 7 first.toNat
      else CodeReader.fail (.invalidNumber first) start

end NovelAsm.Number
