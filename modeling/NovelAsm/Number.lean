import NovelAsm.Bytes

/-!
The values an instruction can name: registers and 32-bit constants. There are
`2 ^ 12` value registers and as many argument registers; the machine keeps both
in one raw numbering, arguments after values.
-/

namespace NovelAsm

inductive Register where
  | value (index : Fin 4096)
  | argument (index : Fin 4096)
deriving DecidableEq, Repr

namespace Register

instance : Inhabited Register := ⟨.value 0⟩

/-- The register count of each class. -/
def limit : Nat := 4096

def value? (index : Nat) : Option Register :=
  if h : index < 4096 then some (.value ⟨index, h⟩) else none

def argument? (index : Nat) : Option Register :=
  if h : index < 4096 then some (.argument ⟨index, h⟩) else none

def index : Register → Nat
  | .value i => i.val
  | .argument i => i.val

def isArgument : Register → Bool
  | .value _ => false
  | .argument _ => true

/-- The number of a register among both classes. -/
def raw : Register → Nat
  | .value i => i.val
  | .argument i => limit + i.val

def ofRaw? (raw : Nat) : Option Register :=
  if raw < limit then value? raw else argument? (raw - limit)

/-- The built-in spelling: a class letter and the index. -/
def name : Register → Bytes
  | .value i => ascii "$v" ++ decimal i.val
  | .argument i => ascii "$a" ++ decimal i.val

/-- What one to five decimal digits stand for. -/
def parseIndex? (digits : Bytes) : Option Nat :=
  if digits.isEmpty || 5 < digits.length || !digits.all Byte.isDigit then none
  else some (digits.foldl (fun n d => n * 10 + (d - byte '0').toNat) 0)

/-- Reads a built-in spelling. Leading zeros are fine while five digits hold them. -/
def parse? : Bytes → Option Register
  | dollar :: kind :: digits =>
      if dollar != byte '$' then none
      else (parseIndex? digits).bind fun index =>
        if kind == byte 'v' then value? index
        else if kind == byte 'a' then argument? index
        else none
  | _ => none

end Register

/-- A value that an instruction reads: fixed when it is written, or held by a register. -/
inductive Number where
  | constant (value : Int32)
  | register (source : Register)
deriving DecidableEq, Repr

namespace Number

instance : Inhabited Number := ⟨.constant 0⟩

def constant? : Number → Option Int32
  | .constant value => some value
  | .register _ => none

def text : Number → Bytes
  | .constant value => signedDecimal value.toInt
  | .register source => source.name

end Number

end NovelAsm
