import NovelAsm.Fingerprint
import NovelAsm.Location
import NovelAsm.Number

/-!
The names that every unit of a program can see: symbols, which stand for places
in the code, values and register aliases. The first declaration of a name wins.

Symbols keep the order of their declarations. Values and aliases are kept sorted
by name, so two scopes that define the same things are equal, in whatever order
they came. `Scope.parts` lists what a unit can observe of a scope, and
`Scope.signature` is its fingerprint; spans are no part of it.
-/

namespace NovelAsm

inductive ValueKind where
  | integer
  | real
deriving DecidableEq, Repr

namespace ValueKind

def name : ValueKind → String
  | .integer => "integer"
  | .real => "real"

def code : ValueKind → UInt64
  | .integer => 0
  | .real => 1

end ValueKind

/-- A constant with its kind. A real is stored scaled by one thousand. -/
structure Value where
  number : Int32
  kind : ValueKind
deriving DecidableEq, Repr

inductive SymbolKind where
  | label
  | function
  | subroutine
deriving DecidableEq, Repr

namespace SymbolKind

def name : SymbolKind → String
  | .label => "label"
  | .function => "function"
  | .subroutine => "subroutine"

def code : SymbolKind → UInt64
  | .label => 0
  | .function => 1
  | .subroutine => 2

end SymbolKind

/-- A name for a place in the code. Only functions take parameters. -/
structure Symbol where
  name : Bytes
  kind : SymbolKind
  parameterCount : Nat
  span : Span
deriving DecidableEq, Repr

/-- A table from names to values of a type, sorted by name. -/
structure NameMap (α : Type) where
  entries : List (Bytes × α)
deriving DecidableEq, Repr

namespace NameMap

variable {α : Type}

def empty : NameMap α := ⟨[]⟩

instance : Inhabited (NameMap α) := ⟨empty⟩

def find? (map : NameMap α) (name : Bytes) : Option α :=
  (map.entries.find? (·.1 == name)).map Prod.snd

/-- Puts an entry in its place, unless its name is there already. -/
def insertInto (name : Bytes) (value : α) : List (Bytes × α) → List (Bytes × α)
  | [] => [(name, value)]
  | entry :: rest =>
      if entry.1 == name then entry :: rest
      else if name < entry.1 then (name, value) :: entry :: rest
      else entry :: insertInto name value rest

/-- Adds an entry, unless its name is taken. -/
def insertNew (map : NameMap α) (name : Bytes) (value : α) : NameMap α :=
  ⟨insertInto name value map.entries⟩

end NameMap

structure Scope where
  symbols : List Symbol
  values : NameMap Value
  registers : NameMap Register
deriving DecidableEq, Repr

namespace Scope

def empty : Scope := ⟨[], .empty, .empty⟩

instance : Inhabited Scope := ⟨empty⟩

def findSymbol? (scope : Scope) (name : Bytes) : Option Symbol :=
  scope.symbols.find? (·.name == name)

def findValue? (scope : Scope) (name : Bytes) : Option Value := scope.values.find? name

def findRegister? (scope : Scope) (name : Bytes) : Option Register := scope.registers.find? name

/-- Declares a symbol, or answers the earlier declaration of its name. -/
def declare (scope : Scope) (symbol : Symbol) : Scope × Option Symbol :=
  match scope.findSymbol? symbol.name with
  | some earlier => (scope, some earlier)
  | none => ({ scope with symbols := scope.symbols ++ [symbol] }, none)

def defineValue (scope : Scope) (name : Bytes) (value : Value) : Scope :=
  { scope with values := scope.values.insertNew name value }

def defineRegister (scope : Scope) (name : Bytes) (register : Register) : Scope :=
  { scope with registers := scope.registers.insertNew name register }

def symbolParts (symbol : Symbol) : List Fingerprint.Part :=
  [.text symbol.name, .word symbol.kind.code, .word symbol.parameterCount.toUInt64]

def valueParts (entry : Bytes × Value) : List Fingerprint.Part :=
  [.text entry.1, .word entry.2.number.toUInt32.toUInt64, .word entry.2.kind.code]

def registerParts (entry : Bytes × Register) : List Fingerprint.Part :=
  [.text entry.1, .word entry.2.raw.toUInt64]

/-- What a unit can observe of a scope. -/
def parts (scope : Scope) : List Fingerprint.Part :=
  scope.symbols.flatMap symbolParts ++ scope.values.entries.flatMap valueParts
    ++ scope.registers.entries.flatMap registerParts

/-- The fingerprint of what a unit can observe of a scope. -/
def signature (scope : Scope) : Fingerprint :=
  scope.parts.foldl Fingerprint.add (Fingerprint.ofText (ascii "scope"))

end Scope

end NovelAsm
