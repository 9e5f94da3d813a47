import NovelAsm.Bytes

/-!
Fingerprints: 64-bit FNV-1a. Texts that were seen before are recognised by the
fingerprint of their bytes, and a composite value by feeding its parts one
after another. A part that is a text is followed by its length, which keeps
`ab`, `c` apart from `a`, `bc`: the parts fed can be read back from the bytes
fed, whatever the fingerprint itself forgets.
-/

namespace NovelAsm

abbrev Fingerprint := UInt64

namespace Fingerprint

/-- The fingerprint of the empty text. -/
def basis : Fingerprint := 14695981039346656037

def addByte (seed : Fingerprint) (b : UInt8) : Fingerprint :=
  (seed ^^^ b.toUInt64) * 1099511628211

def addBytes (seed : Fingerprint) (bytes : Bytes) : Fingerprint := bytes.foldl addByte seed

/-- The fingerprint of a text. -/
def ofText (text : Bytes) : Fingerprint := basis.addBytes text

/-- One part of a composite value. -/
inductive Part where
  | word (value : UInt64)
  | text (value : Bytes)
deriving DecidableEq, Repr

/-- The eight bytes of a word, lowest first. -/
def wordBytes (value : UInt64) : Bytes :=
  [value.toUInt8, (value >>> 8).toUInt8, (value >>> 16).toUInt8, (value >>> 24).toUInt8,
    (value >>> 32).toUInt8, (value >>> 40).toUInt8, (value >>> 48).toUInt8,
    (value >>> 56).toUInt8]

/-- What a part feeds into a fingerprint. -/
def Part.bytes : Part → Bytes
  | .word value => wordBytes value
  | .text value => value ++ wordBytes value.length.toUInt64

def add (seed : Fingerprint) (part : Part) : Fingerprint := seed.addBytes part.bytes

end Fingerprint

end NovelAsm
