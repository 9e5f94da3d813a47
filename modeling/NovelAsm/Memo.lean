import NovelAsm.Fingerprint

/-!
Memos: results kept under the fingerprint of what they were made from. A key has
one result at most. Two different things can have one fingerprint, so whoever
asks a memo has to compare what it answers with what was asked for.
-/

namespace NovelAsm

structure Memo (α : Type) where
  entries : List (Fingerprint × α)

namespace Memo

variable {α : Type}

def empty : Memo α := ⟨[]⟩

instance : Inhabited (Memo α) := ⟨empty⟩

def find? (memo : Memo α) (key : Fingerprint) : Option α :=
  (memo.entries.find? (·.1 == key)).map Prod.snd

/-- Keeps a result, in place of an earlier one with its key. -/
def put (memo : Memo α) (key : Fingerprint) (result : α) : Memo α :=
  ⟨(key, result) :: memo.entries.filter (·.1 != key)⟩

/-- Forgets the results whose keys are not among those in use. -/
def retain (memo : Memo α) (used : List Fingerprint) : Memo α :=
  ⟨memo.entries.filter fun entry => used.contains entry.1⟩

end Memo

end NovelAsm
