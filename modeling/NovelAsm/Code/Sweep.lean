import NovelAsm.Code.Decode
import NovelAsm.Diagnostic

/-!
A sweep over a block of code: from its first byte on, each instruction is taken
where the one before it ended. Where none begins, one byte is left over and the
sweep goes on behind it. The entries put together are the block.
-/

namespace NovelAsm

/-- What a sweep finds at an offset. -/
inductive SweepContent where
  | instruction (found : Instruction)
  /-- A byte at which no instruction begins; the failure is placed in the block. -/
  | leftover (failure : DecodeFailure)
deriving DecidableEq, Repr

structure SweepEntry where
  offset : Nat
  bytes : Bytes
  content : SweepContent
deriving DecidableEq, Repr

namespace SweepEntry

/-- The entry at the beginning of `code`, which stands at an offset of its block. -/
def read (offset : Nat) (code : Bytes) : SweepEntry :=
  match DecodedInstruction.read code with
  | .ok decoded => ⟨offset, code.take decoded.size, .instruction decoded.instruction⟩
  | .error failure =>
      ⟨offset, code.take 1, .leftover { failure with offset := offset + failure.offset }⟩

/-- The entries of the rest of a block, of which the first `skip` bytes belong to an entry that
has been read. -/
def sweepFrom (offset skip : Nat) : Bytes → List SweepEntry
  | [] => []
  | b :: rest =>
      match skip with
      | skip + 1 => sweepFrom (offset + 1) skip rest
      | 0 =>
          let entry := read offset (b :: rest)
          entry :: sweepFrom (offset + 1) (entry.bytes.length - 1) rest

/-- The entries of a block. -/
def sweep (code : Bytes) : List SweepEntry := sweepFrom 0 0 code

/-- The span of a byte: code is all in one line. -/
def byteSpan (offset : Nat) : Span :=
  let start : Location := ⟨1, (offset + 1).toUInt32, offset.toUInt32⟩
  ⟨start, ⟨1, start.column + 1, start.offset + 1⟩⟩

def warning (failure : DecodeFailure) : Diagnostic :=
  .warning failure.problem.code failure.problem.message (byteSpan failure.offset)

/-- One warning for each run of leftover bytes. `inRun` tells that the entries begin in one. -/
def warnings (inRun : Bool) : List SweepEntry → Diagnostics
  | [] => []
  | entry :: rest =>
      match entry.content with
      | .instruction _ => warnings false rest
      | .leftover failure =>
          if inRun then warnings true rest else warning failure :: warnings true rest

end SweepEntry

end NovelAsm
