import NovelAsm.Code.Sweep
import NovelAsm.Proofs.Code.Locality

/-!
The entries of a sweep tile the block. What is decoded is a piece of the block and is not empty
(`DecodedInstruction.size_of_read`), so every entry begins where the one before it ended and
none is empty.
-/

namespace NovelAsm

namespace SweepEntry

/-- Entries that stand one behind another from an offset on, none of them empty, and that put
together are a block. -/
def Tiles (offset : Nat) : List SweepEntry → Bytes → Prop
  | [], code => code = []
  | entry :: rest, code =>
      entry.offset = offset ∧ entry.bytes ≠ [] ∧
        ∃ more, code = entry.bytes ++ more ∧ Tiles (offset + entry.bytes.length) rest more

theorem offset_read (offset : Nat) (code : Bytes) : (read offset code).offset = offset := by
  simp only [read]
  split <;> rfl

theorem exists_bytes_read (offset : Nat) (b : UInt8) (rest : Bytes) :
    ∃ size, (read offset (b :: rest)).bytes = b :: rest.take size ∧ size ≤ rest.length := by
  simp only [read]
  split
  · rename_i decoded hread
    obtain ⟨hleast, hmost⟩ := DecodedInstruction.size_of_read hread
    rw [List.length_cons] at hmost
    refine ⟨decoded.size - 1, ?_, by omega⟩
    rw [List.take_cons (by omega)]
  · exact ⟨0, rfl, Nat.zero_le _⟩

/-- The bytes of an entry that has been read are passed over. -/
theorem sweepFrom_skip (offset skip : Nat) (code : Bytes) (hskip : skip ≤ code.length) :
    sweepFrom offset skip code = sweepFrom (offset + skip) 0 (code.drop skip) := by
  induction code generalizing offset skip with
  | nil =>
      obtain rfl := Nat.le_zero.mp hskip
      rfl
  | cons b rest ih =>
      cases skip with
      | zero => rfl
      | succ skip =>
          rw [sweepFrom, ih (offset + 1) skip (Nat.le_of_succ_le_succ hskip), List.drop_succ_cons,
            Nat.add_right_comm, Nat.add_assoc]

theorem sweepFrom_tiles (offset : Nat) (code : Bytes) :
    Tiles offset (sweepFrom offset 0 code) code := by
  induction hlength : code.length using Nat.strongRecOn generalizing offset code with
  | ind length ih =>
  subst hlength
  cases code with
  | nil => rfl
  | cons b rest =>
      obtain ⟨size, hbytes, hsize⟩ := exists_bytes_read offset b rest
      have hlength : (read offset (b :: rest)).bytes.length - 1 = size := by
        rw [hbytes, List.length_cons, List.length_take]
        omega
      simp only [sweepFrom, hlength]
      rw [sweepFrom_skip _ _ _ hsize]
      refine ⟨offset_read _ _, by simp [hbytes], rest.drop size, ?_, ?_⟩
      · rw [hbytes, List.cons_append, List.take_append_drop]
      · rw [hbytes, List.length_cons, List.length_take, Nat.min_eq_left hsize,
          Nat.add_comm size 1, ← Nat.add_assoc]
        exact ih _ (by rw [List.length_drop, List.length_cons]; omega) _ _ rfl

/-- The entries of a sweep tile the block. -/
theorem sweep_tiles (code : Bytes) : Tiles 0 (sweep code) code := sweepFrom_tiles 0 code

theorem Tiles.le_offset {offset : Nat} {entries : List SweepEntry} {code : Bytes}
    (h : Tiles offset entries code) :
    ∀ entry ∈ entries, offset ≤ entry.offset ∧ entry.offset < offset + code.length := by
  induction entries generalizing offset code with
  | nil => nofun
  | cons first rest ih =>
      obtain ⟨hoffset, hne, more, rfl, hrest⟩ := h
      have hpos := List.length_pos_iff.mpr hne
      intro entry hentry
      rw [List.length_append]
      rcases List.mem_cons.mp hentry with rfl | hentry
      · omega
      · have := ih hrest entry hentry
        omega

/-- No two entries begin at one place. -/
theorem Tiles.nodup_offsets {offset : Nat} {entries : List SweepEntry} {code : Bytes}
    (h : Tiles offset entries code) : (entries.map SweepEntry.offset).Nodup := by
  induction entries generalizing offset code with
  | nil => exact List.nodup_nil
  | cons first rest ih =>
      obtain ⟨hoffset, hne, more, -, hrest⟩ := h
      have hpos := List.length_pos_iff.mpr hne
      refine List.nodup_cons.mpr ⟨fun hmem => ?_, ih hrest⟩
      obtain ⟨entry, hentry, heq⟩ := List.mem_map.mp hmem
      have hbehind := (hrest.le_offset entry hentry).1
      omega

/-- Every entry ends within the block. -/
theorem Tiles.le_length {offset : Nat} {entries : List SweepEntry} {code : Bytes}
    (h : Tiles offset entries code) :
    ∀ entry ∈ entries, entry.offset + entry.bytes.length ≤ offset + code.length := by
  induction entries generalizing offset code with
  | nil => nofun
  | cons first rest ih =>
      obtain ⟨hoffset, -, more, rfl, hrest⟩ := h
      intro entry hentry
      rw [List.length_append]
      rcases List.mem_cons.mp hentry with rfl | hentry
      · omega
      · have := ih hrest entry hentry
        omega

/-- Every entry has been read where it stands. -/
theorem mem_sweepFrom {offset skip : Nat} {code : Bytes} {entry : SweepEntry}
    (h : entry ∈ sweepFrom offset skip code) : ∃ rest, entry = read entry.offset rest := by
  induction code generalizing offset skip with
  | nil => cases h
  | cons b rest ih =>
      cases skip with
      | succ skip => exact ih h
      | zero =>
          rcases List.mem_cons.mp h with rfl | h
          · exact ⟨b :: rest, by rw [offset_read]⟩
          · exact ih h

/-- The instruction of an entry has been decoded from its bytes. -/
theorem exists_read {code : Bytes} {entry : SweepEntry} {found : Instruction}
    (hentry : entry ∈ sweep code) (hcontent : entry.content = .instruction found) :
    ∃ rest size, DecodedInstruction.read rest = .ok ⟨found, size⟩ ∧ entry.bytes.length = size := by
  obtain ⟨rest, hread⟩ := mem_sweepFrom hentry
  rw [read] at hread
  split at hread
  · rename_i decoded hdecoded
    rw [hread] at hcontent
    cases hcontent
    refine ⟨rest, decoded.size, hdecoded, ?_⟩
    rw [hread, List.length_take]
    exact Nat.min_eq_left (DecodedInstruction.size_of_read hdecoded).2
  · rw [hread] at hcontent
    cases hcontent

end SweepEntry

end NovelAsm
