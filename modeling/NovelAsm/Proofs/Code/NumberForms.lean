import NovelAsm.Proofs.Code.Spending

/-!
The forms of numbers. Constants of 28 bits, value registers and the first sixteen argument
registers have a form. It is read back whatever follows it, and no bytes that are read as the number
are fewer (`Number.encode?_exact`).
-/

namespace NovelAsm

namespace Number

open CodeReader

/-- The numbers that code can hold: constants of 28 bits, all value registers, and the first sixteen
argument registers. -/
def HasForm : Number → Prop
  | .constant value => -0x8000000 ≤ value.toInt ∧ value.toInt ≤ 0x7ffffff
  | .register (.value _) => True
  | .register (.argument index) => index.val < 16

instance : DecidablePred HasForm
  | .constant value =>
      inferInstanceAs (Decidable (-0x8000000 ≤ value.toInt ∧ value.toInt ≤ 0x7ffffff))
  | .register (.value _) => inferInstanceAs (Decidable True)
  | .register (.argument index) => inferInstanceAs (Decidable (index.val < 16))

/-- What fits some bits fits more bits. -/
theorem fits_mono {bits more : Nat} {value : Int} (hle : bits ≤ more) (h : fits bits value = true) :
    fits more value = true := by
  have hpower : 2 ^ (bits - 1) ≤ 2 ^ (more - 1) := Nat.pow_le_pow_right (by decide) (by omega)
  simp only [fits, Nat.pow_eq, Bool.and_eq_true, decide_eq_true_eq] at h ⊢
  omega

theorem encodeConstant?_isSome_iff (value : Int) :
    (encodeConstant? value).isSome = true ↔ fits 28 value = true := by
  refine ⟨fun h => ?_, encodeConstant?_isSome⟩
  rw [encodeConstant?] at h
  split at h
  · exact @fits_mono 7 28 _ (by decide) ‹_›
  split at h
  · exact @fits_mono 12 28 _ (by decide) ‹_›
  split at h
  · exact @fits_mono 20 28 _ (by decide) ‹_›
  split at h
  · assumption
  · cases h

theorem encodeRegister?_argument_isSome_iff (index : Fin 4096) :
    (encodeRegister? (.argument index)).isSome = true ↔ index.val < 16 := by
  rw [encodeRegister?]
  split <;> simp_all

theorem encode?_isSome_iff (number : Number) : number.encode?.isSome = true ↔ number.HasForm := by
  cases number with
  | constant value =>
      rw [encode?, encodeConstant?_isSome_iff, fits, HasForm]
      simp only [Bool.and_eq_true, decide_eq_true_eq]
      change value.toInt < 0x8000000 ∧ -0x8000000 ≤ value.toInt ↔ _
      omega
  | register source =>
      cases source with
      | value index =>
          refine iff_of_true ?_ trivial
          rw [encode?, encodeRegister?]
          split <;> rfl
      | argument index => exact encodeRegister?_argument_isSome_iff index

/-- The form of a number is read to its end, whatever follows. -/
theorem decode?_form {number : Number} {bytes : Bytes} (h : number.encode? = some bytes)
    (suffix : Bytes) : decode? (bytes ++ suffix) = some (number, bytes.length) := by
  have hread : read.run ⟨bytes ++ suffix, 0⟩ = .ok (number, ⟨suffix, 0 + bytes.length⟩) :=
    reads_encode h 0 suffix
  rw [decode?, hread, Nat.zero_add]

/-- Bytes that are read as a number are no fewer than those of its form. -/
theorem exists_shorter_form {number : Number} {code : Bytes} {size : Nat}
    (h : decode? code = some (number, size)) :
    ∃ bytes, number.encode? = some bytes ∧ bytes.length ≤ size := by
  rw [decode?] at h
  split at h
  · rename_i found state hread
    cases h
    obtain ⟨bytes, hbytes⟩ := Option.isSome_iff_exists.mp (read_answers _ _ _ hread)
    have hspent := spends_number _ _ _ hread
    dsimp only at hspent
    rw [Nat.zero_add, form, hbytes] at hspent
    exact ⟨bytes, hbytes, hspent⟩
  · cases h

/-- Numbers are written exactly, and as short as can be. Those that have a form are the constants of
28 bits, the value registers and the first sixteen argument registers. The form is read as the
number and is taken to its end, whatever follows. No bytes that are read as the number are fewer. -/
theorem encode?_exact (number : Number) :
    (number.encode?.isSome = true ↔ number.HasForm) ∧
      (∀ bytes, number.encode? = some bytes →
        ∀ suffix, decode? (bytes ++ suffix) = some (number, bytes.length)) ∧
      ∀ code size, decode? code = some (number, size) →
        ∃ bytes, number.encode? = some bytes ∧ bytes.length ≤ size :=
  ⟨encode?_isSome_iff number, fun _ hbytes => decode?_form hbytes,
    fun _ _ => exists_shorter_form⟩

/-- The lowest constant of 12 bits, with a byte behind it and in the widest form. -/
theorem encode?_exact_lowest :
    let number : Number := .constant (-2048)
    number.HasForm ∧ number.encode? = some [0x88, 0x00] ∧
      decode? ([0x88, 0x00] ++ [0xff]) = some (number, 2) ∧
      decode? [0xaf, 0xff, 0xf8, 0x00] = some (number, 4) ∧
      ∃ bytes, number.encode? = some bytes ∧ bytes.length ≤ 4 := by
  intro number
  have hform : number.HasForm := by decide
  have hbytes : number.encode? = some [0x88, 0x00] := by decide
  have hwide : decode? [0xaf, 0xff, 0xf8, 0x00] = some (number, 4) := by decide +kernel
  obtain ⟨-, hread, hshort⟩ := encode?_exact number
  exact ⟨hform, hbytes, hread _ hbytes [0xff], hwide, hshort _ _ hwide⟩

end Number

end NovelAsm
