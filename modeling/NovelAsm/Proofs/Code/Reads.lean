import Mathlib
import NovelAsm.Code.Decode
import NovelAsm.Code.Encode

/-!
What readers of code take. `Reads reader bytes value` says that a reader takes exactly
these bytes, whatever follows them and wherever they stand, and answers the value. The
relation is closed under the steps that readers are built from, so the round trip of
an instruction is put together from the round trips of words and numbers.
-/

namespace NovelAsm

namespace CodeReader

variable {α β : Type}

/-- A reader that begins at a position takes exactly some bytes and answers a value. -/
def ReadsAt (reader : CodeReader α) (position : Nat) (bytes : Bytes) (value : α) : Prop :=
  ∀ tail, reader ⟨bytes ++ tail, position⟩ = .ok (value, ⟨tail, position + bytes.length⟩)

/-- A reader takes exactly some bytes and answers a value. -/
def Reads (reader : CodeReader α) (bytes : Bytes) (value : α) : Prop :=
  ∀ position, ReadsAt reader position bytes value

theorem Reads.pure (value : α) : Reads (Pure.pure value) [] value := fun _ _ => rfl

theorem ReadsAt.bind {reader : CodeReader α} {next : α → CodeReader β} {position : Nat}
    {bytes more : Bytes} {value : α} {result : β} (h : ReadsAt reader position bytes value)
    (hnext : ReadsAt (next value) (position + bytes.length) more result) :
    ReadsAt (reader >>= next) position (bytes ++ more) result := by
  intro tail
  have hfirst := h (more ++ tail)
  change (reader ⟨bytes ++ more ++ tail, position⟩ >>= fun (a, state) => next a state) = _
  rw [List.append_assoc, hfirst, List.length_append, ← Nat.add_assoc]
  exact hnext tail

theorem Reads.bind {reader : CodeReader α} {next : α → CodeReader β} {bytes more : Bytes}
    {value : α} {result : β} (h : Reads reader bytes value)
    (hnext : Reads (next value) more result) : Reads (reader >>= next) (bytes ++ more) result :=
  fun position => (h position).bind (hnext _)

/-- A step behind which nothing more is read. -/
theorem Reads.bindLast {reader : CodeReader α} {next : α → CodeReader β} {bytes : Bytes}
    {value : α} {result : β} (h : Reads reader bytes value)
    (hnext : Reads (next value) [] result) : Reads (reader >>= next) bytes result := by
  rw [← List.append_nil bytes]
  exact h.bind hnext

theorem Reads.map {reader : CodeReader α} {bytes : Bytes} {value : α} (change : α → β)
    (h : Reads reader bytes value) :
    Reads (do return change (← reader)) bytes (change value) :=
  h.bindLast (Reads.pure (change value))

theorem Reads.cons {item : CodeReader α} {items : CodeReader (List α)} {bytes more : Bytes}
    {value : α} {values : List α} (h : Reads item bytes value) (hrest : Reads items more values) :
    Reads (do return (← item) :: (← items)) (bytes ++ more) (value :: values) :=
  h.bind (hrest.map (value :: ·))

/-- Where the reading began matters for failures alone. -/
theorem Reads.position {next : Nat → CodeReader α} {bytes : Bytes} {value : α}
    (h : ∀ start, Reads (next start) bytes value) :
    Reads (CodeReader.position >>= next) bytes value := fun start => h start start

theorem readsAt_position (position : Nat) : ReadsAt CodeReader.position position [] position :=
  fun _ => rfl

theorem reads_u8 (b : UInt8) : Reads u8 [b] b := fun _ _ => rfl

theorem reads_collect {item : CodeReader α} {code : α → Bytes} (values taken : List α)
    (h : ∀ value ∈ values, Reads item (code value) value) :
    Reads (collect item values.length taken) (values.flatMap code) (taken.reverse ++ values) := by
  induction values generalizing taken with
  | nil =>
      rw [List.append_nil]
      exact Reads.pure taken.reverse
  | cons value rest ih =>
      have hrest := ih (value :: taken) fun other hother => h other (List.mem_cons_of_mem _ hother)
      rw [List.reverse_cons, List.append_assoc] at hrest
      exact (h value (List.mem_cons_self ..)).bind hrest

/-- A list is read item by item. -/
theorem reads_many {item : CodeReader α} {code : α → Bytes} (values : List α)
    (h : ∀ value ∈ values, Reads item (code value) value) :
    Reads (many item values.length) (values.flatMap code) values := by
  have hresult := reads_collect values [] h
  exact hresult

theorem reads_bytes (bytes : Bytes) : Reads (many u8 bytes.length) bytes bytes := by
  have hresult := reads_many bytes fun b _ => reads_u8 b
  rwa [List.flatMap_singleton'] at hresult

end CodeReader

theorem length_littleEndian (width value : Nat) : (littleEndian width value).length = width := by
  induction width generalizing value with
  | zero => rfl
  | succ width ih => simp [littleEndian, ih]

theorem length_bigEndian (width value : Nat) : (bigEndian width value).length = width := by
  rw [bigEndian, List.length_reverse, length_littleEndian]

theorem toNat_toUInt8 (value : Nat) : value.toUInt8.toNat = value % 256 := by simp

theorem foldr_littleEndian (width value : Nat) :
    (littleEndian width value).foldr (fun b n => b.toNat + 256 * n) 0 = value % 256 ^ width := by
  induction width generalizing value with
  | zero => simp [littleEndian, Nat.mod_one]
  | succ width ih =>
      simp only [littleEndian, List.foldr_cons, ih, toNat_toUInt8]
      rw [Nat.pow_succ', Nat.mod_mul]

namespace CodeReader

theorem reads_littleEndian (width value : Nat) (h : value < 256 ^ width) :
    Reads (littleEndian width) (NovelAsm.littleEndian width value) value := by
  have hbytes := reads_bytes (NovelAsm.littleEndian width value)
  rw [length_littleEndian] at hbytes
  have hvalue := hbytes.map fun bytes => bytes.foldr (fun b n => b.toNat + 256 * n) 0
  rw [foldr_littleEndian, Nat.mod_eq_of_lt h] at hvalue
  exact hvalue

theorem reads_bigEndian (width value : Nat) :
    Reads (bigEndian width) (NovelAsm.bigEndian width value) (value % 256 ^ width) := by
  have hbytes := reads_bytes (NovelAsm.bigEndian width value)
  rw [length_bigEndian] at hbytes
  have hvalue := hbytes.map fun bytes => bytes.foldl (fun n b => n * 256 + b.toNat) 0
  have hfold : (NovelAsm.bigEndian width value).foldl (fun n b => n * 256 + b.toNat) 0 =
      value % 256 ^ width := by
    rw [NovelAsm.bigEndian, List.foldl_reverse, ← foldr_littleEndian]
    congr 1
    funext b n
    omega
  rw [hfold] at hvalue
  exact hvalue

theorem reads_register (source : Register) :
    Reads register (NovelAsm.littleEndian 2 source.raw) source := by
  have hraw : source.raw < 256 ^ 2 := by
    cases source with
    | value index => simp only [Register.raw]; omega
    | argument index => simp only [Register.raw, Register.limit]; omega
  have hsource : Register.ofRaw? source.raw = some source := by
    cases source with
    | value index =>
        simp [Register.ofRaw?, Register.raw, Register.limit, Register.value?]
    | argument index =>
        have hge : ¬ Register.limit + index.val < Register.limit := by omega
        simp [Register.ofRaw?, Register.raw, hge, Register.argument?]
  apply Reads.position
  intro start
  have hword := reads_littleEndian 2 source.raw hraw
  refine hword.bindLast ?_
  simp only [hsource]
  exact Reads.pure source

end CodeReader

namespace Number

open CodeReader

/-- The bits above a tail, with the tail behind them, are the value that was split. -/
theorem reads_readTail (more value : Nat) :
    Reads (readTail (value / 256 ^ more) more) (bigEndian more value) value := by
  have htail := (reads_bigEndian more value).map fun low =>
    value / 256 ^ more * Nat.pow 256 more + low
  have hvalue : value / 256 ^ more * Nat.pow 256 more + value % 256 ^ more = value :=
    Nat.div_add_mod' value (256 ^ more)
  rw [hvalue] at htail
  exact htail

theorem ofTwosComplement_twosComplement (bits : Nat) (value : Int) (hbits : 0 < bits)
    (h : fits bits value = true) : ofTwosComplement bits (twosComplement bits value) = value := by
  obtain ⟨k, rfl⟩ : ∃ k, bits = k + 1 := ⟨bits - 1, by omega⟩
  have hdouble : Nat.pow 2 (k + 1) = 2 * Nat.pow 2 k := Nat.pow_succ'
  simp only [fits, Nat.add_sub_cancel, Bool.and_eq_true, decide_eq_true_eq] at h
  simp only [ofTwosComplement, twosComplement, Nat.add_sub_cancel, hdouble]
  generalize Nat.pow 2 k = limit at h ⊢
  rcases Int.lt_or_le value 0 with hnegative | hpositive
  · have hmod : value % (2 * limit : Nat) = value + (2 * limit : Nat) := by
      rw [← Int.add_emod_right, Int.emod_eq_of_lt] <;> omega
    rw [hmod]
    split <;> omega
  · have hmod : value % (2 * limit : Nat) = value := Int.emod_eq_of_lt hpositive (by omega)
    rw [hmod]
    split <;> omega

theorem twosComplement_lt (bits : Nat) (value : Int) :
    twosComplement bits value < Nat.pow 2 bits := by
  have hpos : 0 < Nat.pow 2 bits := Nat.pow_pos (by decide)
  have hlt := Int.emod_lt_of_pos value (Int.ofNat_lt.mpr hpos)
  have hnonneg := Int.emod_nonneg value (Int.ne_of_gt (Int.ofNat_lt.mpr hpos))
  simp only [twosComplement]
  omega

/-- What is read behind the first byte of a form with its highest bits in that byte. -/
theorem reads_split {form more value : Nat} (kind : Nat) (hform : form = 16 * kind)
    (hkind : kind < 16)
    (hvalue : value / 256 ^ more < 16) {result : UInt8 → CodeReader Number} {number : Number}
    (h : ∀ first : UInt8, first.toNat % 16 = value / 256 ^ more → first.toNat / 16 = kind →
      Reads (result first) (bigEndian more value) number) :
    Reads (u8 >>= result) (split form more value) number := by
  have hfirst : (form + value / Nat.pow 256 more).toUInt8.toNat =
      16 * kind + value / 256 ^ more := by
    rw [toNat_toUInt8, hform]
    exact Nat.mod_eq_of_lt (by change 16 * kind + value / 256 ^ more < 256; omega)
  apply (reads_u8 _).bind
  apply h
  · rw [hfirst, Nat.mul_add_mod, Nat.mod_eq_of_lt hvalue]
  · rw [hfirst, Nat.mul_add_div (by decide), Nat.div_eq_of_lt hvalue, Nat.add_zero]

theorem ofBits_twosComplement {bits : Nat} {value : Int32} (hbits : 0 < bits)
    (h : fits bits value.toInt = true) :
    ofBits bits (twosComplement bits value.toInt) = .constant value := by
  rw [ofBits, ofTwosComplement_twosComplement bits value.toInt hbits h, Int32.ofInt_toInt]

theorem reads_constant {value : Int32} {bytes : Bytes}
    (h : encodeConstant? value.toInt = some bytes) : Reads Number.read bytes (.constant value) := by
  apply Reads.position
  intro start
  simp only [encodeConstant?] at h
  split at h
  · rename_i hfits
    cases h
    have hlt : twosComplement 7 value.toInt < 128 := twosComplement_lt 7 value.toInt
    have hfirst : (twosComplement 7 value.toInt).toUInt8.toNat = twosComplement 7 value.toInt := by
      rw [toNat_toUInt8]
      omega
    apply (reads_u8 _).bindLast
    rw [hfirst]
    split
    all_goals first | omega | skip
    rw [if_pos (by omega), ofBits_twosComplement (by decide) hfits]
    exact Reads.pure _
  split at h
  · rename_i hfits
    cases h
    have hlt : twosComplement 12 value.toInt < 4096 := twosComplement_lt 12 value.toInt
    apply reads_split 8 rfl (by decide) (by omega)
    intro first hhigh hkind
    simp only [hkind, hhigh]
    rw [← ofBits_twosComplement (by decide) hfits]
    exact (reads_readTail 1 _).map (ofBits 12)
  split at h
  · rename_i hfits
    cases h
    have hlt : twosComplement 20 value.toInt < 1048576 := twosComplement_lt 20 value.toInt
    apply reads_split 9 rfl (by decide) (by omega)
    intro first hhigh hkind
    simp only [hkind, hhigh]
    rw [← ofBits_twosComplement (by decide) hfits]
    exact (reads_readTail 2 _).map (ofBits 20)
  split at h
  · rename_i hfits
    cases h
    have hlt : twosComplement 28 value.toInt < 268435456 := twosComplement_lt 28 value.toInt
    apply reads_split 10 rfl (by decide) (by omega)
    intro first hhigh hkind
    simp only [hkind, hhigh]
    rw [← ofBits_twosComplement (by decide) hfits]
    exact (reads_readTail 3 _).map (ofBits 28)
  · cases h

theorem reads_shortRegister (kind : Nat) {source : Register} (hkind : kind < 16) (index : Nat)
    (hindex : index < 16) {result : UInt8 → CodeReader Number}
    (h : ∀ first : UInt8, first.toNat % 16 = index → first.toNat / 16 = kind →
      Reads (result first) [] (.register source)) :
    Reads (u8 >>= result) [(16 * kind + index).toUInt8] (.register source) := by
  have hfirst : (16 * kind + index).toUInt8.toNat = 16 * kind + index := by
    rw [toNat_toUInt8]
    omega
  apply (reads_u8 _).bindLast
  apply h
  · rw [hfirst]
    omega
  · rw [hfirst]
    omega

theorem reads_encodeRegister {source : Register} {bytes : Bytes}
    (h : encodeRegister? source = some bytes) : Reads Number.read bytes (.register source) := by
  apply Reads.position
  intro start
  cases source with
  | value index =>
      simp only [encodeRegister?] at h
      split at h
      · rename_i hindex
        cases h
        apply reads_shortRegister 11 (by decide) index.val hindex
        intro first hhigh hkind
        simp only [hkind, hhigh, Register.value?, index.isLt, dif_pos, ofRegister]
        exact Reads.pure _
      · cases h
        apply reads_split 12 rfl (by decide) (by omega)
        intro first hhigh hkind
        simp only [hkind, hhigh]
        have hregister : ofRegister (Register.value? index.val) = .register (.value index) := by
          simp [ofRegister, Register.value?]
        rw [← hregister]
        exact (reads_readTail 1 _).map fun raw => ofRegister (Register.value? raw)
  | argument index =>
      simp only [encodeRegister?] at h
      split at h
      · rename_i hindex
        cases h
        apply reads_shortRegister 13 (by decide) index.val hindex
        intro first hhigh hkind
        simp only [hkind, hhigh, Register.argument?, index.isLt, dif_pos, ofRegister]
        exact Reads.pure _
      · cases h

/-- Every number with a form is read back from it. -/
theorem reads_encode {number : Number} {bytes : Bytes} (h : number.encode? = some bytes) :
    Reads Number.read bytes number := by
  cases number with
  | constant value => exact reads_constant h
  | register source => exact reads_encodeRegister h

end Number
end NovelAsm
