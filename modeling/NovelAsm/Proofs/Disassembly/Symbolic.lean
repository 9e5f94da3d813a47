import NovelAsm.Proofs.Code.NormalForm
import NovelAsm.Proofs.Disassembly.Expressions
import NovelAsm.Proofs.Disassembly.Labels

/-!
Decoded instructions with names in place of addresses. Whatever names are put in place of its
addresses, a decoded instruction keeps its row, and it is written with nothing to report; linked
with the addresses of the names it is the decoded instruction again. What source cannot say of it
is left out by `OperandValue.IsSayable`; anything else is printed as a line that is lowered to it.
-/

namespace NovelAsm

/-- A number that can be encoded can be written. -/
theorem Number.isWritable_of_encode? {value : Number} (h : value.encode?.isSome = true) :
    value.IsWritable := by
  cases value with
  | register => trivial
  | constant value =>
      have hfits {bits : Nat} (hbits : bits ≤ 28) (h : fits bits value.toInt = true) :
          -0x80000000 < value.toInt := by
        simp only [fits, Bool.and_eq_true, decide_eq_true_eq] at h
        have hlimit : 2 ^ (bits - 1) ≤ 2 ^ 27 := Nat.pow_le_pow_right (by decide) (by omega)
        simp only [Nat.pow_eq] at h
        omega
      by_contra hlow
      rw [encode?, encodeConstant?, if_neg (mt (hfits (by decide)) hlow),
        if_neg (mt (hfits (by decide)) hlow), if_neg (mt (hfits (by decide)) hlow),
        if_neg (mt (hfits (by decide)) hlow)] at h
      cases h

/-- What source can say of an operand: a flag is a bit, a text stays in its line, and all
operators of an expression are left to the machine. -/
def OperandValue.IsSayable : OperandValue → Prop
  | .flag value => value = 0 ∨ value = 1
  | .string text => NovelAsm.byte '\n' ∉ text ∧ NovelAsm.byte '\r' ∉ text
  | .expression terms => Term.areLeft [] terms = true
  | _ => True

/-- Whatever a change puts in place of targets from code leads back to them. -/
def LeadsBack (change : CodeTarget → CodeTarget) (address : Referent → UInt32) : Prop :=
  ∀ destination : CodeTarget, destination.IsLinked →
    (change destination).linked address = destination

namespace OperandValue

variable {value : OperandValue} {change : CodeTarget → CodeTarget} {address : Referent → UInt32}

theorem numbers_mapTargets (value : OperandValue) (change : CodeTarget → CodeTarget) :
    (value.mapTargets change).numbers = value.numbers := by
  cases value <;> rfl

theorem targets_mapTargets (value : OperandValue) (change : CodeTarget → CodeTarget) :
    (value.mapTargets change).targets = value.targets.map change := by
  cases value <;> rfl

theorem IsStorable.mapTargets (h : value.IsStorable) (change : CodeTarget → CodeTarget) :
    (value.mapTargets change).IsStorable := by
  refine ⟨numbers_mapTargets value change ▸ h.numbers, ?_⟩
  cases value with
  | targetTable keys destinations =>
      obtain ⟨hcount, hkeys⟩ := h.body
      rw [OperandValue.mapTargets, BodyFits, List.length_map]
      exact ⟨hcount, hkeys⟩
  | _ => exact h.body

theorem map_linked (hback : LeadsBack change address) {destinations : List CodeTarget}
    (h : ∀ destination ∈ destinations, destination.IsLinked) :
    (destinations.map change).map (·.linked address) = destinations := by
  rw [List.map_map]
  exact (List.map_congr_left fun destination hmem => hback _ (h _ hmem)).trans
    (List.map_id _)

/-- An operand with names is linked to itself. -/
theorem linked_mapTargets (hback : LeadsBack change address) {place : Slot}
    (hholds : place.Holds value) (h : value.IsLinked) (behind : UInt32) :
    (value.mapTargets change).linked address behind = value := by
  cases value with
  | target destinations => exact congrArg OperandValue.target (map_linked hback h)
  | targetTable keys destinations =>
      obtain ⟨hdestinations, rfl⟩ := h
      have hlength : destinations.length = (destinations.map change).length :=
        (List.length_map change).symm
      have hcount : (destinations.map change).length ≤ 0xffff := hlength ▸ hholds.length_le
      have htargets : linkedTargets address behind
          (((List.range destinations.length).map Int32.ofNat).zip (destinations.map change)) =
            destinations := by
        rw [linkedTargets, hlength, Piece.entryCount_range hcount]
        refine List.ext_getElem (by simp) fun index hindex hother => ?_
        have hlt : index < (destinations.map change).length := by simpa using hindex
        rw [List.getElem_map, List.getElem_range, Piece.caseFor?_range hcount hlt]
        simp only [List.getElem_map]
        exact hback _ (hdestinations _ (List.getElem_mem hother))
      simp only [mapTargets, linked, htargets]
  | _ => rfl

/-- What can be said of an operand of an instruction from code can be written, with names or
without. -/
theorem isWritable_mapTargets (hspan : ∀ target, (change target).span = target.span) {place : Slot}
    (hholds : place.Holds value) (hlinked : value.IsLinked) (hcounts : value.CountsFit)
    (hnumbers : ∀ number ∈ value.numbers, number.encode?.isSome = true) (hsayable : value.IsSayable)
    (hbytes : ∀ bytes, value ≠ .byteList bytes) : (value.mapTargets change).IsWritable := by
  have hwritable : ∀ number ∈ value.numbers, number.IsWritable := fun number hnumber =>
    Number.isWritable_of_encode? (hnumbers number hnumber)
  have hspans {destinations : List CodeTarget}
      (h : ∀ destination ∈ destinations, destination.IsLinked) :
      ∀ destination ∈ destinations.map change, destination.span = .origin :=
    List.forall_mem_map.mpr fun destination hmem => by
      obtain ⟨_, rfl⟩ := h destination hmem
      exact hspan _
  cases value with
  | number value => exact hwritable value (List.mem_singleton_self _)
  | numberList values => exact ⟨hcounts, hwritable⟩
  | registerList values => exact hcounts
  | byteList bytes => exact absurd rfl (hbytes bytes)
  | bitmask values | paddedTable values => exact hwritable
  | flag value => exact hsayable
  | target destinations => exact hspans hlinked
  | targetTable keys destinations =>
      obtain ⟨hdestinations, rfl⟩ := hlinked
      have hcount := hholds.length_le
      refine ⟨hspans hdestinations, List.forall_mem_map.mpr fun index hindex => ?_⟩
      have hlt := List.mem_range.mp hindex
      rw [toInt_ofNat (by omega)]
      exact Int.natCast_nonneg index
  | expression terms =>
      cases place with
      | expression =>
          obtain ⟨formula, rfl⟩ := Formula.exists_terms hholds
          refine ⟨formula, rfl, Term.stays_of_areLeft hsayable ?_ formula rfl⟩
          intro value hmem
          have hnumber := hwritable (.constant value) (List.mem_filterMap.mpr ⟨_, hmem, rfl⟩)
          exact (show -0x80000000 < value.toInt from hnumber)
      | _ => exact hholds.elim
  | _ => trivial

end OperandValue

namespace Instruction

variable {instruction : Instruction} {form : Form} {change : CodeTarget → CodeTarget}
  {address : Referent → UInt32}

theorem OfForm.mapTargets (h : instruction.OfForm form) (change : CodeTarget → CodeTarget) :
    (instruction.mapTargets change).OfForm form where
  row := h.row
  subtype := h.subtype
  operands := by
    simp only [Instruction.mapTargets, List.forall₂_map_right_iff]
    exact h.operands.imp fun _ _ hholds => hholds.mapTargets change

/-- An instruction from code is linked to itself when names stand for its addresses. -/
theorem IsDecoded.linked_mapTargets (h : instruction.IsDecoded form)
    (hback : LeadsBack change address) (behind : UInt32) :
    (instruction.mapTargets change).linked address behind = instruction := by
  have hoperands : (instruction.mapTargets change).operands.map
      (fun operand => Operand.mk (operand.value.linked address behind) .origin) =
        instruction.operands := by
    rw [Instruction.mapTargets, List.map_map]
    refine (List.map_congr_left fun operand hoperand => ?_).trans (List.map_id _)
    obtain ⟨hself, hlinked, place, hholds⟩ := h.operand_eq hoperand
    rw [hself]
    exact congrArg (Operand.mk · .origin)
      (OperandValue.linked_mapTargets hback hholds hlinked behind)
  rw [Instruction.linked, hoperands, ← h.linked.span]
  rfl

/-- It is written with nothing to report. -/
theorem IsEncodable.diagnostics_mapTargets (h : instruction.IsEncodable form)
    (change : CodeTarget → CodeTarget) (offset : Nat) :
    (Piece.instruction offset (instruction.mapTargets change)).diagnostics = [] :=
  Piece.instruction_diagnostics offset (h.form.mapTargets change)
    (List.forall_mem_map.mpr fun operand hoperand =>
      (h.operands operand hoperand).isStorable.mapTargets change)

/-- What can be said of an instruction from code is printed so that it is lowered to the
instruction. -/
theorem IsDecoded.lowers_mapTargets (h : instruction.IsDecoded form)
    (hspan : ∀ target, (change target).span = target.span)
    (hsayable : ∀ operand ∈ instruction.operands, operand.value.IsSayable) :
    ∃ operands, (instruction.mapTargets change).PrintsAs form operands ∧
      form.instruction? (ascii form.mnemonic) .origin (operands.map PrintedOperand.argument) =
        pure (some (instruction.mapTargets change)) := by
  refine (h.form.mapTargets change).lowers h.linked.span ?_ ?_
  · exact List.forall_mem_map.mpr fun operand hoperand => (h.linked.operands operand hoperand).2
  · refine List.forall_mem_map.mpr fun operand hoperand => ?_
    obtain ⟨-, hlinked, place, hholds⟩ := h.operand_eq hoperand
    exact OperandValue.isWritable_mapTargets hspan hholds hlinked (h.counts operand hoperand)
      (h.numbers operand hoperand) (hsayable operand hoperand) fun bytes =>
        h.ne_byteList hoperand bytes

end Instruction

end NovelAsm
