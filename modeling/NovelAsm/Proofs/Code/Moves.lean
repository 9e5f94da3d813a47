import NovelAsm.Proofs.Code.Placement

/-!
Moving code. What an instruction is encoded to does not ask where it stands: in another place it
holds the same bytes and reports the same, and only waits for addresses elsewhere. So linked code
stays the same when it is moved, as long as the addresses that it asks for do.
-/

namespace NovelAsm

namespace Piece

/-- Pieces that hold the same bytes and report the same. They may wait for other addresses. -/
structure Alike (a b : Piece) : Prop where
  bytes : a.bytes = b.bytes
  diagnostics : a.diagnostics = b.diagnostics

theorem Alike.rfl {piece : Piece} : Alike piece piece := ⟨.refl _, .refl _⟩

theorem Alike.append {a b c d : Piece} (h : Alike a b) (hbehind : Alike c d) :
    Alike (a ++ c) (b ++ d) :=
  ⟨congrArg₂ (· ++ ·) h.bytes hbehind.bytes,
    congrArg₂ (· ++ ·) h.diagnostics hbehind.diagnostics⟩

theorem Alike.size {a b : Piece} (h : Alike a b) : a.size = b.size := congrArg List.length h.bytes

theorem alike_concat {α : Type} {items : List α} {piece other : α → Piece}
    (h : ∀ item ∈ items, Alike (piece item) (other item)) :
    Alike (concat (items.map piece)) (concat (items.map other)) := by
  constructor
  · simp only [concat, List.flatMap_map]
    exact List.flatMap_congr fun item hitem => (h item hitem).bytes
  · simp only [concat, List.flatMap_map]
    exact List.flatMap_congr fun item hitem => (h item hitem).diagnostics

variable (offset other : Nat)

theorem alike_target (destination : CodeTarget) :
    Alike (target offset destination) (target other destination) := by
  simp only [target]
  split
  · exact ⟨rfl, rfl⟩
  · exact .rfl

theorem alike_targetTable (span : Span) (cases : List (Int32 × CodeTarget)) :
    Alike (targetTable offset span cases) (targetTable other span cases) := by
  have hrow : Alike
      (concat ((List.range (entryCount cases)).map (tableEntry (offset + 2)
        (offset + 2 + 4 * entryCount cases).toUInt32 span cases)))
      (concat ((List.range (entryCount cases)).map (tableEntry (other + 2)
        (other + 2 + 4 * entryCount cases).toUInt32 span cases))) := by
    refine alike_concat fun key _ => ?_
    simp only [tableEntry]
    split
    · exact alike_target _ _ _
    · exact ⟨rfl, rfl⟩
  exact ⟨(@Alike.rfl (u16 (entryCount cases))).append hrow |>.bytes, rfl⟩

theorem alike_operand (operand : Operand) :
    Alike (Piece.operand offset operand) (Piece.operand other operand) := by
  obtain ⟨value, span⟩ := operand
  cases value with
  | target destinations => exact alike_concat fun entry _ => alike_target _ _ _
  | targetTable keys destinations => exact alike_targetTable _ _ _ _
  | _ => exact .rfl

theorem alike_operands (values : List Operand) :
    Alike (operands offset values) (operands other values) := by
  induction values generalizing offset other with
  | nil => exact .rfl
  | cons first rest ih => exact (alike_operand offset other first).append (ih _ _)

/-- An instruction is encoded alike wherever it stands. -/
theorem alike_instruction (instruction : Instruction) :
    Alike (Piece.instruction offset instruction) (Piece.instruction other instruction) := by
  simp only [Piece.instruction]
  split
  · exact .rfl
  · split
    · exact .rfl
    · exact Alike.rfl.append (alike_operands _ _ _)

theorem alike_instructions (values : List Instruction) :
    Alike (concat ((instructions offset values).map Prod.snd))
      (concat ((instructions other values).map Prod.snd)) := by
  induction values generalizing offset other with
  | nil => exact .rfl
  | cons first rest ih => exact (alike_instruction offset other first).append (ih _ _)

/-- Instructions in front of others are encoded like the ones and the others apart. -/
theorem alike_instructions_append (front back : List Instruction) :
    Alike (concat ((instructions offset (front ++ back)).map Prod.snd))
      (concat ((instructions offset front).map Prod.snd) ++
        concat ((instructions other back).map Prod.snd)) := by
  induction front generalizing offset with
  | nil => exact alike_instructions offset other back
  | cons first rest ih =>
      obtain ⟨hbytes, hdiagnostics⟩ := (@Alike.rfl (Piece.instruction offset first)).append
        (ih (offset + (Piece.instruction offset first).size))
      exact ⟨hbytes.trans (List.append_assoc ..).symm,
        hdiagnostics.trans (List.append_assoc ..).symm⟩

end Piece

variable {address other : Referent → UInt32}

theorem CodeTarget.linked_congr {destination : CodeTarget}
    (h : ∀ name, destination.place = .symbol name → address (.symbol name) = other (.symbol name)) :
    destination.linked address = destination.linked other := by
  simp only [linked]
  split
  · rename_i name hname
    rw [h name hname]
  · rfl

theorem OperandValue.linked_congr {value : OperandValue} {behind last : UInt32}
    (h : ∀ destination ∈ value.targets, ∀ name, destination.place = .symbol name →
      address (.symbol name) = other (.symbol name))
    (hbehind : address (.unitOffset behind) = other (.unitOffset last)) :
    value.linked address behind = value.linked other last := by
  cases value with
  | target destinations =>
      exact congrArg OperandValue.target (List.map_congr_left fun destination hmem =>
        CodeTarget.linked_congr (h destination hmem))
  | targetTable keys destinations =>
      have htargets : linkedTargets address behind (keys.zip destinations) =
          linkedTargets other last (keys.zip destinations) := by
        refine List.map_congr_left fun key _ => ?_
        cases hcase : Piece.caseFor? (keys.zip destinations) key with
        | none => simp only [hbehind]
        | some destination =>
            obtain ⟨entry, hentry, rfl⟩ := Piece.caseFor?_mem hcase
            exact CodeTarget.linked_congr (h entry.2 (List.of_mem_zip hentry).2)
      simp only [linked, htargets]
  | _ => rfl

theorem Instruction.linked_congr {instruction : Instruction} {behind last : UInt32}
    (h : ∀ destination ∈ instruction.targets, ∀ name, destination.place = .symbol name →
      address (.symbol name) = other (.symbol name))
    (hbehind : address (.unitOffset behind) = other (.unitOffset last)) :
    instruction.linked address behind = instruction.linked other last := by
  have hoperands : instruction.operands.map
      (fun operand => Operand.mk (operand.value.linked address behind) .origin) =
        instruction.operands.map
          (fun operand => Operand.mk (operand.value.linked other last) .origin) :=
    List.map_congr_left fun operand hoperand => congrArg (Operand.mk · .origin)
      (OperandValue.linked_congr (fun destination hmem =>
        h destination (List.mem_flatMap.mpr ⟨operand, hoperand, hmem⟩)) hbehind)
  simp only [linked, hoperands]

namespace Piece

/-- Code of instructions in front of others. -/
theorem linkedCode_append (address : Referent → UInt32) (offset : Nat)
    (front back : List Instruction) :
    linkedCode address offset (front ++ back) = linkedCode address offset front ++
      linkedCode address
        (offset + (concat ((instructions offset front).map Prod.snd)).size) back := by
  induction front generalizing offset with
  | nil => rfl
  | cons first rest ih =>
      rw [List.cons_append, linkedCode, ih, linkedCode, List.append_assoc]
      have hsize : (concat ((instructions offset (first :: rest)).map Prod.snd)).size =
          (Piece.instruction offset first).size + (concat ((instructions
            (offset + (Piece.instruction offset first).size) rest).map Prod.snd)).size :=
        List.length_append
      rw [hsize, Nat.add_assoc]

/-- Linked code stays the same where the addresses of its names and of its places do. -/
theorem linkedCode_congr {instructions : List Instruction} {start moved : Nat}
    (h : ∀ instruction ∈ instructions, ∀ destination ∈ instruction.targets, ∀ name,
      destination.place = .symbol name → address (.symbol name) = other (.symbol name))
    (hmoved : ∀ offset, address (.unitOffset (start + offset).toUInt32) =
      other (.unitOffset (moved + offset).toUInt32)) :
    linkedCode address start instructions = linkedCode other moved instructions := by
  induction instructions generalizing start moved with
  | nil => rfl
  | cons first rest ih =>
      obtain ⟨hfirst, hrest⟩ := List.forall_mem_cons.mp h
      have hsize := (alike_instruction moved start first).size
      have hlinked := Instruction.linked_congr hfirst (hmoved (Piece.instruction start first).size)
      have hmore := @ih (start + (Piece.instruction start first).size)
        (moved + (Piece.instruction start first).size) hrest fun offset => by
          rw [Nat.add_assoc, Nat.add_assoc, hmoved]
      rw [linkedCode, linkedCode, hsize, hlinked, (alike_instruction start moved _).bytes, hmore]

end Piece

end NovelAsm
