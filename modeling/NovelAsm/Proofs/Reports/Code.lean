import NovelAsm.Proofs.Reports.Operands

/-!
What is said when a unit is encoded. A field for an address keeps the span of the place in the code
that it waits for, so that the linker can point at it.
-/

namespace NovelAsm

variable {allowed : Span → Prop}

/-- What is said of a piece of code comes before linking, and its fields have allowed spans. -/
structure Piece.Within (allowed : Span → Prop) (piece : Piece) : Prop where
  relocations : ∀ relocation ∈ piece.relocations, allowed relocation.span
  diagnostics : piece.diagnostics.AllUnlinked allowed

/-- The same of a unit as bytes, with the spans of its labels. -/
structure EncodedUnit.Within (allowed : Span → Prop) (unit : EncodedUnit) : Prop where
  relocations : ∀ relocation ∈ unit.relocations, allowed relocation.span
  labels : ∀ label ∈ unit.labels, allowed label.span
  diagnostics : unit.diagnostics.AllUnlinked allowed

namespace Piece

theorem ofBytes_within (bytes : Bytes) : (ofBytes bytes).Within allowed := ⟨nofun, nofun⟩

theorem Within.append {a b : Piece} (ha : a.Within allowed) (hb : b.Within allowed) :
    (a ++ b).Within allowed :=
  ⟨List.forall_mem_append.mpr ⟨ha.relocations, hb.relocations⟩,
    List.forall_mem_append.mpr ⟨ha.diagnostics, hb.diagnostics⟩⟩

theorem concat_within {pieces : List Piece} (h : ∀ piece ∈ pieces, piece.Within allowed) :
    (concat pieces).Within allowed where
  relocations relocation hmem := by
    obtain ⟨piece, hpiece, hmem⟩ := List.mem_flatMap.mp hmem
    exact (h piece hpiece).relocations relocation hmem
  diagnostics diagnostic hmem := by
    obtain ⟨piece, hpiece, hmem⟩ := List.mem_flatMap.mp hmem
    exact (h piece hpiece).diagnostics diagnostic hmem

theorem concat_map_within {α : Type} {step : α → Piece} {items : List α}
    (h : ∀ item ∈ items, (step item).Within allowed) :
    (concat (items.map step)).Within allowed := by
  refine concat_within fun piece hmem => ?_
  obtain ⟨item, hitem, rfl⟩ := List.mem_map.mp hmem
  exact h item hitem

theorem said_within {bytes : Bytes} {diagnostic : Diagnostic} (h : diagnostic.Unlinked allowed) :
    Within allowed ⟨bytes, [], [diagnostic]⟩ := ⟨nofun, List.forall_mem_singleton.mpr h⟩

section Operands

variable {span : Span} (h : allowed span)

include h

theorem number_within (value : Number) : (number span value).Within allowed := by
  simp only [number]
  split
  · exact ofBytes_within _
  · exact said_within (EncodingProblem.unlinked _ h)

theorem numbers_within (values : List Number) :
    (concat (values.map (number span))).Within allowed :=
  concat_map_within fun value _ => number_within h value

theorem string_within (text : Bytes) : (string span text).Within allowed := by
  simp only [string]
  split
  · exact said_within (EncodingProblem.unlinked _ h)
  · exact (ofBytes_within _).append (ofBytes_within _)

theorem field_within (offset : Nat) (referent : Referent) :
    (field offset referent span).Within allowed :=
  ⟨List.forall_mem_singleton.mpr h, nofun⟩

theorem term_within (value : Term) : (term span value).Within allowed := by
  cases value with
  | push value => exact (ofBytes_within _).append (number_within h value)
  | apply operator => exact ofBytes_within _

end Operands

theorem target_within (offset : Nat) {destination : CodeTarget} (h : allowed destination.span) :
    (target offset destination).Within allowed := by
  simp only [target]
  split
  · exact field_within h _ _
  · exact ofBytes_within _

theorem targets_within (offset : Nat) {destinations : List CodeTarget}
    (h : ∀ destination ∈ destinations, allowed destination.span) :
    (targets offset destinations).Within allowed := by
  refine concat_map_within fun item hitem => target_within _ (h _ ?_)
  obtain ⟨destination, index⟩ := item
  exact List.fst_mem_of_mem_zipIdx hitem

theorem repeatedCases_unlinked (seen : List Int32) {cases : List (Int32 × CodeTarget)}
    (h : ∀ item ∈ cases, allowed item.2.span) : (repeatedCases seen cases).AllUnlinked allowed := by
  induction cases generalizing seen with
  | nil => exact List.forall_mem_nil _
  | cons first rest ih =>
      obtain ⟨hfirst, hrest⟩ := List.forall_mem_cons.mp h
      simp only [repeatedCases]
      split
      · exact List.forall_mem_cons.mpr ⟨EncodingProblem.unlinked _ hfirst, ih _ hrest⟩
      · exact ih _ hrest

theorem targetTable_within (offset : Nat) {span : Span} (hspan : allowed span)
    {cases : List (Int32 × CodeTarget)} (h : ∀ item ∈ cases, allowed item.2.span) :
    (targetTable offset span cases).Within allowed := by
  refine ⟨?_, repeatedCases_unlinked [] h⟩
  refine ((ofBytes_within _).append (concat_map_within fun key _ => ?_)).relocations
  split
  · rename_i destination hfound
    obtain ⟨item, hitem, rfl⟩ := Option.map_eq_some_iff.mp hfound
    exact target_within _ (h item (List.mem_of_find?_eq_some hitem))
  · exact field_within hspan _ _

theorem operand_within (offset : Nat) {operand : Operand} (h : operand.Within allowed) :
    (Piece.operand offset operand).Within allowed := by
  obtain ⟨value, span⟩ := operand
  obtain ⟨hspan, htargets⟩ := h
  cases value with
  | number value => exact number_within hspan value
  | string text => exact string_within hspan text
  | numberList values => exact (ofBytes_within _).append (numbers_within hspan values)
  | bitmask slots => exact (ofBytes_within _).append (numbers_within hspan _)
  | target destinations => exact targets_within _ htargets
  | targetTable keys destinations =>
      exact targetTable_within _ hspan fun item hitem => htargets _ (List.of_mem_zip hitem).2
  | paddedTable values =>
      exact (ofBytes_within _).append (concat_map_within fun value _ =>
        (number_within hspan value).append (ofBytes_within _))
  | expression terms =>
      exact (concat_map_within fun term _ => term_within hspan term).append (ofBytes_within _)
  | registerList => exact (ofBytes_within _).append (ofBytes_within _)
  | register | byte | flag | messageId | byteList => exact ofBytes_within _

theorem operands_within (offset : Nat) {operands : List Operand}
    (h : ∀ operand ∈ operands, operand.Within allowed) :
    (Piece.operands offset operands).Within allowed := by
  induction operands generalizing offset with
  | nil => exact ofBytes_within []
  | cons first rest ih =>
      obtain ⟨hfirst, hrest⟩ := List.forall_mem_cons.mp h
      exact (operand_within offset hfirst).append (ih _ hrest)

theorem instruction_within (offset : Nat) {instruction : Instruction}
    (h : instruction.Within allowed) : (Piece.instruction offset instruction).Within allowed := by
  have hrefused : Within allowed ⟨[], [], [EncodingProblem.noEncoding.diagnose instruction.span]⟩ :=
    said_within (EncodingProblem.unlinked _ h.span)
  simp only [Piece.instruction]
  split
  · exact hrefused
  · split
    · exact hrefused
    · refine Within.append ?_ (operands_within _ h.operands)
      simp only [head]
      split <;> split <;> exact (ofBytes_within _).append (ofBytes_within _)

theorem instructions_within (offset : Nat) {instructions : List Instruction}
    (h : ∀ instruction ∈ instructions, instruction.Within allowed) :
    (concat ((Piece.instructions offset instructions).map Prod.snd)).Within allowed := by
  induction instructions generalizing offset with
  | nil => exact ofBytes_within []
  | cons first rest ih =>
      obtain ⟨hfirst, hrest⟩ := List.forall_mem_cons.mp h
      exact (instruction_within offset hfirst).append (ih _ hrest)

end Piece

/-- What is said when a unit is encoded, and the spans of its fields and labels. -/
theorem CodeUnit.Within.encode {unit : CodeUnit} (h : unit.Within allowed) :
    unit.encode.Within allowed where
  relocations := (Piece.instructions_within 0 h.instructions).relocations
  labels label hlabel := by
    obtain ⟨mark, hmark, rfl⟩ := List.mem_map.mp hlabel
    exact h.labels mark hmark
  diagnostics := (Piece.instructions_within 0 h.instructions).diagnostics

end NovelAsm
