import NovelAsm.Proofs.Layout.Listing
import NovelAsm.Proofs.SyntaxTree.Trivia

/-!
Comments, blanks and line continuations are layout. Texts whose tokens agree in kind and text
once trivia are left out have trees of one core, with error nodes in the same places, and so
they are listed as the same units but for places (`Listing.ofSource_of_tokens`).
-/

namespace NovelAsm

theorem OperandValue.caseTexts_bare (keys : List Int32) (targets : List CodeTarget) :
    caseTexts keys (targets.map CodeTarget.bare) = caseTexts keys targets := by
  rw [caseTexts, caseTexts, List.zipIdx_map, List.map_map]
  rfl

theorem OperandValue.text_bare (value : OperandValue) :
    (value.mapTargets CodeTarget.bare).text = value.text := by
  cases value with
  | target targets => cases targets <;> rfl
  | targetTable keys targets =>
      cases targets with
      | nil => rfl
      | cons first rest =>
          change ascii "\x7b " ++ commaJoin
            (caseTexts keys ((first :: rest).map CodeTarget.bare)) ++
            ascii " \x7d" = _
          rw [caseTexts_bare]
          rfl
  | _ => rfl

namespace Instruction

theorem positionalText?_bare (value : OperandValue) :
    positionalText? (value.mapTargets CodeTarget.bare) = positionalText? value := by
  cases value with
  | target targets => exact congrArg some (OperandValue.text_bare (.target targets))
  | targetTable keys targets =>
      exact congrArg some (OperandValue.text_bare (.targetTable keys targets))
  | _ => rfl

theorem flagText?_bare (form : Form) (value : OperandValue) :
    flagText? form (value.mapTargets CodeTarget.bare) = flagText? form value := by
  cases value <;> rfl

theorem conditionNumber_bare (value : OperandValue) :
    (value.mapTargets CodeTarget.bare).conditionNumber = value.conditionNumber := by
  cases value <;> rfl

theorem operandTexts_bare (form : Form) (instruction : Instruction) :
    operandTexts form instruction.bare = operandTexts form instruction := by
  have hvalues : instruction.bare.operands.map Operand.value =
      (instruction.operands.map Operand.value).map (OperandValue.mapTargets CodeTarget.bare) := by
    simp [bare, Operand.bare, Function.comp_def]
  simp only [operandTexts, hvalues, List.filterMap_map, Function.comp_def, positionalText?_bare,
    flagText?_bare]

/-- The text of an instruction tells nothing about places. -/
theorem text_bare (instruction : Instruction) : instruction.bare.text = instruction.text := by
  have hconditional : instruction.bare.conditionalText = instruction.conditionalText := by
    obtain ⟨opcode, subtype, operands, span⟩ := instruction
    match operands with
    | [] | [_] | [_, _] => rfl
    | [left, right, target] =>
        simp only [conditionalText, bare, List.map_cons, List.map_nil, Operand.bare,
          conditionNumber_bare, OperandValue.text_bare]
    | _ :: _ :: _ :: _ :: _ => rfl
  have hform : Form.ofInstruction? instruction.bare = Form.ofInstruction? instruction := rfl
  simp only [text, hform, hconditional, operandTexts_bare]
  rfl

end Instruction

/-- The canonical text of a unit tells nothing about places. -/
theorem CodeUnit.canonicalText_bare (unit : CodeUnit) :
    unit.bare.canonicalText = unit.canonicalText := by
  have hlines : (unit.instructions.map Instruction.bare).zipIdx.flatMap
        (fun entry => canonicalLine entry.2 entry.1) =
      unit.instructions.zipIdx.flatMap fun entry => canonicalLine entry.2 entry.1 := by
    rw [List.zipIdx_map, List.flatMap_map]
    refine List.flatMap_congr fun entry _ => ?_
    simp only [Prod.map, canonicalLine, Instruction.text_bare]
    rfl
  simp only [canonicalText, bare, hlines, List.flatMap_map, LabelMark.bare]

namespace Listing

/-- Texts that differ in comments, blanks and line continuations alone are listed as the same
units but for places, also when there are errors in them; so the canonical texts of the units
and their fingerprints are the same. -/
theorem ofSource_of_tokens {source other : Bytes}
    (h : ((Lexed.read other .origin).tokens.filter (!·.isTrivia)).map
        (fun token => (token.kind, token.text)) =
      ((Lexed.read source .origin).tokens.filter (!·.isTrivia)).map
        fun token => (token.kind, token.text)) :
    (ofSource other).units.map CodeUnit.bare = (ofSource source).units.map CodeUnit.bare ∧
      (ofSource other).units.map CodeUnit.canonicalText =
        (ofSource source).units.map CodeUnit.canonicalText ∧
      (ofSource other).units.map CodeUnit.fingerprint =
        (ofSource source).units.map CodeUnit.fingerprint := by
  have htokens : Lexed.tokensOf other = Lexed.tokensOf source := by
    have hbare :=
      congrArg (List.map fun pair : TokenKind × Bytes => Token.mk pair.1 pair.2 .origin) h
    rw [List.map_map, List.map_map] at hbare
    rw [← ParsedSource.view_before other .origin, ← ParsedSource.view_before source .origin]
    exact hbare
  have hjoined := @SyntaxTree.joinedAll_congr_core false _ _
    (ParsedSource.coreAll_children_congr htokens)
  have hunits : (ofSource other).units.map CodeUnit.bare =
      (ofSource source).units.map CodeUnit.bare := by
    rw [units_bare, units_bare]
    exact congrArg (List.map fun routine => routine.lower.1)
      (congrArg Prod.fst (wholeRoutines_congr hjoined))
  have hcanonical : (ofSource other).units.map CodeUnit.canonicalText =
      (ofSource source).units.map CodeUnit.canonicalText := by
    have htexts := congrArg (List.map CodeUnit.canonicalText) hunits
    rw [List.map_map, List.map_map] at htexts
    simpa only [Function.comp_def, CodeUnit.canonicalText_bare] using htexts
  refine ⟨hunits, hcanonical, ?_⟩
  have hprints := congrArg (List.map Fingerprint.ofText) hcanonical
  rwa [List.map_map, List.map_map] at hprints

/-- A line with an operand too many, with two comments and a line continuation in it. -/
theorem ofSource_of_tokens_line_continued :
    let source := ascii "A:\n    EXIT 1, 0 0\n"
    let other := ascii "A: // Nothing.\nEXIT /* code */ 1, 0 \\\n0\n"
    ((Lexed.read other .origin).tokens.filter (!·.isTrivia)).map
        (fun token => (token.kind, token.text)) =
      ((Lexed.read source .origin).tokens.filter (!·.isTrivia)).map
        (fun token => (token.kind, token.text)) ∧
      (ofSource source).units.length = 1 ∧
      (ofSource other).units.map CodeUnit.fingerprint =
        (ofSource source).units.map CodeUnit.fingerprint := by
  intro source other
  have htokens : ((Lexed.read other .origin).tokens.filter (!·.isTrivia)).map
        (fun token => (token.kind, token.text)) =
      ((Lexed.read source .origin).tokens.filter (!·.isTrivia)).map
        fun token => (token.kind, token.text) := by decide +kernel
  exact ⟨htokens, by decide +kernel, (ofSource_of_tokens htokens).2.2⟩

end Listing

end NovelAsm
