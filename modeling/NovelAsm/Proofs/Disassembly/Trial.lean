import NovelAsm.Proofs.Code.References
import NovelAsm.Proofs.Disassembly.Labels
import NovelAsm.Proofs.Disassembly.Script

/-!
Trying a printed line. The script that a line is tried in consists of a label and the line, so it
is read as that, and lowered to what the line is lowered to by itself. What the line is assembled
to is that code, linked at the place of the line with the names of the block.
-/

namespace NovelAsm

theorem isLabelName_probeLabel : IsLabelName CodeLabels.probeLabel :=
  ⟨by decide, by decide, by decide⟩

/-- A unit that is linked by itself. -/
def CodeUnit.alone (unit : CodeUnit) : PlacedUnit := ⟨unit.encode, .origin⟩

theorem CodeUnit.fills_alone (unit : CodeUnit) {address : Referent → UInt32}
    (h : ∀ instruction ∈ unit.instructions, ∃ form, instruction.OfForm form) :
    Piece.Fills address 0 unit.alone.unit.piece (Piece.linkedCode address 0 unit.instructions) :=
  Piece.fills_instructions h

namespace PrintedLine

/-- The code of the script that a line is tried in. -/
def trialUnit (line : PrintedLine) : CodeUnit := Script.unit ⟨CodeLabels.probeLabel, [line]⟩

end PrintedLine

namespace CodeLabels

variable {line : PrintedLine}

theorem probeSource_shown (line : PrintedLine) :
    probeSource line.shown = (ScriptText.ofLine probeLabel line).shown :=
  (ScriptText.shown_ofLine probeLabel line).symm

/-- A line that is tried is lowered to its own code, unless that has errors. -/
theorem probeUnit?_bare {scope : Scope} (hscope : scope.HasLabelsAlone) (h : line.IsLegible)
    (hknown : ∀ operand ∈ line.operands, operand.IsKnown scope) :
    (probeUnit? scope line.shown).map CodeUnit.bare =
      if line.reports.hasErrors then none else some line.trialUnit := by
  have hlegible := ScriptText.ofLine_legible isLabelName_probeLabel h
  obtain ⟨hroutines, hresolved⟩ := ScriptText.resolve_shown hscope hlegible
    (ScriptText.ofLine_known hknown) trivial
  have hclean := ScriptText.clean hlegible
  have hscript := Script.lower_routine hscope ⟨probeLabel, [line]⟩
    (List.forall_mem_singleton.mpr h.row) (List.forall_mem_singleton.mpr hknown)
  unfold probeUnit?
  simp only [probeSource_shown]
  generalize ParsedSource.read (ScriptText.ofLine probeLabel line).shown .origin = parsed at *
  generalize Routine.resolve scope parsed.tree = resolved at *
  obtain ⟨routines, reports⟩ := resolved
  obtain ⟨routine, rfl, hroutine⟩ := List.map_eq_singleton_iff.mp
    (show routines.map Routine.bare = [Script.routine ⟨probeLabel, [line]⟩] from hroutines)
  obtain rfl : reports = [] := hresolved
  rw [← hroutine, Routine.lower_bare] at hscript
  obtain ⟨hunit, hreports⟩ := Prod.mk.inj hscript
  have herrors : (parsed.diagnostics ++ [] ++ routine.lower.2).any Diagnostic.isError =
      line.reports.hasErrors := by
    rw [hclean, List.append_nil, List.nil_append, ← List.append_nil line.reports]
    exact (Diagnostics.hasErrors_bare _).symm.trans (congrArg Diagnostics.hasErrors hreports)
  simp only [herrors]
  split
  · rfl
  · exact congrArg some hunit

/-- What a line is assembled to at an offset. -/
theorem assemble?_shown (labels : CodeLabels) (offset : Nat) (h : line.IsLegible)
    (hknown : ∀ operand ∈ line.operands, operand.IsKnown labels.probeScope) :
    labels.assemble? labels.probeScope offset line.shown =
      if line.reports.hasErrors then none
      else
        let program := LinkedProgram.link (labels.address offset) labels.externals
          [⟨line.trialUnit.encode, .origin⟩]
        if program.diagnostics.isEmpty then some program.code else none := by
  have hunit := probeUnit?_bare labels.probeScope_labelsAlone h hknown
  rw [assemble?]
  generalize probeUnit? labels.probeScope line.shown = found at hunit
  cases found with
  | none =>
      split
      · rfl
      · rename_i hnone
        rw [if_neg hnone] at hunit
        cases hunit
  | some unit =>
      split
      · rename_i hsome
        rw [if_pos hsome] at hunit
        cases hunit
      · rename_i hnone
        rw [if_neg hnone] at hunit
        have hbare : unit.bare = line.trialUnit := Option.some.inj hunit
        have hplaced : [PlacedUnit.mk line.trialUnit.encode .origin] =
            [PlacedUnit.mk unit.encode .origin].map PlacedUnit.bare := by
          rw [← hbare, CodeUnit.encode_bare]
          rfl
        rw [hplaced, LinkedProgram.link_bare]
        simp only [Option.bind_some, LinkedProgram.bare, Diagnostics.bare, List.isEmpty_map]

/-- The symbols that a line is linked with where it is tried: its label, and the names of the
block outside. -/
def trialSymbols (labels : CodeLabels) (offset : Nat) (line : PrintedLine) : NameMap UInt32 :=
  labels.externals.foldl (fun symbols entry => symbols.insertNew entry.1 entry.2)
    (LinkedProgram.definedSymbols CodeUnit.alone
      (labels.address offset).toNat .empty [line.trialUnit])

theorem find?_trialSymbols (labels : CodeLabels) (offset : Nat) (line : PrintedLine)
    {name : Bytes} (hname : name ≠ probeLabel) : (labels.trialSymbols offset line).find? name =
      (labels.externals.find? (·.1 == name)).map Prod.snd := by
  have hsorted := LinkedProgram.sorted_definedSymbols
    CodeUnit.alone (labels.address offset).toNat [line.trialUnit]
  have hnone : (LinkedProgram.definedSymbols CodeUnit.alone
      (labels.address offset).toNat .empty [line.trialUnit]).find? name = none := by
    rw [LinkedProgram.find?_definedSymbols, Option.map_eq_none_iff]
    exact List.find?_eq_none.mpr (List.forall_mem_singleton.mpr fun heq =>
      hname (beq_iff_eq.mp heq).symm)
  rw [trialSymbols, NameMap.find?_foldl_insertNew _ hsorted, hnone]
  rfl

/-- The name of a place of the block stands for its address. -/
theorem WellNamed.find?_trialSymbols {labels : CodeLabels} (h : labels.WellNamed) {place : Nat}
    {name : Bytes} (hname : (place, name) ∈ labels.names) (offset : Nat) (line : PrintedLine) :
    (labels.trialSymbols offset line).find? name = some (labels.address place) := by
  rw [CodeLabels.find?_trialSymbols labels offset line (h.ne_probeLabel hname),
    h.find?_externals hname]
  rfl

/-- A line whose names are those of the block is assembled to its instructions, each with the
addresses of the names, if there is nothing to report about its code. -/
theorem WellNamed.assemble?_linked {labels : CodeLabels} (h : labels.WellNamed) {offset : Nat}
    (hlegible : line.IsLegible)
    (hknown : ∀ operand ∈ line.operands, operand.IsKnown labels.probeScope)
    (hreports : line.reports = [])
    (hforms : ∀ instruction ∈ line.instructions, ∃ form, instruction.OfForm form)
    (hnames : ∀ name, line.trialUnit.Names name → ∃ place, (place, name) ∈ labels.names)
    (hclean : line.trialUnit.encode.diagnostics = [])
    (hfits : (labels.address offset).toNat + line.trialUnit.encode.bytes.length ≤
      LinkedProgram.addressLimit) :
    labels.assemble? labels.probeScope offset line.shown =
      some (Piece.linkedCode (LinkedProgram.addressIn (labels.trialSymbols offset line)
        (labels.address offset).toNat) 0 line.instructions) := by
  have hinstructions : line.trialUnit.instructions = line.instructions := by
    simp [PrintedLine.trialUnit, Script.unit]
  rw [← hinstructions] at hforms ⊢
  have hfitted : LinkedProgram.Fits CodeUnit.alone (labels.address offset) [line.trialUnit] := by
    simpa [LinkedProgram.Fits, CodeUnit.alone] using hfits
  have hrefers : line.trialUnit.encode.piece.Refers
      (fun name => ((labels.trialSymbols offset line).find? name).isSome) 0 :=
    (CodeUnit.refers_encode hforms).mono fun name hname => by
      obtain ⟨place, hplace⟩ := hnames name hname
      rw [h.find?_trialSymbols hplace]
      rfl
  obtain ⟨hcode, -, hdiagnostics⟩ := @LinkedProgram.link_of_known _ CodeUnit.alone _
    labels.externals _ hfitted (labels.trialSymbols offset line) rfl
    (fun start unit => Piece.linkedCode
      (LinkedProgram.addressIn (labels.trialSymbols offset line) start) 0 unit.instructions)
    (fun _ => List.forall_mem_singleton.mpr (line.trialUnit.fills_alone hforms))
    (List.forall_mem_singleton.mpr hrefers)
  have hquiet : (LinkedProgram.link (labels.address offset) labels.externals
      [⟨line.trialUnit.encode, .origin⟩]).diagnostics = [] := by
    refine hdiagnostics.trans ?_
    rw [List.flatMap_singleton]
    exact congrArg (Diagnostics.rebase · .origin) hclean
  rw [assemble?_shown labels offset hlegible hknown, hreports,
    if_neg (by simp [Diagnostics.hasErrors])]
  simp only [hquiet, List.isEmpty_nil, if_true]
  refine congrArg some (hcode.trans ?_)
  simp only [LinkedProgram.codesFrom, List.append_nil]

end CodeLabels

end NovelAsm
