import NovelAsm.Proofs.Code.Sweep
import NovelAsm.Proofs.Disassembly.Symbolic
import NovelAsm.Proofs.Disassembly.Trial

/-!
What a disassembly writes as instructions. Every entry whose instruction source can say, and whose
bytes are those that the instruction is encoded to, is reproduced by its text, so it becomes one
line and leaves no raw bytes.
-/

namespace NovelAsm

namespace OperandValue

/-- The places of a value have names that a scope knows, and each case of a table has its key. -/
def IsKnown (scope : Scope) : OperandValue → Prop
  | .target destinations => ∀ destination ∈ destinations, destination.place.IsKnown scope
  | .targetTable keys destinations =>
      keys.length = destinations.length ∧
        ∀ destination ∈ destinations, destination.place.IsKnown scope
  | _ => True

theorem PrintsAs.isKnown {scope : Scope} {value : OperandValue} {printed : List PrintedOperand}
    (h : value.PrintsAs printed) (hvalue : value.IsKnown scope) :
    ∀ operand ∈ printed, operand.IsKnown scope := by
  cases h with
  | target destination =>
      exact List.forall_mem_singleton.mpr (hvalue destination (List.mem_singleton_self _))
  | targetTable keys destinations =>
      obtain ⟨hlength, hknown⟩ := hvalue
      refine List.forall_mem_singleton.mpr ?_
      rw [PrintedOperand.IsKnown, Argument.tableCases_eq hlength]
      refine List.forall_mem_map.mpr fun entry hentry => ?_
      obtain ⟨-, hdestination⟩ := List.of_mem_zip hentry
      refine ⟨?_, hknown _ hdestination⟩
      have hlow := entry.1.le_toInt
      have hhigh := entry.1.toInt_lt
      simp only [Literal.integerLimit]
      omega
  | numberList | registerList | byteList => exact List.forall_mem_map.mpr fun _ _ => trivial
  | flag => exact List.forall_mem_nil _
  | _ => exact List.forall_mem_singleton.mpr trivial

end OperandValue

namespace CodeLabels

variable {labels : CodeLabels} {address : Referent → UInt32}

/-- A place that is named is known in the scope that a text is tried in, by a name that source can
spell. -/
theorem WellNamed.symbolize_place (h : labels.WellNamed) {destination : CodeTarget}
    (hlinked : destination.IsLinked) {name : Bytes}
    (hname : (labels.symbolize destination).place = .symbol name) :
    IsLabelName name ∧ ∃ offset, (offset, name) ∈ labels.names ∧
      destination = ⟨.address (labels.address offset), .origin⟩ := by
  obtain ⟨value, rfl⟩ := hlinked
  obtain ⟨offset, hmem, rfl⟩ := exists_of_symbolize rfl hname
  exact ⟨h.isLabelName hmem, offset, hmem, rfl⟩

theorem span_symbolize (labels : CodeLabels) (destination : CodeTarget) :
    (labels.symbolize destination).span = destination.span := by
  rw [symbolize]
  split
  · rfl
  · split <;> rfl

/-- The names of a block lead back to its addresses. -/
theorem WellNamed.leadsBack (h : labels.WellNamed)
    (haddress : ∀ offset name, (offset, name) ∈ labels.names →
      address (.symbol name) = labels.address offset) : LeadsBack labels.symbolize address := by
  intro destination hlinked
  cases hplace : (labels.symbolize destination).place with
  | symbol name =>
      obtain ⟨-, offset, hmem, rfl⟩ := h.symbolize_place hlinked hplace
      rw [CodeTarget.linked, hplace]
      simp only [haddress offset name hmem]
  | address value =>
      obtain ⟨original, rfl⟩ := hlinked
      have hkept : (labels.symbolize ⟨.address original, .origin⟩).place = .address original := by
        simp only [symbolize] at hplace ⊢
        split
        · rename_i heq
          rw [heq] at hplace
          cases hplace
        · rfl
      rw [CodeTarget.linked, hkept]

end CodeLabels

namespace Instruction

variable {instruction : Instruction} {form : Form} {labels : CodeLabels}

/-- Once a decoded instruction has names for its addresses, its texts apart, it can be read. -/
theorem IsDecoded.legible_symbolize (h : instruction.IsDecoded form) (hnamed : labels.WellNamed)
    (hsayable : ∀ operand ∈ instruction.operands, operand.value.IsSayable) :
    ∀ operand ∈ (instruction.mapTargets labels.symbolize).operands, operand.value.IsLegible := by
  have hplaces {destinations : List CodeTarget}
      (hlinked : ∀ destination ∈ destinations, destination.IsLinked) :
      ∀ destination ∈ destinations.map labels.symbolize, destination.place.IsNamed :=
    List.forall_mem_map.mpr fun destination hmem name hname =>
      (hnamed.symbolize_place (hlinked destination hmem) hname).1
  refine List.forall_mem_map.mpr fun operand hoperand => ?_
  have hlinked := (h.operand_eq hoperand).2.1
  have htext := hsayable operand hoperand
  cases hvalue : operand.value with
  | string text =>
      rw [hvalue] at htext
      exact htext
  | target destinations =>
      rw [hvalue] at hlinked
      exact hplaces hlinked
  | targetTable keys destinations =>
      rw [hvalue] at hlinked
      exact hplaces hlinked.1
  | _ => trivial

/-- The names that stand for its addresses are known where those of the block are. -/
theorem IsDecoded.known_symbolize (h : instruction.IsDecoded form) (hnamed : labels.WellNamed)
    {scope : Scope}
    (hscope : ∀ place name, (place, name) ∈ labels.names → (Place.symbol name).IsKnown scope) :
    ∀ operand ∈ (instruction.mapTargets labels.symbolize).operands,
      operand.value.IsKnown scope := by
  have hplaces {destinations : List CodeTarget}
      (hlinked : ∀ destination ∈ destinations, destination.IsLinked) :
      ∀ destination ∈ destinations.map labels.symbolize, destination.place.IsKnown scope :=
    List.forall_mem_map.mpr fun destination hmem name hname => by
      obtain ⟨-, offset, hname, -⟩ := hnamed.symbolize_place (hlinked destination hmem) hname
      exact hscope offset name hname name rfl
  refine List.forall_mem_map.mpr fun operand hoperand => ?_
  have hlinked := (h.operand_eq hoperand).2.1
  cases hvalue : operand.value with
  | target destinations =>
      rw [hvalue] at hlinked
      exact hplaces hlinked
  | targetTable keys destinations =>
      rw [hvalue] at hlinked
      obtain ⟨hdestinations, rfl⟩ := hlinked
      refine ⟨?_, hplaces hdestinations⟩
      rw [List.length_map, List.length_map, List.length_range]
  | _ => trivial

/-- The names that it refers to are those of the block. -/
theorem IsDecoded.names_symbolize (h : instruction.IsDecoded form) (hnamed : labels.WellNamed) :
    ∀ destination ∈ (instruction.mapTargets labels.symbolize).targets, ∀ name,
      destination.place = .symbol name → ∃ place, (place, name) ∈ labels.names := by
  intro destination hdestination name hname
  obtain ⟨_, hmapped, hmem⟩ := List.mem_flatMap.mp hdestination
  obtain ⟨operand, hoperand, rfl⟩ := List.mem_map.mp hmapped
  obtain ⟨original, horiginal, rfl⟩ :=
    List.mem_map.mp (operand.value.targets_mapTargets labels.symbolize ▸ hmem)
  obtain ⟨-, offset, hoffset, -⟩ :=
    hnamed.symbolize_place (h.targets_linked hoperand original horiginal) hname
  exact ⟨offset, hoffset⟩

/-- With the addresses of the names it is encoded as it was before. -/
theorem IsDecoded.linkedCode_symbolize (h : instruction.IsDecoded form)
    (hback : LeadsBack labels.symbolize address) (offset : Nat) :
    Piece.linkedCode address offset [instruction.mapTargets labels.symbolize] =
      (Piece.instruction offset instruction).bytes := by
  rw [Piece.linkedCode, h.linked_mapTargets hback]
  exact List.append_nil _

theorem IsDecoded.length_symbolize (h : instruction.IsDecoded form)
    (hback : LeadsBack labels.symbolize address) (offset : Nat) :
    (Piece.instruction offset (instruction.mapTargets labels.symbolize)).bytes.length =
      (Piece.instruction offset instruction).bytes.length := by
  have hfills := (@Piece.fills_instruction address offset _ form
    (h.form.mapTargets labels.symbolize) _ rfl).length_eq
  rw [h.linked_mapTargets hback] at hfills
  exact hfills.symm

/-- What source can say of a decoded instruction is reproduced by its text. -/
theorem IsDecoded.reproduces (h : instruction.IsDecoded form)
    (hencodable : instruction.IsEncodable form) (hnamed : labels.WellNamed)
    (hsayable : ∀ operand ∈ instruction.operands, operand.value.IsSayable) {entry : SweepEntry}
    (hagain : (Piece.instruction 0 instruction).bytes = entry.bytes)
    (hfits : labels.base.toNat + entry.offset + entry.bytes.length ≤ LinkedProgram.addressLimit) :
    labels.reproduces labels.probeScope entry (instruction.mapTargets labels.symbolize).text =
      true := by
  obtain ⟨operands, hprints, hmakes⟩ := h.lowers_mapTargets labels.span_symbolize hsayable
  have hrow := (Form.of_ofOpcode? h.form.row).1
  let line : PrintedLine := ⟨form, operands⟩
  have hlegible : line.IsLegible := hprints.isLegible hrow (h.legible_symbolize hnamed hsayable)
  have hknown : ∀ operand ∈ line.operands, operand.IsKnown labels.probeScope :=
    hprints.forall_mem (fun _ => trivial) (fun _ => trivial) fun operand hoperand _ hprinted =>
      hprinted.isKnown (h.known_symbolize hnamed (fun _ _ => CodeLabels.isKnown_probeScope)
        operand hoperand)
  obtain ⟨hinstructions, hreports⟩ := @PrintedLine.lowered_eq line _ hrow hmakes
  have hback : LeadsBack labels.symbolize (LinkedProgram.addressIn
      (labels.trialSymbols entry.offset line) (labels.address entry.offset).toNat) :=
    hnamed.leadsBack fun offset name hname => by
      rw [LinkedProgram.addressIn, hnamed.find?_trialSymbols hname]
      rfl
  have hform := h.form.mapTargets labels.symbolize
  have hunit : line.trialUnit.instructions = [instruction.mapTargets labels.symbolize] := by
    simp [PrintedLine.trialUnit, Script.unit, hinstructions]
  have hpiece := CodeUnit.encode_piece hunit
  have hlinked := h.linkedCode_symbolize hback 0
  have hlength : line.trialUnit.encode.bytes.length = entry.bytes.length := by
    rw [← hagain, ← h.length_symbolize hback 0]
    exact congrArg (fun piece => piece.bytes.length) hpiece
  have hassembled := @CodeLabels.WellNamed.assemble?_linked line labels hnamed entry.offset
    hlegible hknown hreports (hinstructions ▸ List.forall_mem_singleton.mpr ⟨form, hform⟩)
    (by
      rintro name ⟨other, hother, destination, hdestination, hname⟩
      rw [hunit, List.mem_singleton] at hother
      subst hother
      exact h.names_symbolize hnamed destination hdestination name hname)
    ((congrArg Piece.diagnostics hpiece).trans (hencodable.diagnostics_mapTargets _ 0))
    (by rwa [hlength, CodeLabels.toNat_address (Nat.lt_of_le_of_lt (Nat.le_of_add_right_le hfits)
      (by decide))])
  rw [CodeLabels.reproduces, hprints.text_eq hform.row, hassembled, hinstructions, hlinked, hagain]
  exact beq_self_eq_true _

end Instruction

/-- The bytes of an entry that are written as raw data. -/
def SweepEntry.rawBytes (labels : CodeLabels) (scope : Scope) (entry : SweepEntry) : Bytes :=
  match entry.content with
  | .leftover _ => entry.bytes
  | .instruction found =>
      if labels.reproduces scope entry (found.mapTargets labels.symbolize).text then []
      else entry.bytes

namespace DisassemblyLine

open WrittenLines

variable {labels : CodeLabels} {scope : Scope}

theorem flatten_pieces (width count : Nat) (bytes : Bytes) :
    ((List.range count).map fun row => (bytes.drop (width * row)).take width).flatten =
      bytes.take (width * count) := by
  induction count with
  | zero => rfl
  | succ count ih =>
      rw [List.range_succ, List.map_append, List.flatten_append, ih, Nat.mul_succ, List.take_add]
      simp

/-- The rows of bytes put together are the bytes. -/
theorem flatten_rows (bytes : Bytes) : (rows bytes).flatten = bytes := by
  rw [rows, flatten_pieces]
  refine List.take_of_length_le ?_
  simp only [dataWidth]
  omega

theorem rawBytes_ofBytes (bytes remark : Bytes) :
    (ofBytes bytes remark).flatMap rawBytes = bytes := by
  have hrows : ((rows bytes).zipIdx.map Prod.fst).flatten = bytes := by
    rw [List.zipIdx_map_fst, flatten_rows]
  rw [← List.flatMap_def] at hrows
  rw [ofBytes, List.flatMap_map]
  exact hrows

theorem rawBytes_ofInstruction {entry : SweepEntry} {found : Instruction}
    (h : entry.content = .instruction found) :
    (ofInstruction labels scope entry found).lines.flatMap rawBytes =
      entry.rawBytes labels scope := by
  simp only [ofInstruction, SweepEntry.rawBytes, h]
  split
  · rfl
  · exact rawBytes_ofBytes ..

/-- The label in front of an entry, if its offset has a name. Bytes that wait for a line have theirs
before it. -/
inductive Opens (labels : CodeLabels) (entry : SweepEntry) (pending : Bytes) :
    List DisassemblyLine → Bytes → Prop
  | named {name : Bytes} (hname : labels.find? entry.offset = some name) :
      Opens labels entry pending (ofBytes pending [] ++ [.label name]) []
  | unnamed (hname : labels.find? entry.offset = none) : Opens labels entry pending [] pending

/-- The lines of an entry behind bytes that wait for one, and what waits behind it. -/
inductive Adds (labels : CodeLabels) (scope : Scope) (entry : SweepEntry) (waiting : Bytes) :
    List DisassemblyLine → Bytes → Prop
  | instruction {found : Instruction} (hcontent : entry.content = .instruction found) :
      Adds labels scope entry waiting
        (ofBytes waiting [] ++ (ofInstruction labels scope entry found).lines) []
  | row {failure : DecodeFailure} (hcontent : entry.content = .leftover failure) :
      Adds labels scope entry waiting (ofBytes (waiting ++ entry.bytes) []) []
  | none {failure : DecodeFailure} (hcontent : entry.content = .leftover failure) :
      Adds labels scope entry waiting [] (waiting ++ entry.bytes)

/-- The lines of an entry without its label, and of the entries behind it. -/
def ofUnlabeled (labels : CodeLabels) (scope : Scope) (waiting : Bytes) (entry : SweepEntry)
    (rest : List SweepEntry) : WrittenLines :=
  match entry.content with
  | .instruction found =>
      raw waiting [] ++ ofInstruction labels scope entry found
        ++ ofEntries labels scope [] rest
  | .leftover _ =>
      let waiting := waiting ++ entry.bytes
      if waiting.length == dataWidth then
        raw waiting [] ++ ofEntries labels scope [] rest
      else ofEntries labels scope waiting rest

theorem exists_adds (labels : CodeLabels) (scope : Scope) (waiting : Bytes) (entry : SweepEntry) :
    ∃ lines behind, Adds labels scope entry waiting lines behind ∧ ∀ rest,
      (ofUnlabeled labels scope waiting entry rest).lines =
        lines ++ (ofEntries labels scope behind rest).lines := by
  simp only [ofUnlabeled]
  cases hcontent : entry.content with
  | instruction found => exact ⟨_, _, .instruction hcontent, fun _ => rfl⟩
  | leftover failure =>
      by_cases hrow : ((waiting ++ entry.bytes).length == dataWidth) = true
      · exact ⟨_, _, .row hcontent, fun _ => congrArg WrittenLines.lines (if_pos hrow)⟩
      · exact ⟨_, _, .none hcontent, fun _ => congrArg WrittenLines.lines (if_neg hrow)⟩

/-- The lines of an entry stand in front of those of the rest. -/
theorem ofEntries_cons (labels : CodeLabels) (scope : Scope) (pending : Bytes)
    (entry : SweepEntry) : ∃ before waiting lines behind,
      Opens labels entry pending before waiting ∧ Adds labels scope entry waiting lines behind ∧
        ∀ rest, (ofEntries labels scope pending (entry :: rest)).lines =
          before ++ (lines ++ (ofEntries labels scope behind rest).lines) := by
  obtain ⟨before, waiting, hopens, hlabel⟩ : ∃ before waiting,
      Opens labels entry pending before waiting ∧ ∀ rest,
        (ofEntries labels scope pending (entry :: rest)).lines =
          before ++ (ofUnlabeled labels scope waiting entry rest).lines := by
    cases hname : labels.find? entry.offset with
    | some name =>
        refine ⟨_, _, .named hname, fun rest => ?_⟩
        simp only [ofEntries, hname]
        rfl
    | none =>
        refine ⟨_, _, .unnamed hname, fun rest => ?_⟩
        simp only [ofEntries, hname]
        rfl
  obtain ⟨lines, behind, hadds, hlines⟩ := exists_adds labels scope waiting entry
  exact ⟨before, waiting, lines, behind, hopens, hadds, fun rest => by rw [hlabel, hlines]⟩

variable {pending waiting behind : Bytes} {entry : SweepEntry} {lines : List DisassemblyLine}

theorem Opens.rawBytes (h : Opens labels entry pending lines waiting) :
    lines.flatMap rawBytes ++ waiting = pending := by
  cases h with
  | named => simp [rawBytes_ofBytes, DisassemblyLine.rawBytes]
  | unnamed => rfl

theorem Adds.rawBytes (h : Adds labels scope entry waiting lines behind) :
    lines.flatMap rawBytes ++ behind = waiting ++ entry.rawBytes labels scope := by
  cases h with
  | instruction hcontent => simp [rawBytes_ofBytes, rawBytes_ofInstruction hcontent]
  | row hcontent => simp [rawBytes_ofBytes, SweepEntry.rawBytes, hcontent]
  | none hcontent => simp [SweepEntry.rawBytes, hcontent]

/-- The lines of entries hold the raw bytes of those, behind the bytes that wait for a line. -/
theorem rawBytes_ofEntries (pending : Bytes) (entries : List SweepEntry) :
    (ofEntries labels scope pending entries).lines.flatMap rawBytes =
      pending ++ entries.flatMap (SweepEntry.rawBytes labels scope) := by
  induction entries generalizing pending with
  | nil => simp [ofEntries, raw, rawBytes_ofBytes]
  | cons entry rest ih =>
      obtain ⟨before, waiting, lines, behind, hopens, hadds, hlines⟩ :=
        ofEntries_cons labels scope pending entry
      rw [hlines, List.flatMap_append, List.flatMap_append, ih, List.flatMap_cons,
        ← List.append_assoc (lines.flatMap _), hadds.rawBytes, ← hopens.rawBytes]
      simp only [List.append_assoc]

/-- The instruction of an entry that is reproduced has a line to itself, and the lines on both
sides hold the raw bytes of the entries on both sides. -/
theorem ofEntries_reproduced {found : Instruction} (hcontent : entry.content = .instruction found)
    (h : labels.reproduces scope entry (found.mapTargets labels.symbolize).text = true)
    (pending : Bytes) (earlier later : List SweepEntry) :
    ∃ before behind, (ofEntries labels scope pending (earlier ++ entry :: later)).lines =
        before ++ .instruction (found.mapTargets labels.symbolize).text :: behind ∧
      before.flatMap rawBytes = pending ++ earlier.flatMap (SweepEntry.rawBytes labels scope) ∧
      behind.flatMap rawBytes = later.flatMap (SweepEntry.rawBytes labels scope) := by
  induction earlier generalizing pending with
  | nil =>
      obtain ⟨before, waiting, lines, behind, hopens, hadds, hlines⟩ :=
        ofEntries_cons labels scope pending entry
      have hline : (ofInstruction labels scope entry found).lines =
          [.instruction (found.mapTargets labels.symbolize).text] := by
        simp only [ofInstruction, h, if_true]
        rfl
      cases hadds with
      | @instruction other hother =>
          obtain rfl : found = other := SweepContent.instruction.inj (hcontent.symm.trans hother)
          refine ⟨before ++ ofBytes waiting [], (ofEntries labels scope [] later).lines, ?_, ?_,
            rawBytes_ofEntries [] later⟩
          · rw [List.nil_append, hlines, hline]
            simp only [List.append_assoc, List.cons_append, List.nil_append]
          · rw [List.flatMap_append, rawBytes_ofBytes, hopens.rawBytes]
            exact (List.append_nil pending).symm
      | row hother | none hother => rw [hcontent] at hother; cases hother
  | cons first rest ih =>
      obtain ⟨front, waiting, lines, behind, hopens, hadds, hlines⟩ :=
        ofEntries_cons labels scope pending first
      obtain ⟨before, after, hrest, hbefore, hbehind⟩ := ih behind
      refine ⟨front ++ (lines ++ before), after, ?_, ?_, hbehind⟩
      · rw [List.cons_append, hlines, hrest]
        simp only [List.append_assoc]
      · rw [List.flatMap_append, List.flatMap_append, hbefore, List.flatMap_cons,
          ← List.append_assoc (lines.flatMap _), hadds.rawBytes, ← hopens.rawBytes]
        simp only [List.append_assoc]

end DisassemblyLine

namespace WrittenLines

/-- The counts that are kept while lines are written are those of the lines. -/
structure IsTallied (written : WrittenLines) : Prop where
  instructions : written.instructionCount = written.lines.countP DisassemblyLine.isInstruction
  rawBytes : written.rawByteCount = (written.lines.flatMap DisassemblyLine.rawBytes).length

variable {labels : CodeLabels} {scope : Scope}

theorem IsTallied.append {written behind : WrittenLines} (h : written.IsTallied)
    (hbehind : behind.IsTallied) : (written ++ behind).IsTallied where
  instructions := by
    change _ + _ = (written.lines ++ behind.lines).countP _
    rw [List.countP_append, h.instructions, hbehind.instructions]
  rawBytes := by
    change _ + _ = ((written.lines ++ behind.lines).flatMap _).length
    rw [List.flatMap_append, List.length_append, h.rawBytes, hbehind.rawBytes]

theorem isTallied_empty : IsTallied {} := ⟨rfl, rfl⟩

theorem isTallied_label (name : Bytes) : (label name).IsTallied := ⟨rfl, rfl⟩

theorem isTallied_instruction (text : Bytes) : (instruction text).IsTallied := ⟨rfl, rfl⟩

theorem isTallied_raw (bytes remark : Bytes) : (raw bytes remark).IsTallied where
  instructions := by
    refine (List.countP_eq_zero.mpr fun line hline => ?_).symm
    obtain ⟨⟨row, index⟩, -, rfl⟩ := List.mem_map.mp hline
    exact Bool.false_ne_true
  rawBytes := congrArg List.length (DisassemblyLine.rawBytes_ofBytes bytes remark).symm

theorem isTallied_ofInstruction (entry : SweepEntry) (found : Instruction) :
    (ofInstruction labels scope entry found).IsTallied := by
  simp only [ofInstruction]
  split
  · exact isTallied_instruction _
  · exact isTallied_raw _ _

theorem isTallied_ofEntries (pending : Bytes) (entries : List SweepEntry) :
    (ofEntries labels scope pending entries).IsTallied := by
  induction entries generalizing pending with
  | nil => exact isTallied_raw pending []
  | cons entry rest ih =>
      have hbehind (waiting : Bytes) :
          (DisassemblyLine.ofUnlabeled labels scope waiting entry rest).IsTallied := by
        simp only [DisassemblyLine.ofUnlabeled]
        split
        · exact ((isTallied_raw _ _).append (isTallied_ofInstruction _ _)).append (ih _)
        · split
          · exact (isTallied_raw _ _).append (ih _)
          · exact ih _
      cases hname : labels.find? entry.offset with
      | some name =>
          simp only [ofEntries, hname]
          exact ((isTallied_raw _ _).append (isTallied_label name)).append (hbehind [])
      | none =>
          simp only [ofEntries, hname]
          exact isTallied_empty.append (hbehind pending)

theorem isTallied_ofBlock (entries : List SweepEntry) : (ofBlock labels entries).IsTallied := by
  cases entries with
  | nil =>
      rw [ofBlock]
      cases labels.find? 0 with
      | none => exact isTallied_empty
      | some name => exact isTallied_label name
  | cons first rest => exact isTallied_ofEntries [] (first :: rest)

end WrittenLines

namespace Disassembly

/-- The instructions that are counted are the lines that hold one. -/
theorem instructionCount_ofCode (code : Bytes) (base : UInt32) (entry : Option UInt32) :
    (ofCode code base entry).instructionCount =
      (ofCode code base entry).lines.countP DisassemblyLine.isInstruction :=
  (WrittenLines.isTallied_ofBlock (SweepEntry.sweep code)).instructions

/-- The raw bytes that are counted are those of the lines. -/
theorem rawByteCount_ofCode (code : Bytes) (base : UInt32) (entry : Option UInt32) :
    (ofCode code base entry).rawByteCount =
      ((ofCode code base entry).lines.flatMap DisassemblyLine.rawBytes).length :=
  (WrittenLines.isTallied_ofBlock (SweepEntry.sweep code)).rawBytes

/-- The raw bytes of a disassembly are those of the entries that are not reproduced. -/
theorem rawBytes_ofCode (code : Bytes) (base : UInt32) (entry : Option UInt32) :
    let labels := CodeLabels.ofEntries base (entry.getD base) (SweepEntry.sweep code)
    (ofCode code base entry).lines.flatMap DisassemblyLine.rawBytes =
      (SweepEntry.sweep code).flatMap (SweepEntry.rawBytes labels labels.probeScope) := by
  intro labels
  change (WrittenLines.ofBlock labels (SweepEntry.sweep code)).lines.flatMap
    DisassemblyLine.rawBytes = _
  cases SweepEntry.sweep code with
  | nil =>
      cases hname : labels.find? 0 <;> simp [WrittenLines.ofBlock, hname, DisassemblyLine.rawBytes]
  | cons first rest => exact DisassemblyLine.rawBytes_ofEntries [] (first :: rest)

/-- Raw data stands only for what source cannot say. An entry whose instruction can be said, and is
encoded to the bytes of the entry again, is reproduced by the text of that: it has one line, and no
byte of it is written as raw data. -/
theorem ofCode_keeps (code : Bytes) (base : UInt32) (given : Option UInt32)
    (hfits : base.toNat + code.length ≤ 0xffffffff) {entry : SweepEntry}
    (hentry : entry ∈ SweepEntry.sweep code) {found : Instruction}
    (hcontent : entry.content = .instruction found)
    (hagain : (Piece.instruction 0 found).bytes = entry.bytes)
    (hsayable : ∀ operand ∈ found.operands, operand.value.IsSayable) :
    let labels := CodeLabels.ofEntries base (given.getD base) (SweepEntry.sweep code)
    let text := (found.mapTargets labels.symbolize).text
    let disassembly := ofCode code base given
    labels.reproduces labels.probeScope entry text = true ∧
      ∃ earlier later before behind, SweepEntry.sweep code = earlier ++ entry :: later ∧
        disassembly.lines = before ++ .instruction text :: behind ∧
        before.flatMap DisassemblyLine.rawBytes =
          earlier.flatMap (SweepEntry.rawBytes labels labels.probeScope) ∧
        behind.flatMap DisassemblyLine.rawBytes =
          later.flatMap (SweepEntry.rawBytes labels labels.probeScope) ∧
        disassembly.rawByteCount =
          ((earlier ++ later).flatMap (SweepEntry.rawBytes labels labels.probeScope)).length := by
  intro labels text disassembly
  obtain ⟨hbase, hnamed⟩ := CodeLabels.ofEntries_wellNamed base (given.getD base)
    (SweepEntry.sweep code)
  obtain ⟨rest, size, hread, hsize⟩ := SweepEntry.exists_read hentry hcontent
  obtain ⟨form, hdecoded, hencodable⟩ := DecodedInstruction.exists_isEncodable hread
    (by rw [Piece.size, hagain, hsize])
  have hwithin := (SweepEntry.sweep_tiles code).le_length entry hentry
  have hreproduced : labels.reproduces labels.probeScope entry text = true := by
    refine hdecoded.reproduces hencodable hnamed hsayable hagain ?_
    rw [hbase, LinkedProgram.addressLimit]
    omega
  obtain ⟨earlier, later, hsweep⟩ := List.append_of_mem hentry
  obtain ⟨before, behind, hlines, hbefore, hbehind⟩ :=
    DisassemblyLine.ofEntries_reproduced hcontent hreproduced [] earlier later
  have hall : disassembly.lines = before ++ .instruction text :: behind := by
    rw [← hlines, ← hsweep]
    change (WrittenLines.ofBlock labels (SweepEntry.sweep code)).lines = _
    rw [hsweep]
    cases earlier <;> rfl
  refine ⟨hreproduced, earlier, later, before, behind, hsweep, hall, hbefore, hbehind, ?_⟩
  rw [rawByteCount_ofCode, hall]
  simp [DisassemblyLine.rawBytes, hbefore, hbehind]

/-- A table jump to the two instructions of a block, in front of a byte that is none. -/
theorem ofCode_keeps_table :
    let code : Bytes := [0x4a, 0xb0, 0x02, 0x00, 0x0c, 0x10, 0x00, 0x00, 0x00, 0x10, 0x00, 0x00,
      0x42, 0x00, 0x00, 0x00, 0xb1, 0x00, 0xd2, 0x02, 0x0d, 0x00, 0x7b, 0x12, 0xff, 0xff]
    let found : Instruction := ⟨⟨0x4a⟩, 0, [⟨.number (.register (.value 0)), .origin⟩,
      ⟨.targetTable [0, 1] [⟨.address 0x100c, .origin⟩, ⟨.address 0x1000, .origin⟩], .origin⟩],
      .origin⟩
    let entry : SweepEntry := ⟨0, code.take 12, .instruction found⟩
    let labels := CodeLabels.ofEntries 0x1000 0x1000 (SweepEntry.sweep code)
    let text := ascii "jt $v0, \x7b 0 => L_0000100c, 1 => ENTRY \x7d"
    (0x1000 : UInt32).toNat + code.length ≤ 0xffffffff ∧ entry ∈ SweepEntry.sweep code ∧
      (Piece.instruction 0 found).bytes = entry.bytes ∧
      (∀ operand ∈ found.operands, operand.value.IsSayable) ∧
      labels.reproduces labels.probeScope entry text = true ∧
      .instruction text ∈ (ofCode code 0x1000 none).lines := by
  intro code found entry labels text
  have hfits : (0x1000 : UInt32).toNat + code.length ≤ 0xffffffff := by decide
  have hentry : entry ∈ SweepEntry.sweep code := by decide +kernel
  have hagain : (Piece.instruction 0 found).bytes = entry.bytes := by decide +kernel
  have hsayable : ∀ operand ∈ found.operands, operand.value.IsSayable :=
    List.forall_mem_cons.mpr ⟨trivial, List.forall_mem_singleton.mpr trivial⟩
  have htext : (found.mapTargets labels.symbolize).text = text := by decide +kernel
  obtain ⟨hreproduced, earlier, later, before, behind, -, hlines, -⟩ :=
    ofCode_keeps code 0x1000 none hfits hentry rfl hagain hsayable
  change labels.reproduces labels.probeScope entry (found.mapTargets labels.symbolize).text = true
    at hreproduced
  change _ = before ++ .instruction (found.mapTargets labels.symbolize).text :: behind at hlines
  rw [htext] at hreproduced hlines
  refine ⟨hfits, hentry, hagain, hsayable, hreproduced, ?_⟩
  rw [hlines]
  exact List.mem_append_right _ (List.mem_cons_self ..)

end Disassembly

end NovelAsm
