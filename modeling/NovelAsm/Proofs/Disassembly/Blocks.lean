import NovelAsm.Proofs.Code.Moves
import NovelAsm.Proofs.CodeUnit.Targets
import NovelAsm.Proofs.Disassembly.Reproduction
import NovelAsm.Proofs.Disassembly.SingleLine

/-!
The lines of a block. Each line of a disassembly stands for a piece of the block: linked at its
place, with the addresses of the names of the block, it is those bytes (`PrintedLine.Makes`). For
an instruction this is what trying it has shown, for raw bytes it always holds. `ScriptText.Lays`
says that the lines of a text stand for the bytes of a block one behind another, with a label
wherever an offset has a name.
-/

namespace NovelAsm

open Lexed

section Names

variable {names : List Bytes}

theorem Place.isKnown_ofLabels {place : Place} :
    place.IsKnown (.ofLabels names) ↔ ∀ name, place = .symbol name → name ∈ names := by
  refine forall_congr' fun name => imp_congr_right fun _ => ?_
  rw [Scope.findSymbol?_ofLabels, Option.map_map]
  constructor
  · intro h
    obtain ⟨found, hfound, -⟩ := Option.map_eq_some_iff.mp h
    obtain rfl : found = name := by simpa using List.find?_some hfound
    exact List.mem_of_find?_eq_some hfound
  · intro h
    obtain ⟨found, hfound⟩ := Option.isSome_iff_exists.mp
      ((@List.find?_isSome _ names (· == name)).mpr ⟨name, h, beq_self_eq_true name⟩)
    obtain rfl : found = name := by simpa using List.find?_some hfound
    rw [hfound]
    rfl

theorem PrintedOperand.IsKnown.mono {scope other : Scope}
    (hle : ∀ place : Place, place.IsKnown scope → place.IsKnown other) {operand : PrintedOperand}
    (h : operand.IsKnown scope) : operand.IsKnown other := by
  cases operand with
  | place value => exact hle value h
  | table cases => exact fun entry hentry => ⟨(h entry hentry).1, hle _ (h entry hentry).2⟩
  | _ => trivial

/-- Code that refers to nothing but names of a list. -/
def Referring.among (names : List Bytes) : Referring := fun name _ _ => name ∈ names

variable {P : Referring}

theorem Number.refers_expr (value : Number) : value.expr.Refers P := by
  cases value with
  | constant value =>
      rw [Number.expr]
      cases value.toInt <;> trivial
  | register => trivial

theorem Operator.refers_exprOf (operator : Operator) {operands : List Expr}
    (h : ∀ operand ∈ operands, operand.Refers P) : (operator.exprOf operands).Refers P := by
  simp only [Operator.exprOf]
  split
  · split
    · exact Expr.allRefer_iff.mpr h
    · trivial
  · have hoperand := List.forall_mem_singleton.mp h
    exact hoperand
  · split
    · obtain ⟨hleft, hright⟩ := List.forall_mem_cons.mp h
      exact ⟨hleft, List.forall_mem_singleton.mp hright⟩
    · trivial
  · trivial

theorem Formula.refers_expr (formula : Formula) : formula.expr.Refers P := by
  induction formula with
  | number value => exact value.refers_expr
  | unary operator arity operand ih =>
      exact operator.refers_exprOf (List.forall_mem_singleton.mpr ih)
  | binary operator arity left right ihLeft ihRight =>
      exact operator.refers_exprOf
        (List.forall_mem_cons.mpr ⟨ihLeft, List.forall_mem_singleton.mpr ihRight⟩)
  | select whenFalse whenTrue condition ihFalse ihTrue ihCondition =>
      exact Operator.select.refers_exprOf (List.forall_mem_cons.mpr ⟨ihCondition,
        List.forall_mem_cons.mpr ⟨ihTrue, List.forall_mem_singleton.mpr ihFalse⟩⟩)

theorem Place.refers_expr {place : Place} (h : place.IsKnown (.ofLabels names)) :
    place.expr.Refers (.among names) := by
  cases place with
  | symbol name => exact isKnown_ofLabels.mp h name rfl
  | address => trivial

/-- An operand refers to its names. -/
theorem PrintedOperand.refers_argument {operand : PrintedOperand}
    (h : operand.IsKnown (.ofLabels names)) : operand.argument.Refers (.among names) := by
  cases operand with
  | number value => exact value.refers_expr
  | place value => exact Place.refers_expr h
  | array values => exact List.forall_mem_map.mpr fun value _ => value.refers_expr
  | table cases =>
      refine List.forall_mem_map.mpr fun entry hentry => ⟨?_, Place.refers_expr (h entry hentry).2⟩
      rw [tableCase]
      cases entry.1 <;> trivial
  | formula value => exact value.refers_expr
  | register | unsigned | rawByte | text | flag => trivial

end Names

namespace PrintedLine

variable {line : PrintedLine}

theorem forms_instructions (line : PrintedLine) :
    ∀ instruction ∈ line.instructions, ∃ form, instruction.OfForm form := by
  intro instruction hinstruction
  obtain ⟨form, hform⟩ := Routine.lowerInstruction_suits Slot.established_holds
    (Script.routine ⟨[], []⟩) .origin line.mnemonic (line.operands.map PrintedOperand.argument) []
    instruction hinstruction
  exact ⟨form, hform.ofForm⟩

/-- The instructions of a line refer to the names in its operands. -/
theorem names_instructions {names : List Bytes}
    (h : ∀ operand ∈ line.operands, operand.IsKnown (.ofLabels names)) :
    ∀ instruction ∈ line.instructions, ∀ destination ∈ instruction.targets, ∀ name,
      destination.place = .symbol name → name ∈ names := by
  intro instruction hinstruction destination hdestination name hname
  have harguments : ∀ argument ∈ line.operands.map PrintedOperand.argument,
      argument.Refers (.among names) :=
    List.forall_mem_map.mpr fun operand hoperand =>
      PrintedOperand.refers_argument (h operand hoperand)
  obtain ⟨_, _, hmem⟩ := Routine.lowerInstruction_refers (Script.routine ⟨[], []⟩) .origin
    line.mnemonic harguments [] instruction hinstruction destination hdestination name hname
  exact hmem

end PrintedLine

/-- The row of raw bytes. -/
def Form.data : Form := ⟨.rawData, "db", .plain, 0, [.byteList]⟩

namespace CodeLabels

/-- The names of a block. -/
def allNames (labels : CodeLabels) : List Bytes := labels.names.map Prod.snd

/-- Symbols that give each name of a block its address. -/
def Settles (labels : CodeLabels) (symbols : NameMap UInt32) : Prop :=
  ∀ place name, (place, name) ∈ labels.names → symbols.find? name = some (labels.address place)

variable {labels : CodeLabels}

theorem mem_allNames {name : Bytes} :
    name ∈ labels.allNames ↔ ∃ place, (place, name) ∈ labels.names := by
  simp [allNames]

theorem isKnown_allNames {scope : Scope}
    (hscope : ∀ place name, (place, name) ∈ labels.names → (Place.symbol name).IsKnown scope)
    {place : Place} (h : place.IsKnown (.ofLabels labels.allNames)) : place.IsKnown scope := by
  intro name hname
  obtain ⟨offset, hoffset⟩ := mem_allNames.mp (Place.isKnown_ofLabels.mp h name hname)
  exact hscope offset name hoffset name rfl

theorem WellNamed.isNamed (h : labels.WellNamed) {place : Place}
    (hknown : place.IsKnown (.ofLabels labels.allNames)) : place.IsNamed := fun name hname => by
  obtain ⟨offset, hoffset⟩ := mem_allNames.mp (Place.isKnown_ofLabels.mp hknown name hname)
  exact h.isLabelName hoffset

theorem WellNamed.isNamed_operand (h : labels.WellNamed) {operand : PrintedOperand}
    (hknown : operand.IsKnown (.ofLabels labels.allNames)) : operand.IsNamed := by
  cases operand with
  | place value => exact h.isNamed hknown
  | table cases => exact fun entry hentry => h.isNamed (hknown entry hentry).2
  | _ => trivial

end CodeLabels

/-- What a line of a disassembly stands for: it can be read, its names are those of the block, and
its code at an offset is some bytes, with nothing wrong about it. -/
structure PrintedLine.Makes (labels : CodeLabels) (offset : Nat) (line : PrintedLine)
    (bytes : Bytes) : Prop where
  legible : line.IsLegible
  known : ∀ operand ∈ line.operands, operand.IsKnown (.ofLabels labels.allNames)
  quiet : line.reports.hasErrors = false
  clean : (Piece.concat ((Piece.instructions 0 line.instructions).map Prod.snd)).diagnostics = []
  code : ∀ symbols, labels.Settles symbols →
    Piece.linkedCode (LinkedProgram.addressIn symbols (labels.base.toNat + offset)) 0
      line.instructions = bytes

namespace PrintedLine

variable {labels : CodeLabels} {line : PrintedLine} {offset : Nat}

/-- A line is tried as the code that it is lowered to. -/
theorem exists_linked (labels : CodeLabels) (line : PrintedLine) (offset : Nat)
    (hsucceeded : (LinkedProgram.link (labels.address offset) labels.externals
      [⟨line.trialUnit.encode, .origin⟩]).diagnostics = []) :
    (LinkedProgram.link (labels.address offset) labels.externals
        [⟨line.trialUnit.encode, .origin⟩]).code =
      Piece.linkedCode (LinkedProgram.addressIn (labels.trialSymbols offset line)
        (labels.address offset).toNat) 0 line.instructions ∧
      (Piece.concat ((Piece.instructions 0 line.instructions).map Prod.snd)).diagnostics = [] := by
  have hinstructions : line.trialUnit.instructions = line.instructions := by
    simp [trialUnit, Script.unit]
  have hforms := hinstructions ▸ line.forms_instructions
  obtain ⟨hcode, -, -, -, ⟨more, hmore⟩, -⟩ := @LinkedProgram.link_eq _ CodeUnit.alone
    (labels.address offset) labels.externals [line.trialUnit]
    (by
      rw [LinkedProgram.succeeded]
      exact congrArg (fun diagnostics => !Diagnostics.hasErrors diagnostics) hsucceeded)
    (labels.trialSymbols offset line) rfl
    (fun start unit => Piece.linkedCode
      (LinkedProgram.addressIn (labels.trialSymbols offset line) start) 0 unit.instructions)
    (fun _ => List.forall_mem_singleton.mpr (line.trialUnit.fills_alone hforms))
  constructor
  · refine hcode.trans ?_
    simp only [LinkedProgram.codesFrom, List.append_nil, hinstructions]
  · have hnone := (List.append_eq_nil_iff.mp (hmore.symm.trans hsucceeded)).1
    rw [List.flatMap_singleton] at hnone
    have hunit : line.trialUnit.encode.diagnostics = [] := List.map_eq_nil_iff.mp hnone
    rw [← hinstructions]
    exact hunit

/-- What a line is assembled to at its place it stands for. -/
theorem makes_of_assemble? (hnamed : labels.WellNamed) (hlegible : line.IsLegible)
    (hknown : ∀ operand ∈ line.operands, operand.IsKnown (.ofLabels labels.allNames))
    (hbound : labels.base.toNat + offset < 0x100000000) {bytes : Bytes}
    (h : labels.assemble? labels.probeScope offset line.shown = some bytes) :
    line.Makes labels offset bytes := by
  rw [CodeLabels.assemble?_shown labels offset hlegible fun operand hoperand =>
    (hknown operand hoperand).mono fun _ => CodeLabels.isKnown_allNames fun _ _ =>
      CodeLabels.isKnown_probeScope] at h
  split at h
  · cases h
  rename_i hquiet
  simp only at h
  split at h
  · rename_i hclean
    obtain rfl := Option.some.inj h
    obtain ⟨hcode, hdiagnostics⟩ := exists_linked labels line offset (List.isEmpty_iff.mp hclean)
    refine ⟨hlegible, hknown, Bool.eq_false_iff.mpr hquiet, hdiagnostics,
      fun symbols hsymbols => ?_⟩
    rw [hcode, CodeLabels.toNat_address hbound]
    refine Piece.linkedCode_congr
      (fun instruction hinstruction destination hdestination name hname => ?_)
      fun _ => rfl
    obtain ⟨place, hplace⟩ := CodeLabels.mem_allNames.mp
      (names_instructions hknown instruction hinstruction destination hdestination name hname)
    rw [LinkedProgram.addressIn, LinkedProgram.addressIn, hsymbols place name hplace,
      hnamed.find?_trialSymbols hplace]
  · cases h

/-- A line of raw bytes. -/
def data (bytes : Bytes) : PrintedLine := ⟨.data, bytes.map .rawByte⟩

theorem shown_data {bytes : Bytes} (hne : bytes ≠ []) :
    (data bytes).shown = ascii "db " ++ commaJoin (bytes.map hexByte) := by
  have hshown : PrintedOperand.shown ∘ PrintedOperand.rawByte = hexByte := rfl
  have hmnemonic : (data bytes).mnemonic ++ ascii " " = ascii "db " :=
    show ascii "db" ++ ascii " " = ascii "db " by decide
  rw [shown, lineText, if_neg (by simpa [data] using hne), hmnemonic, data, List.map_map, hshown]

/-- Raw bytes stand for themselves wherever they are. -/
theorem makes_data (labels : CodeLabels) (offset : Nat) {bytes : Bytes} (hne : bytes ≠ [])
    (hlength : bytes.length ≤ Argument.listLimit) : (data bytes).Makes labels offset bytes := by
  let instruction : Instruction := ⟨.rawData, 0, [⟨.byteList bytes, .origin⟩], .origin⟩
  have hrow : Form.data ∈ Form.table := by decide +kernel
  have hform : instruction.OfForm .data :=
    ⟨(by decide +kernel : Form.ofOpcode? .rawData 0 = some .data), rfl, .cons trivial .nil⟩
  obtain ⟨operands, hprints, hmakes⟩ := hform.lowers rfl (List.forall_mem_singleton.mpr rfl)
    (List.forall_mem_singleton.mpr ⟨hne, hlength⟩)
  have hoperands : operands = bytes.map .rawByte := by
    cases hprints with
    | conditional hlayout => cases hlayout
    | @positional pieces _ hpieces =>
        cases hpieces with
        | cons hfirst hnone =>
            cases hnone
            cases hfirst
            simp [instruction, Instruction.flagName?]
  subst hoperands
  obtain ⟨hinstructions, hreports⟩ := @lowered_eq (data bytes) instruction hrow hmakes
  have hlegible : ∀ operand ∈ (data bytes).operands, operand.IsLegible :=
    List.forall_mem_map.mpr fun _ _ => trivial
  refine ⟨⟨hrow, hlegible, hprints.flagsLast⟩, List.forall_mem_map.mpr fun _ _ => trivial, ?_, ?_,
    fun symbols _ => ?_⟩
  · rw [hreports]
    rfl
  · rw [hinstructions]
    rfl
  · rw [hinstructions]
    have hbytes : (Piece.instruction 0 instruction).bytes = bytes := List.append_nil bytes
    exact (List.append_nil _).trans hbytes

end PrintedLine

/-- An instruction that is reproduced is printed as a line that stands for its bytes. -/
theorem Instruction.IsDecoded.exists_makes {labels : CodeLabels} {entry : SweepEntry}
    {found : Instruction} {form : Form} (h : found.IsDecoded form) (hnamed : labels.WellNamed)
    (hbound : labels.base.toNat + entry.offset < 0x100000000)
    (hreproduced : labels.reproduces labels.probeScope entry
      (found.mapTargets labels.symbolize).text = true) :
    ∃ line : PrintedLine, line.shown = (found.mapTargets labels.symbolize).text ∧
      line.Makes labels entry.offset entry.bytes := by
  have hform := h.form.mapTargets labels.symbolize
  have hrow := (Form.of_ofOpcode? hform.row).1
  obtain ⟨operands, hprints⟩ := hform.exists_printsAs (List.forall_mem_map.mpr
    fun operand hoperand hnone => h.ne_byteList hoperand [] (by
      cases hvalue : operand.value <;> rw [hvalue] at hnone <;> cases hnone
      rfl))
  have hknown : ∀ operand ∈ operands, operand.IsKnown (.ofLabels labels.allNames) :=
    hprints.forall_mem (fun _ => trivial) (fun _ => trivial) fun operand hoperand _ hprinted =>
      hprinted.isKnown (h.known_symbolize hnamed (fun place name hname =>
        Place.isKnown_ofLabels.mpr fun _ heq =>
          Place.symbol.inj heq ▸ CodeLabels.mem_allNames.mpr ⟨place, hname⟩) operand hoperand)
  have hnames : ∀ operand ∈ operands, operand.IsNamed := fun operand hoperand =>
    hnamed.isNamed_operand (hknown operand hoperand)
  have htext := hprints.text_eq hform.row
  rw [CodeLabels.reproduces, htext, beq_iff_eq] at hreproduced
  have hlegible : ∀ operand ∈ operands, operand.IsLegible := by
    by_contra hspoiled
    rw [not_forall₂] at hspoiled
    obtain ⟨operand, hoperand, hbad⟩ := hspoiled
    rw [CodeLabels.assemble?, @CodeLabels.probeUnit?_spoiled ⟨form, operands⟩ hrow hnames
      ⟨operand, hoperand, hbad⟩] at hreproduced
    cases hreproduced
  exact ⟨⟨form, operands⟩, htext.symm,
    PrintedLine.makes_of_assemble? hnamed ⟨hrow, hlegible, hprints.flagsLast⟩ hknown hbound
      hreproduced⟩

namespace ScriptText

/-- The lines of a text that stand for the bytes of a block from an offset on. Labels stand where
an offset has a name. -/
inductive Lays (labels : CodeLabels) : Nat → ScriptText → Bytes → Prop
  | nil (offset : Nat) : Lays labels offset [] []
  | comment {offset : Nat} {remark : Bytes} {text : ScriptText} {code : Bytes}
      (hremark : InLine remark) (h : Lays labels offset text code) :
      Lays labels offset (.comment remark :: text) code
  | label {offset : Nat} {name : Bytes} {text : ScriptText} {code : Bytes}
      (hname : labels.find? offset = some name) (h : Lays labels offset text code) :
      Lays labels offset (.label name :: text) code
  | instruction {offset : Nat} {line : PrintedLine} {remark bytes : Bytes} {text : ScriptText}
      {code : Bytes} (hline : line.Makes labels offset bytes) (hremark : InLine remark)
      (h : Lays labels (offset + bytes.length) text code) :
      Lays labels offset (.instruction line remark :: text) (bytes ++ code)

variable {labels : CodeLabels} {offset : Nat} {text other : ScriptText} {code more : Bytes}

theorem Lays.append (h : Lays labels offset text code)
    (hother : Lays labels (offset + code.length) other more) :
    Lays labels offset (text ++ other) (code ++ more) := by
  induction h with
  | nil => exact hother
  | comment hremark _ ih => exact .comment hremark (ih hother)
  | label hname _ ih => exact .label hname (ih hother)
  | instruction hline hremark _ ih =>
      rw [List.append_assoc]
      refine .instruction hline hremark (ih ?_)
      rwa [List.length_append, ← Nat.add_assoc] at hother

/-- Every instruction of such a text stands for bytes of the block. -/
theorem Lays.exists_makes (h : Lays labels offset text code) {line : PrintedLine} {remark : Bytes}
    (hline : ScriptLine.instruction line remark ∈ text) :
    ∃ place bytes, line.Makes labels place bytes := by
  induction h with
  | nil => cases hline
  | comment _ _ ih | label _ _ ih => exact ih (by simpa using hline)
  | instruction hmakes _ _ ih =>
      rcases List.mem_cons.mp hline with heq | hmem
      · obtain ⟨rfl, -⟩ := ScriptLine.instruction.inj heq
        exact ⟨_, _, hmakes⟩
      · exact ih hmem

/-- Such a text can be read. -/
theorem Lays.isLegible (h : Lays labels offset text code) (hnamed : labels.WellNamed) :
    text.IsLegible := by
  induction h with
  | nil => exact List.forall_mem_nil _
  | comment hremark _ ih => exact List.forall_mem_cons.mpr ⟨InLine.iff_forall.mp hremark, ih⟩
  | label hname _ ih =>
      exact List.forall_mem_cons.mpr ⟨hnamed.isLabelName (CodeLabels.mem_of_find? hname), ih⟩
  | instruction hline hremark _ ih =>
      exact List.forall_mem_cons.mpr ⟨⟨hline.legible, InLine.iff_forall.mp hremark⟩, ih⟩

/-- All of its names are those of the block. -/
theorem Lays.isKnown (h : Lays labels offset text code) :
    text.IsKnown (.ofLabels labels.allNames) := by
  induction h with
  | nil => exact List.forall_mem_nil _
  | comment _ _ ih | label _ _ ih => exact List.forall_mem_cons.mpr ⟨List.forall_mem_nil _, ih⟩
  | instruction hline _ _ ih => exact List.forall_mem_cons.mpr ⟨hline.known, ih⟩

end ScriptText

namespace DisassemblyLine

/-- The label that a line declares. -/
def label? : DisassemblyLine → Option Bytes
  | .label name => some name
  | _ => none

/-- Lines of a disassembly are a text that stands for some bytes from an offset on. -/
def Covers (labels : CodeLabels) (offset : Nat) (lines : List DisassemblyLine) (code : Bytes) :
    Prop :=
  ∃ text : ScriptText, text.shown = lines.flatMap DisassemblyLine.text ∧
    text.map ScriptLine.label? = lines.map label? ∧ text.Lays labels offset code

variable {labels : CodeLabels} {offset : Nat} {lines others : List DisassemblyLine}
  {code more : Bytes}

theorem covers_nil (labels : CodeLabels) (offset : Nat) : Covers labels offset [] [] :=
  ⟨[], rfl, rfl, .nil offset⟩

theorem covers_label {name : Bytes} (h : labels.find? offset = some name) :
    Covers labels offset [.label name] [] :=
  ⟨[.label name], by simp [ScriptText.shown, ScriptLine.shown, text], rfl, .label h (.nil offset)⟩

theorem Covers.append (h : Covers labels offset lines code)
    (hothers : Covers labels (offset + code.length) others more) :
    Covers labels offset (lines ++ others) (code ++ more) := by
  obtain ⟨front, hfront, hlabels, hlays⟩ := h
  obtain ⟨back, hback, hmore, hbehind⟩ := hothers
  refine ⟨front ++ back, ?_, ?_, hlays.append hbehind⟩
  · rw [List.flatMap_append, ← hfront, ← hback]
    exact List.flatMap_append
  · rw [List.map_append, List.map_append, hlabels, hmore]

theorem covers_instruction {line : PrintedLine} (h : line.Makes labels offset code) :
    Covers labels offset [.instruction line.shown] code := by
  have hlays := ScriptText.Lays.instruction h (show InLine [] by decide) (.nil _)
  rw [List.append_nil] at hlays
  exact ⟨[.instruction line []],
    by simp [ScriptText.shown, ScriptLine.shown, text, indent, remarkText], rfl, hlays⟩

theorem covers_data {remark : Bytes} (hne : code ≠ []) (hlength : code.length ≤ dataWidth)
    (hremark : InLine remark) : Covers labels offset [.data code remark] code := by
  have hlays := ScriptText.Lays.instruction (PrintedLine.makes_data labels offset hne
    (Nat.le_trans hlength (by decide))) hremark (.nil _)
  rw [List.append_nil] at hlays
  refine ⟨[.instruction (.data code) remark], ?_, rfl, hlays⟩
  simp [ScriptText.shown, ScriptLine.shown, text, indent, PrintedLine.shown_data hne, ascii]

theorem rows_within (bytes : Bytes) : ∀ row ∈ rows bytes, row ≠ [] ∧ row.length ≤ dataWidth := by
  refine List.forall_mem_map.mpr fun index hindex => ⟨?_, List.length_take_le _ _⟩
  have hlt := List.mem_range.mp hindex
  rw [← List.length_pos_iff, List.length_take, List.length_drop]
  simp only [dataWidth] at hlt ⊢
  omega

/-- Rows of raw bytes with their remarks. -/
theorem covers_rows {parts : List (Bytes × Bytes)}
    (h : ∀ part ∈ parts, (part.1 ≠ [] ∧ part.1.length ≤ dataWidth) ∧ InLine part.2) :
    Covers labels offset (parts.map fun part => .data part.1 part.2)
      (parts.map Prod.fst).flatten := by
  induction parts generalizing offset with
  | nil => exact covers_nil labels offset
  | cons first rest ih =>
      obtain ⟨⟨⟨hne, hlength⟩, hremark⟩, hrest⟩ := List.forall_mem_cons.mp h
      exact (covers_data hne hlength hremark).append (ih hrest)

theorem covers_ofBytes (labels : CodeLabels) (offset : Nat) (bytes : Bytes) {remark : Bytes}
    (hremark : InLine remark) : Covers labels offset (ofBytes bytes remark) bytes := by
  have hnone : InLine [] := by decide
  have hrows := @covers_rows labels offset
    ((rows bytes).zipIdx.map fun row => (row.1, if row.2 == 0 then remark else []))
    (List.forall_mem_map.mpr fun row hrow =>
      ⟨rows_within bytes row.1 (List.fst_mem_of_mem_zipIdx hrow), by
        split
        · exact hremark
        · exact hnone⟩)
  have hflat : ((rows bytes).zipIdx.map Prod.fst).flatten = bytes := by
    rw [List.zipIdx_map_fst, flatten_rows]
  rw [List.map_map, List.map_map] at hrows
  change Covers labels offset (ofBytes bytes remark)
    ((rows bytes).zipIdx.map Prod.fst).flatten at hrows
  rwa [hflat] at hrows

/-- The remark of a text that is not reproduced. -/
theorem inLine_remark (text : Bytes) : InLine (if hasControls text then [] else text) := by
  split
  · decide
  · rename_i hnone
    rw [InLine.iff_forall]
    intro b hb
    have hclean := List.any_eq_false.mp (Bool.eq_false_iff.mpr hnone) b hb
    have hne {c : UInt8} (hc : (c < 0x20 || c == 0x7f) = true) : b ≠ c := by
      rintro rfl
      exact hclean hc
    rw [Lexeme.notLineEnd, bne_iff_ne.mpr (hne (c := byte '\n') (by decide)),
      bne_iff_ne.mpr (hne (c := byte '\r') (by decide)), Bool.true_and]

theorem covers_ofInstruction {entry : SweepEntry} {found : Instruction} {form : Form}
    (h : found.IsDecoded form) (hnamed : labels.WellNamed)
    (hbound : labels.base.toNat + entry.offset < 0x100000000) :
    Covers labels entry.offset
      (WrittenLines.ofInstruction labels labels.probeScope entry found).lines
      entry.bytes := by
  simp only [WrittenLines.ofInstruction]
  split
  · rename_i hreproduced
    obtain ⟨line, hshown, hline⟩ := h.exists_makes hnamed hbound hreproduced
    rw [← hshown]
    exact covers_instruction hline
  · exact covers_ofBytes _ _ _ (inLine_remark _)

/-- The lines of entries cover the block behind the bytes that wait for a line. -/
theorem covers_ofEntries (hnamed : labels.WellNamed) {entries : List SweepEntry}
    (htiles : SweepEntry.Tiles offset entries code)
    (hdecoded : ∀ entry ∈ entries, ∀ found, entry.content = .instruction found →
      ∃ form, found.IsDecoded form)
    (hbound : labels.base.toNat + (offset + code.length) ≤ 0xffffffff) {start : Nat}
    {pending : Bytes} (hstart : start + pending.length = offset) :
    Covers labels start (WrittenLines.ofEntries labels labels.probeScope pending entries).lines
      (pending ++ code) := by
  induction entries generalizing offset code start pending with
  | nil =>
      obtain rfl : code = [] := htiles
      rw [List.append_nil]
      exact covers_ofBytes labels start pending (by decide)
  | cons entry rest ih =>
      obtain ⟨hoffset, hne, more, rfl, hrest⟩ := htiles
      obtain ⟨hfirst, hothers⟩ := List.forall_mem_cons.mp hdecoded
      rw [List.length_append] at hbound
      have hnone : InLine [] := by decide
      obtain ⟨before, waiting, lines, behind, hopens, hadds, hlines⟩ :=
        ofEntries_cons labels labels.probeScope pending entry
      rw [hlines]
      -- What waits behind the label still ends where the entry begins.
      obtain ⟨done, hpending, hbefore⟩ : ∃ done, pending = done ++ waiting ∧
          Covers labels start before done := by
        cases hopens with
        | named hname =>
            have hlabel := (covers_ofBytes labels start pending hnone).append
              (covers_label (hstart.trans hoffset.symm ▸ hname))
            rw [List.append_nil] at hlabel
            exact ⟨pending, (List.append_nil _).symm, hlabel⟩
        | unnamed => exact ⟨[], rfl, covers_nil labels start⟩
      subst hpending
      rw [List.length_append, ← Nat.add_assoc] at hstart
      have hlater {start : Nat} {pending : Bytes}
          (hstart : start + pending.length = offset + entry.bytes.length) :=
        ih hrest hothers (by omega) hstart
      rw [List.append_assoc]
      refine hbefore.append ?_
      cases hadds with
      | @instruction found hcontent =>
          obtain ⟨form, hform⟩ := hfirst found hcontent
          have hplace : labels.base.toNat + entry.offset < 0x100000000 := by omega
          have hentry := covers_ofInstruction hform hnamed hplace
          rw [hoffset, ← hstart] at hentry
          have hall := ((covers_ofBytes labels (start + done.length) waiting hnone).append
            hentry).append (@hlater _ []
              (by simp only [List.length_append, List.length_nil]; omega))
          rwa [List.nil_append, List.append_assoc waiting] at hall
      | row hcontent =>
          have hall := (covers_ofBytes labels (start + done.length) (waiting ++ entry.bytes)
            hnone).append (@hlater _ [] (by simp only [List.length_append, List.length_nil]; omega))
          rwa [List.nil_append, List.append_assoc waiting] at hall
      | none hcontent =>
          have hall := @hlater (start + done.length) (waiting ++ entry.bytes)
            (by rw [List.length_append, ← Nat.add_assoc, hstart])
          rwa [List.append_assoc waiting] at hall

end DisassemblyLine

end NovelAsm
