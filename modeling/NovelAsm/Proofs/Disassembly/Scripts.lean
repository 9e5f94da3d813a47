import NovelAsm.Proofs.Disassembly.Blocks

/-!
The scripts of a text that stands for a block. A script stands at the place that its name names,
and its code is what its lines stand for, so the next one begins where it ends. The units of the
text put together are the block, and each label has the address that its name has in it.
-/

namespace NovelAsm

open LinkedProgram

/-- An offset counted from a later start. -/
theorem LinkedProgram.addressIn_moved (symbols : NameMap UInt32) (start moved offset : Nat) :
    addressIn symbols start (.unitOffset (moved + offset).toUInt32) =
      addressIn symbols (start + moved) (.unitOffset offset.toUInt32) := by
  refine UInt32.toNat_inj.mp ?_
  simp only [addressIn, Nat.toUInt32_eq, UInt32.toNat_ofNat']
  omega

namespace Script

variable {labels : CodeLabels} {symbols : NameMap UInt32} {place : Nat} {script : Script}
  {bytes more : Bytes}

theorem forms_unit (script : Script) :
    ∀ instruction ∈ script.unit.instructions, ∃ form, instruction.OfForm form :=
  List.forall_mem_flatMap.mpr fun line _ => line.forms_instructions

theorem labels_encode (script : Script) :
    script.unit.encode.labels = [⟨script.name, 0, .origin⟩] := by
  have hfirst : ((Piece.instructions 0 script.unit.instructions).map
      fun placed => placed.1.toUInt32)[0]?.getD
        (Piece.concat ((Piece.instructions 0 script.unit.instructions).map
          Prod.snd)).size.toUInt32 = 0 := by
    cases script.unit.instructions <;> rfl
  exact congrArg (fun offset => [EncodedLabel.mk script.name offset .origin]) hfirst

/-- A script that stands for bytes of a block, from the place of its name on. -/
structure Stands (labels : CodeLabels) (symbols : NameMap UInt32) (place : Nat) (script : Script)
    (bytes : Bytes) : Prop where
  named : labels.find? place = some script.name
  clean : script.unit.encode.diagnostics = []
  code : Piece.linkedCode (addressIn symbols (labels.base.toNat + place)) 0
    script.unit.instructions = bytes

theorem Stands.length_eq (h : script.Stands labels symbols place bytes) :
    script.unit.encode.bytes.length = bytes.length := by
  rw [← h.code, Piece.length_linkedCode script.forms_unit, CodeUnit.length_bytes]

/-- A script with one more line stands for the bytes of that line too. -/
theorem Stands.extend (h : script.Stands labels symbols place bytes)
    (hsymbols : labels.Settles symbols) {line : PrintedLine}
    (hline : line.Makes labels (place + bytes.length) more) :
    (script.extend line).Stands labels symbols place (bytes ++ more) := by
  have hinstructions : (script.extend line).unit.instructions =
      script.unit.instructions ++ line.instructions := by
    simp [Script.extend, unit]
  have hsize : (Piece.concat ((Piece.instructions 0 script.unit.instructions).map Prod.snd)).size =
      bytes.length := h.length_eq
  refine ⟨h.named, ?_, ?_⟩
  · have halike := (Piece.alike_instructions_append 0 0 script.unit.instructions
      line.instructions).diagnostics
    rw [← hinstructions] at halike
    exact halike.trans (List.append_eq_nil_iff.mpr ⟨h.clean, hline.clean⟩)
  · have hmoved := @Piece.linkedCode_congr (addressIn symbols (labels.base.toNat + place))
      (addressIn symbols (labels.base.toNat + (place + bytes.length))) line.instructions
      (0 + bytes.length) 0 (fun _ _ _ _ _ _ => rfl) fun offset => by
        rw [Nat.zero_add, Nat.zero_add, addressIn_moved, Nat.add_assoc]
    rw [hinstructions, Piece.linkedCode_append, h.code, hsize, hmoved,
      hline.code symbols hsymbols]

end Script

/-- Units that are laid out from a place of a block on: their code is the block from there on,
nothing is wrong with them, and they declare names of the block where these are. -/
structure LaidOut (labels : CodeLabels) (symbols : NameMap UInt32) (place : Nat)
    (units : List CodeUnit) (names : List Bytes) (code : Bytes) : Prop where
  linked : codesFrom CodeUnit.alone (fun start unit =>
    Piece.linkedCode (addressIn symbols start) 0 unit.instructions)
      (labels.base.toNat + place) units = code
  size : (units.map fun unit => (CodeUnit.alone unit).unit.bytes.length).sum = code.length
  clean : ∀ unit ∈ units, unit.encode.diagnostics = []
  names : (labelsFrom CodeUnit.alone (labels.base.toNat + place) units).map Prod.fst = names
  addresses : ∀ entry ∈ labelsFrom CodeUnit.alone (labels.base.toNat + place) units,
    ∃ offset, (offset, entry.1) ∈ labels.names ∧ labels.address offset = entry.2

/-- Some symbols give each name of a block its address. -/
theorem CodeLabels.WellNamed.exists_settles {labels : CodeLabels} (h : labels.WellNamed) :
    ∃ symbols, labels.Settles symbols :=
  ⟨labels.trialSymbols 0 (.data []), fun _ _ hname => h.find?_trialSymbols hname 0 (.data [])⟩

namespace LaidOut

variable {labels : CodeLabels} {symbols : NameMap UInt32} {place : Nat} {script : Script}
  {units : List CodeUnit} {names : List Bytes} {bytes more : Bytes}

theorem nil (labels : CodeLabels) (symbols : NameMap UInt32) (place : Nat) :
    LaidOut labels symbols place [] [] [] :=
  ⟨rfl, rfl, List.forall_mem_nil _, rfl, List.forall_mem_nil _⟩

/-- A script in front of units that begin where it ends. -/
theorem cons (hscript : script.Stands labels symbols place bytes)
    (h : LaidOut labels symbols (place + bytes.length) units names more) :
    LaidOut labels symbols place (script.unit :: units) (script.name :: names) (bytes ++ more) := by
  have hsize : (CodeUnit.alone script.unit).unit.bytes.length = bytes.length := hscript.length_eq
  have hlabels : labelsFrom CodeUnit.alone (labels.base.toNat + place) (script.unit :: units) =
      (script.name, labels.address place) ::
        labelsFrom CodeUnit.alone (labels.base.toNat + (place + bytes.length)) units := by
    have hfirst : (CodeUnit.alone script.unit).unit.labels = [⟨script.name, 0, .origin⟩] :=
      script.labels_encode
    have haddress : (labels.base.toNat + place + (0 : UInt32).toNat).toUInt32 =
        labels.address place := by
      simp [CodeLabels.address]
    rw [labelsFrom, hsize, hfirst, List.map_singleton, haddress, Nat.add_assoc]
    rfl
  refine ⟨?_, ?_, List.forall_mem_cons.mpr ⟨hscript.clean, h.clean⟩, ?_, ?_⟩
  · rw [codesFrom, hsize, hscript.code, Nat.add_assoc, h.linked]
  · rw [List.map_cons, List.sum_cons, hsize, h.size, List.length_append]
  · rw [hlabels, List.map_cons, h.names]
  · rw [hlabels]
    exact List.forall_mem_cons.mpr
      ⟨⟨place, CodeLabels.mem_of_find? hscript.named, rfl⟩, h.addresses⟩

theorem isSome_find?_iff (h : LaidOut labels symbols place units names bytes) {name : Bytes} :
    ((definedSymbols CodeUnit.alone (labels.base.toNat + place) .empty units).find? name).isSome ↔
      name ∈ names := by
  rw [find?_definedSymbols, Option.isSome_map, List.find?_isSome, ← h.names, List.mem_map]
  exact exists_congr fun entry => and_congr_right fun _ => beq_iff_eq

/-- The symbols of units that declare all names of a block give each of them its address. -/
theorem settles (h : LaidOut labels symbols place units names bytes) (hnamed : labels.WellNamed)
    (hnames : ∀ name ∈ labels.allNames, name ∈ names) :
    labels.Settles (definedSymbols CodeUnit.alone (labels.base.toNat + place) .empty units) := by
  intro offset name hname
  obtain ⟨address, haddress⟩ := Option.isSome_iff_exists.mp (h.isSome_find?_iff.mpr
    (hnames name (CodeLabels.mem_allNames.mpr ⟨offset, hname⟩)))
  rw [haddress]
  rw [find?_definedSymbols, Option.map_eq_some_iff] at haddress
  obtain ⟨found, hfound, rfl⟩ := haddress
  obtain ⟨other, hother, haddress⟩ := h.addresses found (List.mem_of_find?_eq_some hfound)
  have hsame : found.1 = name := by simpa using List.find?_some hfound
  -- A name of the block stands for one place only.
  have hplace := List.inj_on_of_nodup_map hnamed.distinct hother hname hsame
  rw [← haddress, (Prod.mk.inj hplace).1]

end LaidOut

namespace ScriptText

variable {labels : CodeLabels} {symbols : NameMap UInt32} {place offset : Nat} {script : Script}
  {text : ScriptText} {bytes code : Bytes}

/-- The scripts of a text that stands for a block, the first of them open before it, are laid out
behind what stands in it already. -/
theorem Lays.laidOut (h : text.Lays labels offset code) (hsymbols : labels.Settles symbols)
    (hscript : script.Stands labels symbols place bytes) (hoffset : place + bytes.length = offset) :
    LaidOut labels symbols place ((text.scripts (some script)).map Script.unit)
      (script.name :: text.labels) (bytes ++ code) := by
  induction h generalizing place script bytes with
  | nil => exact .cons hscript (.nil ..)
  | comment _ _ ih => exact ih hscript hoffset
  | label hname _ ih =>
      subst hoffset
      exact .cons hscript (@ih _ ⟨_, []⟩ [] ⟨hname, rfl, rfl⟩ rfl)
  | instruction hline _ _ ih =>
      subst hoffset
      have hmore := ih (hscript.extend hsymbols hline)
        (by rw [List.length_append, Nat.add_assoc])
      rw [List.append_assoc] at hmore
      exact hmore

theorem Lays.laidOut_of_isOpened (h : text.Lays labels offset code)
    (hsymbols : labels.Settles symbols) (hopened : text.IsOpened) :
    LaidOut labels symbols offset ((text.scripts none).map Script.unit) text.labels code := by
  induction h with
  | nil => exact .nil ..
  | comment _ _ ih => exact ih hopened
  | @label offset name _ _ hname h _ =>
      have hscript : (⟨name, []⟩ : Script).Stands labels symbols offset [] := ⟨hname, rfl, rfl⟩
      exact h.laidOut hsymbols hscript rfl
  | instruction => exact hopened.elim

/-- Linked at the base of the block, such a text is the block, with nothing to report. -/
theorem Lays.ofUnits (h : text.Lays labels 0 code) (hnamed : labels.WellNamed)
    (hopened : text.IsOpened) (hlabels : ∀ name, name ∈ text.labels ↔ name ∈ labels.allNames)
    (hfits : labels.base.toNat + code.length ≤ addressLimit) :
    let program := LinkedProgram.ofUnits labels.base ((text.scripts none).map Script.unit)
    program.code = code ∧ program.diagnostics = [] ∧ labels.Settles program.symbols ∧
      (∀ name, (program.symbols.find? name).isSome → name ∈ labels.allNames) ∧
      program.entry = (program.symbols.find? entrySymbol).getD labels.base := by
  intro program
  -- The labels have their places whatever the code is linked with.
  obtain ⟨given, hgiven⟩ := hnamed.exists_settles
  have hplaced := h.laidOut_of_isOpened hgiven hopened
  let symbols := definedSymbols CodeUnit.alone labels.base.toNat .empty
    ((text.scripts none).map Script.unit)
  have hsymbols : labels.Settles symbols :=
    hplaced.settles hnamed fun name hname => (hlabels name).mpr hname
  have hlaid := h.laidOut_of_isOpened hsymbols hopened
  have hlines := scripts_known (h.isLegible hnamed) h.isKnown
  have hrefers : ∀ unit ∈ (text.scripts none).map Script.unit,
      unit.encode.piece.Refers (fun name => (symbols.find? name).isSome) 0 :=
    List.forall_mem_map.mpr fun script hscript =>
      (CodeUnit.refers_encode script.forms_unit).mono fun name hname => by
        obtain ⟨instruction, hinstruction, destination, hdestination, hplace⟩ := hname
        obtain ⟨line, hline, hmem⟩ := List.mem_flatMap.mp hinstruction
        obtain ⟨place, hplace⟩ := CodeLabels.mem_allNames.mp (PrintedLine.names_instructions
          (hlines script hscript line hline).2 instruction hmem destination hdestination
            name hplace)
        rw [hsymbols place name hplace]
        rfl
  have hfills (start : Nat) : ∀ unit ∈ (text.scripts none).map Script.unit, Piece.Fills
      (addressIn symbols start) 0 unit.encode.piece
        (Piece.linkedCode (addressIn symbols start) 0 unit.instructions) :=
    List.forall_mem_map.mpr fun script _ => script.unit.fills_alone script.forms_unit
  have hspace : Fits CodeUnit.alone labels.base ((text.scripts none).map Script.unit) := by
    rw [Fits, hlaid.size]
    exact hfits
  obtain ⟨hcode, hdefined, hdiagnostics⟩ :=
    @link_of_refers _ CodeUnit.alone labels.base _ hspace _ hfills hrefers
  have hquiet : program.diagnostics = [] := hdiagnostics.trans
    (List.flatMap_eq_nil_iff.mpr fun unit hunit => by
      have hclean : (CodeUnit.alone unit).unit.diagnostics = [] := hlaid.clean unit hunit
      rw [hclean]
      rfl)
  obtain ⟨-, -, hentry, -⟩ := @link_eq _ CodeUnit.alone labels.base []
    ((text.scripts none).map Script.unit)
    (by
      rw [succeeded]
      exact congrArg (fun diagnostics => !Diagnostics.hasErrors diagnostics) hquiet)
    symbols rfl _ hfills
  have hsame : program.symbols = symbols := hdefined
  refine ⟨hcode.trans hlaid.linked, hquiet, hsame ▸ hsymbols, fun name hname => ?_, hentry⟩
  rw [hsame] at hname
  exact (hlabels name).mp (hlaid.isSome_find?_iff.mp hname)

end ScriptText

end NovelAsm
