import NovelAsm.Proofs.Disassembly.Scripts

/-!
Disassembling and assembling. The text of a disassembly is a sound text that stands for the block:
its labels are the names of the block, each where its offset is, and a label opens it. So it is
read segment by segment without an error, and what is linked is the block. The names of the block
hold the name of the entry exactly where the block is entered, if that can be named.
-/

namespace NovelAsm

open LinkedProgram

namespace ScriptText

open Session

variable {text : ScriptText}

/-- A remark in front of a sound text changes nothing. -/
theorem IsSound.comment (h : text.IsSound) {remark : Bytes} (hremark : InLine remark) :
    IsSound (.comment remark :: text) where
  legible := List.forall_mem_cons.mpr ⟨InLine.iff_forall.mp hremark, h.legible⟩
  distinct := h.distinct
  opened := h.opened
  known := List.forall_mem_cons.mpr ⟨List.forall_mem_nil _, h.known⟩

/-- A sound text is assembled like the units of its scripts, if nothing is wrong with its lines. -/
theorem IsSound.ofSource (h : text.IsSound) (base : UInt32)
    (hquiet : ∀ script ∈ text.scripts none, ∀ line ∈ script.lines,
      line.reports.hasErrors = false) :
    let program := LinkedProgram.ofSource base text.shown
    let linked := LinkedProgram.ofUnits base ((text.scripts none).map Script.unit)
    (linked.succeeded = true → program.succeeded = true) ∧ program.code = linked.code ∧
      program.symbols = linked.symbols ∧ program.entry = linked.entry := by
  intro program linked
  have hclean := clean h.legible
  have hsegments := segmentsClean h.legible
  obtain ⟨hnothing, hnone, hroutines⟩ := h.routines
  have hdeclared : (declarations text.shown).2 = [] := by
    have hwhole := congrArg Prod.snd (wholeDeclarations_bare hclean hsegments)
    rw [hnothing] at hwhole
    exact Diagnostics.bare_eq_nil_iff.mp hwhole.symm
  have hbare := wholeRoutines_bare hclean hsegments
  rw [hroutines, hnone] at hbare
  obtain ⟨hresolved, hreported⟩ := Prod.mk.inj hbare
  have hlower : ∀ script ∈ text.scripts none,
      script.routine.lower = (script.unit, script.lines.flatMap PrintedLine.reports) := by
    have hlowered := h.lowered
    rw [hroutines, List.map_map, List.map_inj_left] at hlowered
    exact hlowered
  have hlinked : linkedBare base text.shown = linked := by
    rw [linkedBare, ← hresolved, List.map_map]
    refine congrArg (link base []) ?_
    rw [List.map_map]
    exact List.map_congr_left fun script hscript => congrArg
      (fun lowered : CodeUnit × Diagnostics => lowered.1.alone) (hlower script hscript)
  have hreports : (Routine.reports (resolved (scopeOf text.shown) (reads text.shown)).1).hasErrors =
      false := by
    rw [← Diagnostics.hasErrors_bare, ← Routine.reports_bare, ← hresolved, Routine.reports,
      Diagnostics.hasErrors_flatMap_eq_false_iff]
    refine List.forall_mem_map.mpr fun script hscript => ?_
    rw [hlower script hscript]
    exact Diagnostics.hasErrors_flatMap_eq_false_iff.mpr (hquiet script hscript)
  have hprogram : program = Session.program base text.shown fun _ => scopeOf text.shown :=
    ofSource_eq_program base text.shown (.inr (nodup_texts hsegments (hdeclared ▸ rfl)))
  obtain ⟨hcode, hsymbols, hentry, hspec⟩ := program_spec base text.shown
  rw [hlinked] at hcode hsymbols hentry hspec
  rw [hprogram]
  refine ⟨fun hsucceeded => hspec.mpr ⟨fun read hread => ?_, ⟨?_, hreports⟩, hdeclared ▸ rfl,
    hsucceeded⟩, hcode, hsymbols, hentry⟩
  · obtain ⟨segment, hsegment, rfl⟩ := List.mem_map.mp hread
    exact congrArg Diagnostics.hasErrors (hsegments segment hsegment)
  · exact congrArg Diagnostics.hasErrors (Diagnostics.bare_eq_nil_iff.mp hreported.symm)

end ScriptText

namespace DisassemblyLine

open WrittenLines

variable {labels : CodeLabels} {scope : Scope} {entry : SweepEntry} {pending waiting : Bytes}
  {lines : List DisassemblyLine}

theorem labels_ofBytes (bytes remark : Bytes) : (ofBytes bytes remark).filterMap label? = [] := by
  rw [ofBytes, List.filterMap_map]
  exact List.filterMap_eq_nil_iff.mpr fun _ _ => rfl

theorem labels_ofInstruction (labels : CodeLabels) (scope : Scope) (entry : SweepEntry)
    (found : Instruction) :
    (ofInstruction labels scope entry found).lines.filterMap label? = [] := by
  simp only [ofInstruction]
  split
  · rfl
  · exact labels_ofBytes ..

theorem Opens.labels_eq (h : Opens labels entry pending lines waiting) :
    lines.filterMap label? = (labels.find? entry.offset).toList := by
  cases h with
  | named hname => rw [List.filterMap_append, labels_ofBytes, hname]; rfl
  | unnamed hname => rw [hname]; rfl

theorem Adds.labels_eq (h : Adds labels scope entry pending lines waiting) :
    lines.filterMap label? = [] := by
  cases h with
  | instruction => rw [List.filterMap_append, labels_ofBytes, labels_ofInstruction]; rfl
  | row => exact labels_ofBytes ..
  | none => rfl

/-- The labels among the lines of entries are the names of their offsets. -/
theorem labels_ofEntries (labels : CodeLabels) (scope : Scope) (pending : Bytes)
    (entries : List SweepEntry) : (ofEntries labels scope pending entries).lines.filterMap label? =
      (entries.map SweepEntry.offset).filterMap labels.find? := by
  induction entries generalizing pending with
  | nil => exact labels_ofBytes pending []
  | cons entry rest ih =>
      obtain ⟨before, waiting, lines, behind, hopens, hadds, hlines⟩ :=
        ofEntries_cons labels scope pending entry
      rw [hlines, List.filterMap_append, List.filterMap_append, hopens.labels_eq, hadds.labels_eq,
        ih, List.map_cons, List.filterMap_cons]
      cases labels.find? entry.offset <;> rfl

end DisassemblyLine

namespace Disassembly

open DisassemblyLine

variable {labels : CodeLabels} {entries : List SweepEntry} {code : Bytes} {name : Bytes}

/-- The lines of a block begin with the label of its beginning. -/
theorem exists_linesOf (htiles : SweepEntry.Tiles 0 entries code)
    (hname : labels.find? 0 = some name) :
    ∃ rest, (WrittenLines.ofBlock labels entries).lines = .label name :: rest := by
  cases entries with
  | nil => exact ⟨[], by rw [WrittenLines.ofBlock, hname]; rfl⟩
  | cons first rest =>
      obtain ⟨hoffset, -⟩ := htiles
      rw [← hoffset] at hname
      obtain ⟨before, waiting, lines, behind, hopens, -, hlines⟩ :=
        ofEntries_cons labels labels.probeScope [] first
      refine ⟨lines ++ (WrittenLines.ofEntries labels labels.probeScope behind rest).lines,
        (hlines rest).trans ?_⟩
      cases hopens with
      | named hsame => rw [Option.some.inj (hname.symm.trans hsame)]; rfl
      | unnamed hnone => rw [hname] at hnone; cases hnone

/-- The lines of a block stand for it. -/
theorem covers_linesOf (hnamed : labels.WellNamed) (htiles : SweepEntry.Tiles 0 entries code)
    (hdecoded : ∀ entry ∈ entries, ∀ found, entry.content = .instruction found →
      ∃ form, found.IsDecoded form)
    (hbound : labels.base.toNat + code.length ≤ 0xffffffff) (hname : labels.find? 0 = some name) :
    Covers labels 0 (WrittenLines.ofBlock labels entries).lines code := by
  cases entries with
  | nil =>
      obtain rfl : code = [] := htiles
      rw [WrittenLines.ofBlock, hname]
      exact covers_label hname
  | cons first rest =>
      exact @covers_ofEntries labels 0 code hnamed _ htiles hdecoded
        (by rw [Nat.zero_add]; exact hbound) 0 [] rfl

/-- The labels of a block are the names of different offsets, among which are those of its
beginning and of its entries. -/
theorem exists_offsets (labels : CodeLabels) (htiles : SweepEntry.Tiles 0 entries code) :
    ∃ offsets : List Nat, (WrittenLines.ofBlock labels entries).lines.filterMap label? =
        offsets.filterMap labels.find? ∧
      offsets.Nodup ∧ 0 ∈ offsets ∧ ∀ entry ∈ entries, entry.offset ∈ offsets := by
  cases entries with
  | nil =>
      refine ⟨[0], ?_, List.nodup_singleton 0, List.mem_singleton_self 0, List.forall_mem_nil _⟩
      cases hname : labels.find? 0 <;> simp [WrittenLines.ofBlock, hname, label?]
  | cons first rest =>
      have hfirst : first.offset = 0 := htiles.1
      exact ⟨_, labels_ofEntries labels labels.probeScope [] (first :: rest), htiles.nodup_offsets,
        hfirst ▸ List.mem_cons_self .., fun entry hentry => List.mem_map_of_mem hentry⟩

/-- A disassembly is a sound text that stands for the block. -/
theorem exists_sound (hnamed : labels.WellNamed) {entered : Option Nat}
    (hplaced : labels.WellPlaced entered entries) (hfirst : (labels.find? 0).isSome)
    (htiles : SweepEntry.Tiles 0 entries code)
    (hdecoded : ∀ entry ∈ entries, ∀ found, entry.content = .instruction found →
      ∃ form, found.IsDecoded form)
    (hbound : labels.base.toNat + code.length ≤ 0xffffffff) :
    ∃ text : ScriptText,
      text.shown = (WrittenLines.ofBlock labels entries).lines.flatMap DisassemblyLine.text ∧
      text.Lays labels 0 code ∧ text.IsSound ∧
      ∀ name, name ∈ text.labels ↔ name ∈ labels.allNames := by
  obtain ⟨begun, hbegun⟩ := Option.isSome_iff_exists.mp hfirst
  obtain ⟨text, hshown, hlabels, hlays⟩ :=
    covers_linesOf hnamed htiles hdecoded hbound hbegun
  obtain ⟨offsets, hoffsets, hdistinct, hzero, hentries⟩ := exists_offsets labels htiles
  have hall : text.labels = offsets.filterMap labels.find? := by
    have hsame := congrArg (List.filterMap id) hlabels
    rw [List.filterMap_map, List.filterMap_map] at hsame
    exact hsame.trans hoffsets
  have hnames (name : Bytes) : name ∈ text.labels ↔ name ∈ labels.allNames := by
    rw [hall, CodeLabels.mem_allNames, List.mem_filterMap]
    constructor
    · rintro ⟨offset, -, hname⟩
      exact ⟨offset, CodeLabels.mem_of_find? hname⟩
    · rintro ⟨offset, hname⟩
      refine ⟨offset, ?_, hplaced.find?_eq_some_iff.mpr hname⟩
      rcases hplaced.placed _ hname with hbegin | ⟨entry, hentry, hbegin⟩
      · exact (show offset = 0 from hbegin) ▸ hzero
      · exact (show entry.offset = offset from hbegin) ▸ hentries entry hentry
  refine ⟨text, hshown, hlays, ⟨hlays.isLegible hnamed, ?_, ?_, ?_⟩, hnames⟩
  · rw [hall]
    refine List.Nodup.filterMap (fun offset other name hoffset hother => ?_) hdistinct
    have hplace := List.inj_on_of_nodup_map hnamed.distinct (CodeLabels.mem_of_find? hoffset)
      (CodeLabels.mem_of_find? hother) rfl
    exact (Prod.mk.inj hplace).1
  · obtain ⟨rest, hlines⟩ := exists_linesOf htiles hbegun
    rw [hlines] at hlabels
    cases text with
    | nil => cases hlabels
    | cons first more =>
        cases first with
        | label => trivial
        | comment | instruction => cases (List.cons.inj hlabels).1
  · intro line hline operand hoperand
    refine (hlays.isKnown line hline operand hoperand).mono fun place hplace => ?_
    exact Place.isKnown_ofLabels.mpr fun name hname =>
      (hnames name).mpr (Place.isKnown_ofLabels.mp hplace name hname)

/-- The remark with both addresses. -/
def headerRemark (disassembly : Disassembly) : Bytes :=
  ascii " base 0x" ++ hex 8 disassembly.base.toNat ++ ascii ", entry 0x"
    ++ hex 8 disassembly.entry.toNat

theorem inLine_headerRemark (disassembly : Disassembly) : InLine disassembly.headerRemark := by
  have hdigits (n : Nat) : InLine (hex 8 n) := by
    refine InLine.iff_forall.mpr fun b hb => Tidy.notLineEnd_of_word b ?_
    exact wordByte_of_namePart (Byte.isNamePart_of_isHexDigit (isHexDigit_of_mem_hex b hb))
  have hfront : InLine (ascii " base 0x") := by decide
  have hmiddle : InLine (ascii ", entry 0x") := by decide
  exact ((hfront.append (hdigits _)).append hmiddle).append (hdigits _)

theorem header_eq (disassembly : Disassembly) :
    disassembly.header = (ScriptLine.comment disassembly.headerRemark).shown := by
  simp [header, headerRemark, ScriptLine.shown, ascii]

/-- Where a block is entered by name is where it is asked to be entered: where an entry begins, or
at its base. -/
theorem of_entryOffset? {base requested : UInt32} {offset : Nat}
    (h : CodeLabels.entryOffset? base entries requested = some offset) :
    base + offset.toUInt32 = requested ∧
      ((∃ entry ∈ entries, base.toNat + entry.offset = requested.toNat) ∨ requested = base) := by
  rw [CodeLabels.entryOffset?] at h
  split at h
  · rename_i found hfound
    cases h
    obtain ⟨hbound, haddress⟩ := CodeLabels.of_offset? (CodeLabels.of_locate? hfound)
    obtain ⟨entry, hentry, rfl⟩ := CodeLabels.exists_of_locate? hfound
    have hplace : (base + entry.offset.toUInt32).toNat = base.toNat + entry.offset :=
      @CodeLabels.toNat_address ⟨base, []⟩ _ hbound
    exact ⟨haddress, .inl ⟨entry, hentry, by rw [← hplace, haddress]⟩⟩
  · split at h
    · rename_i hbase
      cases h
      obtain rfl := beq_iff_eq.mp hbase
      exact ⟨UInt32.add_zero requested, .inr rfl⟩
    · cases h

/-- A block can be entered by name where an entry begins. -/
theorem exists_entryOffset? {base requested : UInt32} {entry : SweepEntry}
    (hentry : entry ∈ entries) (hplace : base.toNat + entry.offset = requested.toNat) :
    ∃ offset, CodeLabels.entryOffset? base entries requested = some offset := by
  have hle : ¬ requested < base := by
    rw [UInt32.lt_iff_toNat_lt]
    omega
  have hoffset : CodeLabels.locate? base entries requested = some entry.offset := by
    rw [CodeLabels.locate?, CodeLabels.offset?, if_neg hle,
      show requested.toNat - base.toNat = entry.offset by omega, Option.filter_some,
      if_pos (List.any_eq_true.mpr ⟨entry, hentry, beq_self_eq_true entry.offset⟩)]
  exact ⟨entry.offset, by rw [CodeLabels.entryOffset?, hoffset]⟩

/-- The text of a disassembly is assembled to the block that it was made of. It is entered where
the block was to be entered, if an entry of the sweep begins there, and otherwise at its base. -/
theorem ofSource_ofCode (code : Bytes) (base : UInt32) (given : Option UInt32)
    (hfits : base.toNat + code.length ≤ 0xffffffff) :
    let program := LinkedProgram.ofSource base (ofCode code base given).text
    let requested := given.getD base
    program.succeeded = true ∧ program.code = code ∧
      program.entry =
        if ∃ entry ∈ SweepEntry.sweep code, base.toNat + entry.offset = requested.toNat then
          requested
        else base := by
  intro program requested
  let entries := SweepEntry.sweep code
  let labels := CodeLabels.ofEntries base requested entries
  obtain ⟨hbase, hnamed⟩ := CodeLabels.ofEntries_wellNamed base requested entries
  obtain ⟨hplaced, hfirst⟩ := CodeLabels.ofEntries_wellPlaced base requested entries
  have hdecoded : ∀ entry ∈ entries, ∀ found, entry.content = .instruction found →
      ∃ form, found.IsDecoded form := fun entry hentry found hcontent =>
    have ⟨_, _, hread, _⟩ := SweepEntry.exists_read hentry hcontent
    DecodedInstruction.exists_isDecoded hread
  obtain ⟨text, hshown, hlays, hsound, hlabels⟩ :=
    exists_sound hnamed hplaced hfirst (SweepEntry.sweep_tiles code) hdecoded (hbase.symm ▸ hfits)
  have hremark := inLine_headerRemark (ofCode code base given)
  have hwhole : (ofCode code base given).text =
      ScriptText.shown (.comment (ofCode code base given).headerRemark :: text) := by
    rw [Disassembly.text, header_eq, ScriptText.shown, List.flatMap_cons]
    exact congrArg (_ ++ ·) hshown.symm
  have hquiet : ∀ script ∈ text.scripts none, ∀ line ∈ script.lines,
      line.reports.hasErrors = false := fun script hscript line hline => by
    obtain ⟨remark, hmem⟩ :=
      (ScriptText.mem_scripts hscript hline).resolve_left (by rintro ⟨_, ⟨⟩, _⟩)
    obtain ⟨place, bytes, hmakes⟩ := hlays.exists_makes hmem
    exact hmakes.quiet
  obtain ⟨hassembled, hcode, -, hentry⟩ :=
    (hsound.comment (inLine_headerRemark (ofCode code base given))).ofSource base hquiet
  obtain ⟨hlinked, hclean, hsettled, hdefined, hentered⟩ :=
    hlays.ofUnits hnamed hsound.opened hlabels (hbase.symm ▸ hfits)
  rw [hbase] at hlinked hclean hsettled hdefined hentered
  rw [← hwhole] at hassembled hcode hentry
  refine ⟨hassembled ?_, hcode.trans hlinked, hentry.trans (hentered.trans ?_)⟩
  · rw [succeeded]
    exact congrArg (fun diagnostics => !Diagnostics.hasErrors diagnostics) hclean
  · cases hoffset : CodeLabels.entryOffset? base entries requested with
    | some offset =>
        obtain ⟨haddress, hplace⟩ := of_entryOffset? hoffset
        rw [hsettled offset entrySymbol ((hplaced.entered offset).mpr hoffset), Option.getD_some,
          CodeLabels.address, hbase, haddress]
        split
        · rfl
        · rename_i hnone
          exact hplace.resolve_left hnone
    | none =>
        have hunnamed : ((LinkedProgram.ofUnits base
            ((text.scripts none).map Script.unit)).symbols.find? entrySymbol) = none := by
          by_contra hsome
          obtain ⟨offset, hmem⟩ := CodeLabels.mem_allNames.mp
            (hdefined entrySymbol (Option.isSome_iff_ne_none.mpr hsome))
          rw [hplaced.entered, hoffset] at hmem
          cases hmem
        rw [hunnamed, Option.getD_none]
        split
        · rename_i hsome
          obtain ⟨entry, hmem, hplace⟩ := hsome
          obtain ⟨offset, hfound⟩ := exists_entryOffset? hmem hplace
          rw [hoffset] at hfound
          cases hfound
        · rfl

/-- A table jump to both instructions of a block that is entered at the second one, in front of a
byte that is none. -/
theorem ofSource_ofCode_entered :
    let code : Bytes := [0x4a, 0xb0, 0x02, 0x00, 0x0c, 0x10, 0x00, 0x00, 0x00, 0x10, 0x00, 0x00,
      0x42, 0x00, 0x00, 0x00, 0xb1, 0x00, 0xd2, 0x02, 0x0d, 0x00, 0x7b, 0x12, 0xff, 0xff]
    let program := LinkedProgram.ofSource 0x1000 (ofCode code 0x1000 (some 0x100c)).text
    (0x1000 : UInt32).toNat + code.length ≤ 0xffffffff ∧ program.succeeded = true ∧
      program.code = code ∧ program.entry = 0x100c := by
  intro code program
  have hfits : (0x1000 : UInt32).toNat + code.length ≤ 0xffffffff := by decide
  obtain ⟨hsucceeded, hcode, hentry⟩ := ofSource_ofCode code 0x1000 (some 0x100c) hfits
  have hplace : ∃ entry ∈ SweepEntry.sweep code,
      (0x1000 : UInt32).toNat + entry.offset = ((some 0x100c).getD 0x1000 : UInt32).toNat := by
    decide +kernel
  rw [if_pos hplace] at hentry
  exact ⟨hfits, hsucceeded, hcode, hentry⟩

end Disassembly

end NovelAsm
