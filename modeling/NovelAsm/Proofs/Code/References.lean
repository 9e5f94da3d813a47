import NovelAsm.Proofs.Code.DecodesBack
import NovelAsm.Proofs.Erasure.Code
import NovelAsm.Proofs.NameMap

/-!
References and what they are linked to. The relocations of a unit lie inside of it and name the
symbols that its instructions name; so a program whose units define all of these is linked
without a complaint of its own, whatever is wrong with the units, and each field holds the
address that the first definition of its name has.
-/

namespace NovelAsm

namespace Piece

/-- The relocations of a piece lie inside of it and name symbols of a kind. -/
def Refers (names : Bytes → Prop) (offset : Nat) (piece : Piece) : Prop :=
  ∀ relocation ∈ piece.relocations,
    offset ≤ relocation.offset ∧ relocation.offset + 4 ≤ offset + piece.size ∧
      ∀ name, relocation.referent = .symbol name → names name

variable {names : Bytes → Prop} {offset : Nat}

theorem refers_of_nil {piece : Piece} (h : piece.relocations = []) : Refers names offset piece := by
  intro relocation hmem
  rw [h] at hmem
  cases hmem

theorem Refers.append {a b : Piece} (ha : Refers names offset a)
    (hb : Refers names (offset + a.size) b) : Refers names offset (a ++ b) := by
  have hsize : (a ++ b).size = a.size + b.size := by simp [size]
  intro relocation hmem
  rw [hsize]
  rcases List.mem_append.mp hmem with hmem | hmem
  · obtain ⟨hfront, hbehind, hname⟩ := ha relocation hmem
    exact ⟨hfront, by omega, hname⟩
  · obtain ⟨hfront, hbehind, hname⟩ := hb relocation hmem
    exact ⟨by omega, by omega, hname⟩

theorem Refers.congr {a b : Piece} (h : Refers names offset a) (hbytes : b.bytes = a.bytes)
    (hrelocations : b.relocations = a.relocations) : Refers names offset b := by
  intro relocation hmem
  rw [hrelocations] at hmem
  rw [size, hbytes]
  exact h relocation hmem

theorem Refers.mono {others : Bytes → Prop} {piece : Piece} (h : Refers names offset piece)
    (hnames : ∀ name, names name → others name) : Refers others offset piece :=
  fun relocation hmem =>
    have ⟨hfront, hbehind, hname⟩ := h relocation hmem
    ⟨hfront, hbehind, fun name hreferent => hnames name (hname name hreferent)⟩

theorem refers_field {referent : Referent} (span : Span)
    (h : ∀ name, referent = .symbol name → names name) :
    Refers names offset (field offset referent span) := by
  intro relocation hmem
  rw [List.mem_singleton.mp hmem]
  exact ⟨le_rfl, by simp [field, size, length_littleEndian], h⟩

theorem refers_target {destination : CodeTarget}
    (h : ∀ name, destination.place = .symbol name → names name) :
    Refers names offset (target offset destination) := by
  simp only [target]
  cases hplace : destination.place with
  | symbol name =>
      refine refers_field _ fun other hother => h other ?_
      rw [hplace, Referent.symbol.inj hother]
  | address value => exact refers_of_nil rfl

/-- Pieces of one size in a row. -/
theorem refers_row {piece : Nat → Piece} {width : Nat}
    (hwidth : ∀ index, (piece index).size = width)
    (count : Nat) (h : ∀ index < count, Refers names (offset + width * index) (piece index)) :
    Refers names offset (concat ((List.range count).map piece)) := by
  induction count with
  | zero => exact refers_of_nil rfl
  | succ count ih =>
      have hlast := h count (by omega)
      rw [← size_row hwidth count] at hlast
      rw [List.range_succ, List.map_append, List.map_cons, List.map_nil, concat_append,
        concat_singleton]
      exact (ih fun index hindex => h index (by omega)).append hlast

theorem caseFor?_mem {cases : List (Int32 × CodeTarget)} {key : Nat} {destination : CodeTarget}
    (h : caseFor? cases key = some destination) : ∃ entry ∈ cases, entry.2 = destination := by
  obtain ⟨entry, hentry, rfl⟩ := Option.map_eq_some_iff.mp h
  exact ⟨entry, List.mem_of_find?_eq_some hentry, rfl⟩

theorem refers_targetTable (span : Span) {cases : List (Int32 × CodeTarget)}
    (h : ∀ entry ∈ cases, ∀ name, entry.2.place = .symbol name → names name) :
    Refers names offset (targetTable offset span cases) := by
  let entry := tableEntry (offset + 2) (offset + 2 + 4 * entryCount cases).toUInt32 span cases
  have hsize : ∀ key, (entry key).size = 4 := by
    intro key
    simp only [entry, tableEntry]
    split
    · exact size_target _
    · simp [field, size, length_littleEndian]
  have hcount : (u16 (entryCount cases)).size = 2 := by simp [u16, size, length_littleEndian]
  have hrow : Refers names (offset + (u16 (entryCount cases)).size)
      (concat ((List.range (entryCount cases)).map entry)) := by
    rw [hcount]
    refine refers_row hsize _ fun key _ => ?_
    simp only [entry, tableEntry]
    cases hcase : caseFor? cases key with
    | some destination =>
        obtain ⟨found, hmem, rfl⟩ := caseFor?_mem hcase
        exact refers_target (h found hmem)
    | none => exact refers_field span fun _ hname => by cases hname
  exact (Refers.append (refers_of_nil rfl) hrow).congr rfl rfl

theorem refers_operand {place : Slot} {operand : Operand} (hholds : place.Holds operand.value)
    (h : ∀ destination ∈ operand.value.targets, ∀ name,
      destination.place = .symbol name → names name) :
    Refers names offset (Piece.operand offset operand) := by
  obtain ⟨value, span⟩ := operand
  cases value
  case target destinations =>
      cases place <;> try exact hholds.elim
      obtain ⟨destination, rfl⟩ := List.length_eq_one_iff.mp hholds
      simp only [Piece.operand, targets, List.zipIdx_cons, List.zipIdx_nil, List.map_cons,
        List.map_nil, concat_singleton]
      exact refers_target (h destination (List.mem_singleton_self _))
  case targetTable keys destinations =>
      refine refers_targetTable span fun entry hentry => h entry.2 ?_
      exact (List.of_mem_zip hentry).2
  all_goals
    refine refers_of_nil ?_
    exact relocations_plain span (by rintro _ ⟨⟩) (by rintro _ _ ⟨⟩)

theorem refers_operands {slots : List Slot} {operands : List Operand}
    (hholds : List.Forall₂ (fun place operand => place.Holds operand.value) slots operands)
    (h : ∀ operand ∈ operands, ∀ destination ∈ operand.value.targets, ∀ name,
      destination.place = .symbol name → names name) :
    Refers names offset (Piece.operands offset operands) := by
  induction hholds generalizing offset with
  | nil => exact refers_of_nil rfl
  | cons hfirst _ ih =>
      exact (refers_operand hfirst (h _ (List.mem_cons_self ..))).append
        (ih fun operand hoperand => h operand (List.mem_cons_of_mem _ hoperand))

/-- An instruction refers to the symbols among its targets. -/
theorem refers_instruction {instruction : Instruction} {form : Form}
    (hform : instruction.OfForm form)
    (h : ∀ destination ∈ instruction.targets, ∀ name,
      destination.place = .symbol name → names name) :
    Refers names offset (Piece.instruction offset instruction) := by
  simp only [Piece.instruction, hform.row]
  split
  · exact refers_of_nil rfl
  · refine (refers_of_nil (relocations_head form instruction)).append
      (refers_operands hform.operands fun operand hoperand => ?_)
    exact fun destination hmem => h destination (List.mem_flatMap.mpr ⟨operand, hoperand, hmem⟩)

theorem refers_instructions {instructions : List Instruction}
    (hforms : ∀ instruction ∈ instructions, ∃ form, instruction.OfForm form)
    (h : ∀ instruction ∈ instructions, ∀ destination ∈ instruction.targets, ∀ name,
      destination.place = .symbol name → names name) :
    Refers names offset (concat ((Piece.instructions offset instructions).map Prod.snd)) := by
  induction instructions generalizing offset with
  | nil => exact refers_of_nil rfl
  | cons first rest ih =>
      obtain ⟨form, hform⟩ := hforms first (List.mem_cons_self ..)
      have hrest := @ih (offset + (Piece.instruction offset first).size)
        (fun other hother => hforms other (List.mem_cons_of_mem _ hother))
        (fun other hother => h other (List.mem_cons_of_mem _ hother))
      exact (refers_instruction hform (h first (List.mem_cons_self ..))).append hrest

end Piece

/-- The symbols that the instructions of a unit name. -/
def CodeUnit.Names (unit : CodeUnit) (name : Bytes) : Prop :=
  ∃ instruction ∈ unit.instructions, ∃ destination ∈ instruction.targets,
    destination.place = .symbol name

theorem CodeUnit.refers_encode {unit : CodeUnit}
    (hforms : ∀ instruction ∈ unit.instructions, ∃ form, instruction.OfForm form) :
    Piece.Refers unit.Names 0 unit.encode.piece :=
  Piece.refers_instructions hforms fun instruction hinstruction destination hdestination _ hname =>
    ⟨instruction, hinstruction, destination, hdestination, hname⟩

namespace LinkedProgram

theorem size_overwrite (block : Array UInt8) (offset : Nat) (bytes : Bytes) :
    (overwrite block offset bytes).size = block.size := by
  induction bytes generalizing block offset with
  | nil => rfl
  | cons first rest ih => rw [overwrite, ih, Array.size_setIfInBounds]

/-- Where all symbols are known, the relocations of a piece at its place are written. -/
theorem patchUnit_of_refers {symbols : NameMap UInt32} {base start : Nat} {placed : PlacedUnit}
    {code : Array UInt8} (diagnostics : Diagnostics) {relocations : List Relocation}
    (h : ∀ relocation ∈ relocations, start - base + relocation.offset + 4 ≤ code.size ∧
      ∀ name, relocation.referent = .symbol name → (symbols.find? name).isSome) :
    patchUnit symbols base start placed code diagnostics relocations =
      (Piece.fill (addressIn symbols start) (start - base) code relocations, diagnostics) := by
  induction relocations generalizing code with
  | nil => rfl
  | cons relocation rest ih =>
      obtain ⟨hinside, hknown⟩ := h relocation (List.mem_cons_self ..)
      obtain ⟨address, haddress⟩ : ∃ address,
          addressOf? symbols start relocation.referent = .ok address := by
        cases hreferent : relocation.referent with
        | symbol name =>
            obtain ⟨address, hfound⟩ := Option.isSome_iff_exists.mp (hknown name hreferent)
            exact ⟨address, by rw [addressOf?, hfound]⟩
        | unitOffset offset => exact ⟨_, rfl⟩
      have hpatch : patchField symbols base start placed.unit.name code relocation =
          .ok (overwrite code (start - base + relocation.offset)
            (littleEndian 4 address.toNat)) := by
        simp only [patchField, haddress, patch?, if_pos hinside]
        rfl
      simp only [patchUnit, hpatch]
      rw [ih fun other hother => by
        rw [size_overwrite]
        exact h other (List.mem_cons_of_mem _ hother)]
      rw [← addressIn_eq haddress]
      rfl

section Units

variable {α : Type} (place : α → PlacedUnit)

theorem patchAll_of_refers {symbols : NameMap UInt32} {base : Nat} {linked : Nat → α → Bytes}
    {units : List α}
    (hfills : ∀ start, ∀ unit ∈ units, Piece.Fills (addressIn symbols start) 0
      (place unit).unit.piece (linked start unit))
    (hrefers : ∀ unit ∈ units, Piece.Refers (fun name => (symbols.find? name).isSome) 0
      (place unit).unit.piece)
    {cursor : Nat} {done : Bytes} (hcursor : cursor = base + done.length)
    (diagnostics : Diagnostics) :
    patchAll symbols base (done ++ units.flatMap fun unit => (place unit).unit.bytes).toArray
      diagnostics (starts place cursor units) =
        ((done ++ codesFrom place linked cursor units).toArray, diagnostics) := by
  induction units generalizing cursor done with
  | nil => simp [starts, patchAll, codesFrom]
  | cons first rest ih =>
      have hfirst := hfills cursor first (List.mem_cons_self ..)
      have hpatched : patchUnit symbols base cursor (place first)
          (done ++ (first :: rest).flatMap fun unit => (place unit).unit.bytes).toArray
          diagnostics (place first).unit.relocations = _ :=
        patchUnit_of_refers diagnostics fun relocation hmem => by
          obtain ⟨-, hinside, hknown⟩ := hrefers first (List.mem_cons_self ..) relocation hmem
          refine ⟨?_, hknown⟩
          simp only [EncodedUnit.piece, Piece.size] at hinside
          simp only [List.size_toArray, List.length_append, List.flatMap_cons]
          omega
      have hfill := hfirst.fill_eq (cursor - base) done
        (rest.flatMap fun unit => (place unit).unit.bytes) (by omega)
      have hblock : done ++ (first :: rest).flatMap (fun unit => (place unit).unit.bytes) =
          done ++ (place first).unit.piece.bytes ++
            rest.flatMap fun unit => (place unit).unit.bytes := by
        simp [EncodedUnit.piece]
      have hlength : (linked cursor first).length = (place first).unit.bytes.length :=
        hfirst.length_eq
      rw [hblock] at hpatched ⊢
      simp only [starts, patchAll, hpatched]
      rw [show Piece.fill (addressIn symbols cursor) (cursor - base) _
        (place first).unit.relocations = _ from hfill]
      rw [ih (fun start unit hunit => hfills start unit (List.mem_cons_of_mem _ hunit))
        (fun unit hunit => hrefers unit (List.mem_cons_of_mem _ hunit))
        (by rw [List.length_append, hlength, hcursor, Nat.add_assoc])]
      simp [codesFrom]

/-- The labels of units that are laid out from an address on, each with its address. -/
def labelsFrom (cursor : Nat) : List α → List (Bytes × UInt32)
  | [] => []
  | first :: rest =>
      ((place first).unit.labels.map fun label =>
        (label.name, (cursor + label.offset.toNat).toUInt32)) ++
      labelsFrom (cursor + (place first).unit.bytes.length) rest

theorem definedSymbols_eq (cursor : Nat) (symbols : NameMap UInt32) (units : List α) :
    definedSymbols place cursor symbols units = (labelsFrom place cursor units).foldl
      (fun symbols label => symbols.insertNew label.1 label.2) symbols := by
  induction units generalizing cursor symbols with
  | nil => rfl
  | cons first rest ih =>
      rw [definedSymbols, ih, labelsFrom, List.foldl_append, Layout.defineLabels,
        List.foldl_map]

theorem sorted_definedSymbols (cursor : Nat) (units : List α) :
    (definedSymbols place cursor .empty units).Sorted := by
  rw [definedSymbols_eq]
  exact NameMap.sorted_foldl_insertNew _ NameMap.sorted_empty

/-- Of the labels of a name, the first one has the address that a reference to it is given. -/
theorem find?_definedSymbols (cursor : Nat) (units : List α) (name : Bytes) :
    (definedSymbols place cursor .empty units).find? name =
      ((labelsFrom place cursor units).find? (·.1 == name)).map Prod.snd := by
  rw [definedSymbols_eq, NameMap.find?_foldl_insertNew _ NameMap.sorted_empty]
  rfl

/-- Whether all units fit below the end of the address space. -/
def Fits (base : UInt32) (units : List α) : Prop :=
  base.toNat + (units.map fun unit => (place unit).unit.bytes.length).sum ≤ addressLimit

theorem place_fits {units : List α} {layout : Layout}
    (h : layout.cursor + (units.map fun unit => (place unit).unit.bytes.length).sum ≤
      addressLimit) : (layout.place (units.map place)).2 = true := by
  induction units generalizing layout with
  | nil => rfl
  | cons first rest ih =>
      rw [List.map_cons, List.sum_cons] at h
      rw [List.map_cons, Layout.place, if_neg (by change ¬ addressLimit < layout.cursor + _; omega)]
      exact ih (by simp only [Layout.add]; omega)

/-- Units of which all symbols are known, among themselves or outside, are linked as they stand:
their code is theirs with the addresses of the symbols, and nothing is reported but what they
reported. -/
theorem link_of_known {base : UInt32} {externals : List (Bytes × UInt32)} {units : List α}
    (hfits : Fits place base units) {symbols : NameMap UInt32}
    (hsymbols : symbols = externals.foldl (fun symbols entry => symbols.insertNew entry.1 entry.2)
      (definedSymbols place base.toNat .empty units)) {linked : Nat → α → Bytes}
    (hfills : ∀ start, ∀ unit ∈ units, Piece.Fills (addressIn symbols start) 0
      (place unit).unit.piece (linked start unit))
    (hrefers : ∀ unit ∈ units, Piece.Refers (fun name => (symbols.find? name).isSome) 0
      (place unit).unit.piece) :
    let program := link base externals (units.map place)
    program.code = codesFrom place linked base.toNat units ∧ program.symbols = symbols ∧
      program.diagnostics = units.flatMap fun unit =>
        (place unit).unit.diagnostics.rebase (place unit).origin := by
  intro program
  have hplace : ((Layout.empty base).place (units.map place)).2 = true := place_fits place hfits
  have hbase : (Layout.empty base).cursor ≤ addressLimit := by
    have hlt := base.toNat_lt
    simp only [Layout.empty, addressLimit]
    omega
  obtain ⟨hlayout, -⟩ := place_eq place hbase hplace
  generalize hrun : (Layout.empty base).place (units.map place) = run at hplace hlayout
  obtain ⟨layout, fits⟩ := run
  obtain rfl : fits = true := hplace
  simp only [Layout.empty, List.nil_append] at hlayout
  subst hlayout
  have hpatched := patchAll_of_refers place hfills hrefers
    (show base.toNat = base.toNat + ([] : Bytes).length by simp)
    (units.flatMap fun unit => (place unit).unit.diagnostics.rebase (place unit).origin)
  rw [List.nil_append, List.nil_append] at hpatched
  simp only [program, link, hrun, Layout.code, ← List.flatMap_def, ← hsymbols, hpatched, and_self]

theorem link_of_refers {base : UInt32} {units : List α} (hfits : Fits place base units)
    {linked : Nat → α → Bytes}
    (hfills : ∀ start, ∀ unit ∈ units, Piece.Fills
      (addressIn (definedSymbols place base.toNat .empty units) start) 0
      (place unit).unit.piece (linked start unit))
    (hrefers : ∀ unit ∈ units, Piece.Refers
      (fun name => ((definedSymbols place base.toNat .empty units).find? name).isSome) 0
      (place unit).unit.piece) :
    let program := link base [] (units.map place)
    program.code = codesFrom place linked base.toNat units ∧
      program.symbols = definedSymbols place base.toNat .empty units ∧
      program.diagnostics = units.flatMap fun unit =>
        (place unit).unit.diagnostics.rebase (place unit).origin :=
  link_of_known place hfits rfl hfills hrefers

/-- Units that do not fit are reported as such, and otherwise nothing but what they reported. -/
theorem place_diagnostics (units : List α) (layout : Layout) {diagnostic : Diagnostic}
    (h : diagnostic ∈ (layout.place (units.map place)).1.diagnostics) :
    diagnostic ∈ layout.diagnostics ∨
      (∃ unit ∈ units, diagnostic ∈
        (place unit).unit.diagnostics.rebase (place unit).origin) ∨
      ∃ name span, diagnostic = (LinkProblem.addressSpace name).diagnose span := by
  induction units generalizing layout with
  | nil => exact .inl h
  | cons first rest ih =>
      have hreported (h : diagnostic ∈ layout.diagnostics ++
          (place first).unit.diagnostics.rebase (place first).origin) :
          diagnostic ∈ layout.diagnostics ∨ ∃ unit ∈ first :: rest, diagnostic ∈
            (place unit).unit.diagnostics.rebase (place unit).origin :=
        (List.mem_append.mp h).imp_right fun h => ⟨first, List.mem_cons_self .., h⟩
      rw [List.map_cons, Layout.place] at h
      split at h
      · rcases List.mem_append.mp h with h | h
        · exact (hreported h).imp_right .inl
        · exact .inr (.inr ⟨_, _, List.mem_singleton.mp h⟩)
      · rcases ih _ h with h | ⟨unit, hunit, h⟩ | h
        · exact (hreported h).imp_right .inl
        · exact .inr (.inl ⟨unit, List.mem_cons_of_mem _ hunit, h⟩)
        · exact .inr (.inr h)

end Units

end LinkedProgram

end NovelAsm
