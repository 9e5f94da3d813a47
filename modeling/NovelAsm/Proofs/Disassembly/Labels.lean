import NovelAsm.Disassembly
import NovelAsm.Proofs.Disassembly.Reading
import NovelAsm.Proofs.NameMap

/-!
The names of the places of a block. Each name is one that source can spell, no two places share
a name, and a place is named by its own address unless the block is entered there. So a name
leads back to the address that it was put in place of, in the scope that a text is tried in and
in the symbols that it is linked with. Names stand at the beginning of the block and at such of
entries, each at one place only.
-/

namespace NovelAsm

theorem isLabelName_entrySymbol : IsLabelName LinkedProgram.entrySymbol :=
  ⟨by decide, by decide, by decide⟩

namespace CodeLabels

theorem find?_eq_none_of_opening {α : Type} {items : List α} {text : α → Bytes} {name : Bytes}
    (h : ∀ item ∈ items, (text item).take 2 ≠ name.take 2) :
    (items.find? fun item => text item == name) = none := by
  rw [List.find?_eq_none]
  intro item hitem heq
  exact h item hitem (congrArg (List.take 2) (beq_iff_eq.mp heq))

theorem isLabelName_nameOf (address : UInt32) : IsLabelName (nameOf address) := by
  have hopening : (nameOf address).take 2 = ascii "L_" := rfl
  refine ⟨?_, ?_, ?_⟩
  · have hdigits : (hex 8 address.toNat).all Byte.isNamePart = true :=
      List.all_eq_true.mpr fun b hb => Byte.isNamePart_of_isHexDigit (isHexDigit_of_mem_hex b hb)
    exact hdigits
  · have hnone : Keyword.ofText? (nameOf address) = none :=
      find?_eq_none_of_opening (by rw [hopening]; decide)
    rw [Lexed.wordKind, hnone]
  · exact find?_eq_none_of_opening (by rw [hopening]; decide)

theorem nameOf_inj {a b : UInt32} (h : nameOf a = nameOf b) : a = b :=
  UInt32.toNat_inj.mp (hex_inj (List.append_cancel_left h))

theorem nameOf_ne_entrySymbol (address : UInt32) : nameOf address ≠ LinkedProgram.entrySymbol :=
  fun h => absurd (show ascii "L_" = ascii "EN" from congrArg (List.take 2) h) (by decide)

/-- Places are named by their addresses, apart from the one at which the block is entered, and
no two of them alike. -/
structure WellNamed (labels : CodeLabels) : Prop where
  bound : ∀ entry ∈ labels.names, labels.base.toNat + entry.1 < 0x100000000
  named : ∀ entry ∈ labels.names,
    entry.2 = LinkedProgram.entrySymbol ∨ entry.2 = nameOf (labels.address entry.1)
  distinct : (labels.names.map Prod.snd).Nodup

variable {labels : CodeLabels} {offset : Nat} {name : Bytes}

theorem toNat_address (h : labels.base.toNat + offset < 0x100000000) :
    (labels.address offset).toNat = labels.base.toNat + offset := by
  rw [address, UInt32.toNat_add, Nat.toUInt32_eq,
    UInt32.toNat_ofNat_of_lt' (Nat.lt_of_le_of_lt (Nat.le_add_left _ _) h)]
  exact Nat.mod_eq_of_lt h

theorem mem_of_find? (h : labels.find? offset = some name) : (offset, name) ∈ labels.names := by
  rw [find?, Option.map_eq_some_iff] at h
  obtain ⟨entry, hentry, rfl⟩ := h
  have hmem := List.mem_of_find?_eq_some hentry
  obtain rfl : entry.1 = offset := by simpa using List.find?_some hentry
  exact hmem

theorem WellNamed.add (h : labels.WellNamed) (hoffset : labels.base.toNat + offset < 0x100000000) :
    (labels.add offset (nameOf (labels.address offset))).WellNamed := by
  rw [CodeLabels.add]
  split
  · exact h
  · rename_i hnew
    refine ⟨?_, ?_, ?_⟩
    · exact List.forall_mem_append.mpr ⟨h.bound, List.forall_mem_singleton.mpr hoffset⟩
    · exact List.forall_mem_append.mpr ⟨h.named, List.forall_mem_singleton.mpr (.inr rfl)⟩
    · rw [List.map_append, List.nodup_append']
      refine ⟨h.distinct, List.nodup_singleton _, List.disjoint_singleton.mpr fun hmem => ?_⟩
      obtain ⟨entry, hentry, heq⟩ := List.mem_map.mp hmem
      rcases h.named entry hentry with hname | hname
      · exact nameOf_ne_entrySymbol _ (heq.symm.trans hname)
      · have haddress := congrArg UInt32.toNat (nameOf_inj (hname.symm.trans heq))
        rw [toNat_address (h.bound entry hentry), toNat_address hoffset] at haddress
        refine hnew ?_
        rw [find?, Option.isSome_map, List.find?_isSome]
        exact ⟨entry, hentry, beq_iff_eq.mpr (Nat.add_left_cancel haddress)⟩

theorem base_add (labels : CodeLabels) (offset : Nat) (name : Bytes) :
    (labels.add offset name).base = labels.base := by
  rw [add]
  split <;> rfl

/-- The offset of an address is where it stands in the block. -/
theorem of_offset? {base address : UInt32} (h : offset? base address = some offset) :
    base.toNat + offset < 0x100000000 ∧ base + offset.toUInt32 = address := by
  rw [offset?] at h
  split at h
  · cases h
  · rename_i hle
    cases h
    have hle := Nat.not_lt.mp (mt UInt32.lt_iff_toNat_lt.mpr hle)
    have hlt := address.toNat_lt
    have hsum : base.toNat + (address.toNat - base.toNat) < 0x100000000 := by omega
    refine ⟨hsum, UInt32.toNat_inj.mp ?_⟩
    exact (@toNat_address ⟨base, []⟩ _ hsum).trans (by simp only; omega)

theorem of_locate? {base address : UInt32} {entries : List SweepEntry}
    (h : locate? base entries address = some offset) : offset? base address = some offset := by
  rw [locate?, Option.filter_eq_some_iff] at h
  exact h.1

theorem WellNamed.add_address {base address : UInt32} (h : labels.WellNamed)
    (hbase : labels.base = base) (hoffset : offset? base address = some offset) :
    (labels.add offset (nameOf address)).WellNamed := by
  subst hbase
  obtain ⟨hbound, rfl⟩ := of_offset? hoffset
  exact h.add hbound

/-- The names of a block are well chosen. -/
theorem ofEntries_wellNamed (base entry : UInt32) (entries : List SweepEntry) :
    (ofEntries base entry entries).base = base ∧ (ofEntries base entry entries).WellNamed := by
  have hself : offset? base base = some 0 := by
    rw [offset?, if_neg (UInt32.lt_irrefl base), Nat.sub_self]
  have hentered (offset : Nat) (hbound : base.toNat + offset < 0x100000000) :
      (CodeLabels.mk base [(offset, LinkedProgram.entrySymbol)]).WellNamed :=
    ⟨List.forall_mem_singleton.mpr hbound, List.forall_mem_singleton.mpr (.inl rfl),
      List.nodup_singleton _⟩
  have hnone : (CodeLabels.mk base []).WellNamed :=
    ⟨List.forall_mem_nil _, List.forall_mem_nil _, List.nodup_nil⟩
  rw [ofEntries]
  refine List.foldlRecOn
    (motive := fun labels : CodeLabels => labels.base = base ∧ labels.WellNamed)
    _ _ ?_
    fun labels h address _ => ?_
  · cases hentry : entryOffset? base entries entry with
    | none => exact ⟨base_add .., hnone.add_address rfl hself⟩
    | some offset =>
        refine ⟨base_add .., (hentered offset ?_).add_address rfl hself⟩
        rw [entryOffset?] at hentry
        split at hentry
        · rename_i found hfound
          cases hentry
          exact (of_offset? (of_locate? hfound)).1
        · split at hentry
          · cases hentry
            exact base.toNat_lt
          · cases hentry
  · split
    · rename_i offset hlocate
      exact ⟨(base_add ..).trans h.1, h.2.add_address h.1 (of_locate? hlocate)⟩
    · exact h

theorem find?_of_nodup {κ α : Type} [BEq κ] [LawfulBEq κ] {entries : List (κ × α)}
    (h : (entries.map Prod.fst).Nodup) {entry : κ × α} (hentry : entry ∈ entries) :
    entries.find? (·.1 == entry.1) = some entry := by
  induction entries with
  | nil => cases hentry
  | cons first rest ih =>
      rw [List.map_cons, List.nodup_cons] at h
      rw [List.find?_cons]
      rcases List.mem_cons.mp hentry with rfl | hmem
      · rw [beq_self_eq_true]
      · have hne : (first.1 == entry.1) = false :=
          beq_eq_false_iff_ne.mpr fun heq => h.1 (heq ▸ List.mem_map_of_mem hmem)
        rw [hne]
        exact ih h.2 hmem

/-- Where the names of a block stand: each has an offset of its own, which is the beginning of the
block or of an entry, and the one of the entry is where the block is entered. -/
structure WellPlaced (labels : CodeLabels) (entered : Option Nat) (entries : List SweepEntry) :
    Prop where
  apart : (labels.names.map Prod.fst).Nodup
  placed : ∀ entry ∈ labels.names, entry.1 = 0 ∨ ∃ other ∈ entries, other.offset = entry.1
  entered : ∀ offset, (offset, LinkedProgram.entrySymbol) ∈ labels.names ↔ entered = some offset

theorem isSome_find?_iff :
    (labels.find? offset).isSome ↔ offset ∈ labels.names.map Prod.fst := by
  rw [find?, Option.isSome_map, List.find?_isSome, List.mem_map]
  exact exists_congr fun entry => and_congr_right fun _ => beq_iff_eq

theorem WellPlaced.find?_eq_some_iff {entered : Option Nat} {entries : List SweepEntry}
    (h : labels.WellPlaced entered entries) :
    labels.find? offset = some name ↔ (offset, name) ∈ labels.names :=
  ⟨mem_of_find?, fun hmem => congrArg (Option.map Prod.snd) (find?_of_nodup h.apart hmem)⟩

theorem isSome_find?_add (labels : CodeLabels) (offset : Nat) (name : Bytes) :
    ((labels.add offset name).find? offset).isSome := by
  rw [add]
  split
  · assumption
  · simp [isSome_find?_iff]

theorem isSome_find?_add_of {place : Nat} (h : (labels.find? place).isSome) (offset : Nat)
    (name : Bytes) : ((labels.add offset name).find? place).isSome := by
  rw [add]
  split
  · exact h
  · rw [isSome_find?_iff, List.map_append]
    exact List.mem_append_left _ (isSome_find?_iff.mp h)

theorem WellPlaced.add {entered : Option Nat} {entries : List SweepEntry}
    (h : labels.WellPlaced entered entries)
    (hoffset : offset = 0 ∨ ∃ other ∈ entries, other.offset = offset) (address : UInt32) :
    (labels.add offset (nameOf address)).WellPlaced entered entries := by
  rw [CodeLabels.add]
  split
  · exact h
  · rename_i hnew
    refine ⟨?_, ?_, fun place => ?_⟩
    · rw [List.map_append, List.nodup_append']
      exact ⟨h.apart, List.nodup_singleton _,
        List.disjoint_singleton.mpr (mt isSome_find?_iff.mpr hnew)⟩
    · exact List.forall_mem_append.mpr ⟨h.placed, List.forall_mem_singleton.mpr hoffset⟩
    · rw [← h.entered, List.mem_append, List.mem_singleton]
      exact or_iff_left fun heq => nameOf_ne_entrySymbol address (Prod.mk.inj heq).2.symm

theorem exists_of_locate? {base address : UInt32} {entries : List SweepEntry}
    (h : locate? base entries address = some offset) :
    ∃ other ∈ entries, other.offset = offset := by
  rw [locate?, Option.filter_eq_some_iff, List.any_eq_true] at h
  obtain ⟨-, other, hother, heq⟩ := h
  exact ⟨other, hother, beq_iff_eq.mp heq⟩

theorem exists_of_entryOffset? {base entry : UInt32} {entries : List SweepEntry}
    (h : entryOffset? base entries entry = some offset) :
    offset = 0 ∨ ∃ other ∈ entries, other.offset = offset := by
  rw [entryOffset?] at h
  split at h
  · rename_i found hfound
    cases h
    exact .inr (exists_of_locate? hfound)
  · split at h
    · exact .inl (Option.some.inj h).symm
    · cases h

/-- The names of a block stand in their places, and its beginning has one. -/
theorem ofEntries_wellPlaced (base entry : UInt32) (entries : List SweepEntry) :
    (ofEntries base entry entries).WellPlaced (entryOffset? base entries entry) entries ∧
      ((ofEntries base entry entries).find? 0).isSome := by
  rw [ofEntries]
  refine List.foldlRecOn (motive := fun labels : CodeLabels =>
    labels.WellPlaced (entryOffset? base entries entry) entries ∧ (labels.find? 0).isSome)
    _ _ ⟨.add ?_ (.inl rfl) base, isSome_find?_add ..⟩ fun labels h address _ => ?_
  · cases hentry : entryOffset? base entries entry with
    | none => exact ⟨List.nodup_nil, List.forall_mem_nil _, fun offset => by simp⟩
    | some offset =>
        exact ⟨List.nodup_singleton _,
          List.forall_mem_singleton.mpr (exists_of_entryOffset? hentry),
          fun place => by simp [eq_comm]⟩
  · split
    · rename_i offset hlocate
      exact ⟨h.1.add (.inr (exists_of_locate? hlocate)) address, isSome_find?_add_of h.2 _ _⟩
    · exact h

theorem WellNamed.cases {motive : Bytes → Prop} (h : labels.WellNamed)
    (hname : (offset, name) ∈ labels.names) (hentry : motive LinkedProgram.entrySymbol)
    (haddress : ∀ address, motive (nameOf address)) : motive name := by
  rcases h.named _ hname with heq | heq
  · exact (show name = LinkedProgram.entrySymbol from heq) ▸ hentry
  · exact (show name = nameOf (labels.address offset) from heq) ▸ haddress _

theorem WellNamed.isLabelName (h : labels.WellNamed) (hname : (offset, name) ∈ labels.names) :
    IsLabelName name :=
  h.cases hname isLabelName_entrySymbol isLabelName_nameOf

theorem WellNamed.ne_probeLabel (h : labels.WellNamed) (hname : (offset, name) ∈ labels.names) :
    name ≠ probeLabel :=
  h.cases (motive := (· ≠ probeLabel)) hname (by decide) fun address heq =>
    absurd (show ascii "L_" = ascii "__" from congrArg (List.take 2) heq) (by decide)

/-- The name of a place has the address of the place outside. -/
theorem WellNamed.find?_externals (h : labels.WellNamed) (hname : (offset, name) ∈ labels.names) :
    labels.externals.find? (·.1 == name) = some (name, labels.address offset) := by
  have hdistinct : (labels.externals.map Prod.fst).Nodup := by
    rw [externals, List.map_map]
    exact h.distinct
  exact @find?_of_nodup _ _ _ _ _ hdistinct (name, labels.address offset)
    (List.mem_map_of_mem (f := fun entry => (entry.2, labels.address entry.1)) hname)

/-- A place is named by a name of its address. -/
theorem exists_of_symbolize {target : CodeTarget} {address : UInt32}
    (hplace : target.place = .address address) {name : Bytes}
    (h : (labels.symbolize target).place = .symbol name) :
    ∃ offset, (offset, name) ∈ labels.names ∧ labels.address offset = address := by
  rw [symbolize, hplace] at h
  dsimp only at h
  split at h
  · rename_i found hfound
    cases h
    obtain ⟨offset, hoffset, hfind⟩ := Option.bind_eq_some_iff.mp hfound
    exact ⟨offset, mem_of_find? hfind, (of_offset? hoffset).2⟩
  · rw [hplace] at h
    cases h

theorem findSymbol?_declareLabel (scope : Scope) (name other : Bytes) :
    (declareLabel scope name).findSymbol? other = (scope.findSymbol? other).or
      (if name = other then some ⟨name, .label, 0, .origin⟩ else none) := by
  rw [declareLabel, Scope.declare]
  cases hfound : scope.findSymbol? name with
  | some earlier =>
      by_cases heq : name = other
      · subst heq
        rw [hfound]
        rfl
      · rw [if_neg heq, Option.or_none]
  | none =>
      simp only [Scope.findSymbol?, List.find?_append, List.find?_singleton, beq_iff_eq]

theorem findSymbol?_foldl (names : List (Nat × Bytes)) (scope : Scope) (name : Bytes) :
    (names.foldl (fun scope entry => declareLabel scope entry.2) scope).findSymbol? name =
      (scope.findSymbol? name).or ((names.find? (·.2 == name)).map fun entry =>
        ⟨entry.2, .label, 0, .origin⟩) := by
  induction names generalizing scope with
  | nil => rw [List.find?_nil, Option.map_none, Option.or_none]; rfl
  | cons first rest ih =>
      rw [List.foldl_cons, ih, findSymbol?_declareLabel, Option.or_assoc, List.find?_cons]
      by_cases heq : first.2 = name
      · simp [heq]
      · simp [heq, beq_eq_false_iff_ne.mpr heq]

theorem labelsAlone_declareLabel {scope : Scope} (h : scope.HasLabelsAlone) (name : Bytes) :
    (declareLabel scope name).HasLabelsAlone := by
  rw [declareLabel, Scope.declare]
  split
  · exact h
  · exact ⟨h.values, h.registers⟩

/-- The scope that a text is tried in holds nothing but labels. -/
theorem probeScope_labelsAlone (labels : CodeLabels) : labels.probeScope.HasLabelsAlone :=
  List.foldlRecOn _ _ (labelsAlone_declareLabel ⟨rfl, rfl⟩ probeLabel)
    fun _ h entry _ => labelsAlone_declareLabel h entry.2

/-- The scope that a text is tried in knows the names of the block. -/
theorem isKnown_probeScope (hname : (offset, name) ∈ labels.names) :
    (Place.symbol name).IsKnown labels.probeScope := by
  rintro _ ⟨⟩
  obtain ⟨entry, hentry⟩ := Option.isSome_iff_exists.mp
    ((@List.find?_isSome _ labels.names (·.2 == name)).mpr ⟨_, hname, beq_self_eq_true name⟩)
  obtain rfl : entry.2 = name := by simpa using List.find?_some hentry
  have hfold : labels.probeScope.findSymbol? entry.2 = _ :=
    findSymbol?_foldl labels.names (declareLabel .empty probeLabel) entry.2
  rw [hfold, hentry, findSymbol?_declareLabel]
  by_cases heq : probeLabel = entry.2
  · rw [if_pos heq, heq]
    rfl
  · rw [if_neg heq]
    rfl

end CodeLabels

end NovelAsm
