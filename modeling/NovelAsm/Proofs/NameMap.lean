import Mathlib.Data.List.Basic
import NovelAsm.Scope

/-!
Tables from names to values. An entry is put in its place by the order of the names, so a table
that was built by insertions is sorted, and then the first entry that was given for a name is
the one that is found.
-/

namespace NovelAsm

namespace NameMap

variable {α : Type}

attribute [local simp] insertInto

/-- The names of a table stand in their order. -/
def Sorted (map : NameMap α) : Prop := map.entries.Pairwise fun a b => a.1 < b.1

theorem sorted_empty : (empty : NameMap α).Sorted := List.Pairwise.nil

theorem mem_insertInto {name : Bytes} {value : α} {entries : List (Bytes × α)}
    {entry : Bytes × α} (h : entry ∈ insertInto name value entries) :
    entry = (name, value) ∨ entry ∈ entries := by
  induction entries with
  | nil => exact .inl (List.mem_singleton.mp h)
  | cons first rest ih =>
      simp only [insertInto] at h
      split at h
      · exact .inr h
      · split at h
        · exact List.mem_cons.mp h
        · rcases List.mem_cons.mp h with rfl | h
          · exact .inr (List.mem_cons_self ..)
          · exact (ih h).imp_right (List.mem_cons_of_mem _)

/-- What holds of the names of a table and of a new one holds of all. -/
theorem forall_mem_insertNew {P : Bytes → Prop} {map : NameMap α}
    (h : ∀ entry ∈ map.entries, P entry.1) {name : Bytes} (hname : P name) (value : α) :
    ∀ entry ∈ (map.insertNew name value).entries, P entry.1 := by
  intro entry hentry
  rcases mem_insertInto hentry with rfl | hentry
  · exact hname
  · exact h entry hentry

theorem Sorted.insertNew {map : NameMap α} (h : map.Sorted) (name : Bytes) (value : α) :
    (map.insertNew name value).Sorted := by
  obtain ⟨entries⟩ := map
  simp only [Sorted, NameMap.insertNew] at h ⊢
  induction entries with
  | nil => exact List.pairwise_singleton _ _
  | cons first rest ih =>
      obtain ⟨hfirst, hrest⟩ := List.pairwise_cons.mp h
      simp only [insertInto]
      split
      · exact h
      · rename_i hother
        split
        · rename_i hless
          refine List.pairwise_cons.mpr ⟨fun entry hentry => ?_, h⟩
          rcases List.mem_cons.mp hentry with rfl | hentry
          · exact hless
          · exact List.lt_trans hless (hfirst entry hentry)
        · rename_i hless
          refine List.pairwise_cons.mpr ⟨fun entry hentry => ?_, ih hrest⟩
          rcases mem_insertInto hentry with rfl | hentry
          · exact Std.lt_of_le_of_ne (Std.not_lt.mp hless)
              fun heq => hother (by simp [show first.1 = name from heq])
          · exact hfirst entry hentry

/-- In a sorted table an entry is found under its name. -/
theorem Sorted.mem_iff {map : NameMap α} (h : map.Sorted) {name : Bytes} {value : α} :
    (name, value) ∈ map.entries ↔ map.find? name = some value := by
  obtain ⟨entries⟩ := map
  simp only [Sorted, find?] at h ⊢
  induction entries with
  | nil => simp
  | cons first rest ih =>
      obtain ⟨hfirst, hrest⟩ := List.pairwise_cons.mp h
      rw [List.mem_cons, List.find?_cons]
      by_cases hname : first.1 = name
      · have hother : (name, value) ∉ rest := by
          intro hmem
          have hless := hfirst _ hmem
          exact List.lt_irrefl name (hname ▸ hless)
        simp [hname, hother, Prod.ext_iff, eq_comm]
      · have hne : (name, value) ≠ first := fun heq => hname (heq ▸ rfl)
        rw [beq_eq_false_iff_ne.mpr hname]
        simpa [hne] using ih hrest

/-- Sorted tables that say the same of every name are one. -/
theorem Sorted.ext {map other : NameMap α} (h : map.Sorted) (hother : other.Sorted)
    (hfind : ∀ name, map.find? name = other.find? name) : map = other := by
  have hnodup {table : NameMap α} (htable : table.Sorted) : table.entries.Nodup :=
    htable.imp fun {a b} hless (heq : a = b) => List.lt_irrefl b.1 (heq ▸ hless)
  have hperm : map.entries.Perm other.entries := by
    refine (List.perm_ext_iff_of_nodup (hnodup h) (hnodup hother)).mpr fun entry => ?_
    rw [h.mem_iff, hother.mem_iff, hfind]
  have hentries : map.entries = other.entries := by
    refine hperm.eq_of_pairwise (fun a b _ _ hab hba => ?_) h hother
    exact absurd (List.lt_trans hab hba) (List.lt_irrefl a.1)
  cases map
  cases other
  exact congrArg NameMap.mk hentries

/-- What is found after an insertion: what was there before, or else the new entry. -/
theorem find?_insertNew {map : NameMap α} (h : map.Sorted) (name other : Bytes) (value : α) :
    (map.insertNew name value).find? other =
      (map.find? other).or (if name = other then some value else none) := by
  obtain ⟨entries⟩ := map
  simp only [Sorted, NameMap.insertNew, find?] at h ⊢
  induction entries with
  | nil => by_cases hname : name = other <;> simp [hname]
  | cons first rest ih =>
      obtain ⟨hfirst, hrest⟩ := List.pairwise_cons.mp h
      simp only [insertInto]
      split
      · rename_i hsame
        obtain rfl : first.1 = name := by simpa using hsame
        by_cases hname : first.1 = other <;> simp [hname]
      · rename_i hother
        have hother : first.1 ≠ name := by simpa using hother
        split
        · rename_i hless
          by_cases hname : name = other
          · subst hname
            have hnone : (first :: rest).find? (·.1 == name) = none := by
              refine List.find?_eq_none.mpr fun entry hentry heq => ?_
              have heq : entry.1 = name := by simpa using heq
              rcases List.mem_cons.mp hentry with rfl | hentry
              · exact hother heq
              · have htrans := List.lt_trans hless (hfirst entry hentry)
                exact List.lt_irrefl name (heq ▸ htrans)
            rw [hnone]
            simp
          · simp [List.find?_cons, hname]
        · by_cases hname : first.1 = other
          · simp [hname]
          · simpa [List.find?_cons, hname] using ih hrest

theorem sorted_foldl_insertNew (entries : List (Bytes × α)) {map : NameMap α} (h : map.Sorted) :
    (entries.foldl (fun map entry => map.insertNew entry.1 entry.2) map).Sorted :=
  List.foldlRecOn _ _ h fun _ hsorted entry _ => hsorted.insertNew entry.1 entry.2

/-- The first entry that is given for a name is the one that is found. -/
theorem find?_foldl_insertNew (entries : List (Bytes × α)) {map : NameMap α} (h : map.Sorted)
    (name : Bytes) :
    (entries.foldl (fun map entry => map.insertNew entry.1 entry.2) map).find? name =
      (map.find? name).or ((entries.find? (·.1 == name)).map Prod.snd) := by
  induction entries generalizing map with
  | nil => simp
  | cons first rest ih =>
      rw [List.foldl_cons, ih (h.insertNew ..), find?_insertNew h, Option.or_assoc]
      congr 1
      by_cases hname : first.1 = name <;> simp [hname]

end NameMap

end NovelAsm
