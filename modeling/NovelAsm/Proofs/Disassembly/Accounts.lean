import Mathlib.Data.List.SplitBy
import NovelAsm.Proofs.Code.Sweep
import NovelAsm.Proofs.Disassembly.Reproduction

/-!
The accounts of a disassembly. The entries of a sweep tile the block. Each is written in one of two
ways, as an instruction or as raw data, so the bytes of both kinds add up to the block; and there is
one warning for each run of bytes that no instruction begins with (`Disassembly.ofCode_accounts`).
-/

namespace NovelAsm

namespace SweepEntry

/-- Whether an entry is a byte at which no instruction begins. -/
def isLeftover (entry : SweepEntry) : Bool :=
  match entry.content with
  | .instruction _ => false
  | .leftover _ => true

/-- The longest runs of leftover bytes among some entries. -/
def leftoverRuns (entries : List SweepEntry) : List (List SweepEntry) :=
  (entries.splitBy fun a b => a.isLeftover == b.isLeftover).filter (·.all isLeftover)

/-- What a warning says of a run: why no instruction begins at its first byte. -/
def Warns (code : Bytes) (run : List SweepEntry) (diagnostic : Diagnostic) : Prop :=
  ∃ first rest failure, run = first :: rest ∧
    DecodedInstruction.readAt code first.offset = .error failure ∧ diagnostic = warning failure

theorem exists_of_isLeftover {entry : SweepEntry} (h : entry.isLeftover = true) :
    ∃ failure, entry.content = .leftover failure := by
  rw [isLeftover] at h
  split at h
  · cases h
  · exact ⟨_, ‹_›⟩

theorem exists_of_not_isLeftover {entry : SweepEntry} (h : entry.isLeftover = false) :
    ∃ found, entry.content = .instruction found := by
  rw [isLeftover] at h
  split at h
  · exact ⟨_, ‹_›⟩
  · cases h

/-- An entry has been read from the rest of the block behind its offset. -/
theorem eq_read_of_mem {offset skip : Nat} {code : Bytes} {entry : SweepEntry}
    (h : entry ∈ sweepFrom offset skip code) :
    ∃ before, entry.offset = offset + before ∧ entry = read entry.offset (code.drop before) := by
  induction code generalizing offset skip with
  | nil => cases h
  | cons b rest ih =>
      have hbehind {skip : Nat} (h : entry ∈ sweepFrom (offset + 1) skip rest) :
          ∃ before, entry.offset = offset + before ∧
            entry = read entry.offset ((b :: rest).drop before) := by
        obtain ⟨before, hoffset, hread⟩ := ih h
        exact ⟨before + 1, by omega, hread⟩
      cases skip with
      | succ skip => exact hbehind h
      | zero =>
          rcases List.mem_cons.mp h with rfl | h
          · exact ⟨0, offset_read _ _, by rw [offset_read]; rfl⟩
          · exact hbehind h

/-- At a leftover byte no instruction can be decoded. -/
theorem readAt_of_leftover {code : Bytes} {entry : SweepEntry} (h : entry ∈ sweep code)
    {failure : DecodeFailure} (hcontent : entry.content = .leftover failure) :
    DecodedInstruction.readAt code entry.offset = .error failure ∧ entry.bytes.length = 1 := by
  have hpos := (sweep_tiles code).le_offset entry h
  obtain ⟨before, hoffset, hread⟩ := eq_read_of_mem h
  rw [Nat.zero_add] at hoffset
  rw [read, ← hoffset] at hread
  split at hread
  · rw [hread] at hcontent
    cases hcontent
  · rename_i reason hfailed
    rw [hread] at hcontent
    cases hcontent
    refine ⟨by rw [DecodedInstruction.readAt, hfailed], ?_⟩
    rw [hread, List.length_take, List.length_drop]
    omega

/-! ## Warnings -/

theorem warnings_leftovers {run : List SweepEntry} (h : ∀ entry ∈ run, entry.isLeftover = true)
    (behind : List SweepEntry) : warnings true (run ++ behind) = warnings true behind := by
  induction run with
  | nil => rfl
  | cons entry rest ih =>
      obtain ⟨hentry, hrest⟩ := List.forall_mem_cons.mp h
      obtain ⟨failure, hcontent⟩ := exists_of_isLeftover hentry
      simp only [List.cons_append, warnings, hcontent, if_true]
      exact ih hrest

theorem warnings_instructions {run : List SweepEntry} (hne : run ≠ [])
    (h : ∀ entry ∈ run, entry.isLeftover = false) (inRun : Bool) (behind : List SweepEntry) :
    warnings inRun (run ++ behind) = warnings false behind := by
  induction run generalizing inRun with
  | nil => exact absurd rfl hne
  | cons entry rest ih =>
      obtain ⟨hentry, hrest⟩ := List.forall_mem_cons.mp h
      obtain ⟨found, hcontent⟩ := exists_of_not_isLeftover hentry
      simp only [List.cons_append, warnings, hcontent]
      cases rest with
      | nil => rfl
      | cons second rest => exact ih (List.cons_ne_nil _ _) hrest false

/-- Neighbours that are alike: all are leftover, or none is. -/
theorem isLeftover_of_isChain {first : SweepEntry} {rest : List SweepEntry}
    (h : (first :: rest).IsChain fun a b => (a.isLeftover == b.isLeftover) = true) :
    ∀ entry ∈ first :: rest, entry.isLeftover = first.isLeftover := by
  induction rest generalizing first with
  | nil => exact List.forall_mem_singleton.mpr rfl
  | cons second rest ih =>
      obtain ⟨hfirst, hrest⟩ := List.isChain_cons_cons.mp h
      have hsame : first.isLeftover = second.isLeftover := beq_iff_eq.mp hfirst
      exact List.forall_mem_cons.mpr
        ⟨rfl, fun entry hentry => (ih hrest entry hentry).trans hsame.symm⟩

/-- One warning is given for a run of leftover bytes, where it begins. -/
theorem exists_warning {code : Bytes} {group : List SweepEntry} (hne : group ≠ [])
    (hmem : ∀ entry ∈ group, entry ∈ sweep code) (hall : ∀ entry ∈ group, entry.isLeftover = true)
    (behind : List SweepEntry) :
    ∃ warning, Warns code group warning ∧
      warnings false (group ++ behind) = warning :: warnings true behind := by
  cases group with
  | nil => exact absurd rfl hne
  | cons first more =>
      obtain ⟨hfirst, hmore⟩ := List.forall_mem_cons.mp hall
      obtain ⟨failure, hcontent⟩ := exists_of_isLeftover hfirst
      have hread := (readAt_of_leftover (hmem first (List.mem_cons_self ..)) hcontent).1
      refine ⟨_, ⟨first, more, failure, rfl, hread, rfl⟩, ?_⟩
      simp only [List.cons_append, warnings, hcontent, Bool.false_eq_true, if_false]
      rw [warnings_leftovers hmore]

/-- Entries that are alike are a run of leftover bytes, or none of them is leftover. -/
theorem all_isLeftover_of_isChain {group : List SweepEntry}
    (h : group.IsChain fun a b => (a.isLeftover == b.isLeftover) = true) :
    (∀ entry ∈ group, entry.isLeftover = true) ∨ ∀ entry ∈ group, entry.isLeftover = false := by
  cases group with
  | nil => exact .inl (List.forall_mem_nil _)
  | cons first more =>
      have hsame := isLeftover_of_isChain h
      cases hfirst : first.isLeftover with
      | true => exact .inl (hfirst ▸ hsame)
      | false => exact .inr (hfirst ▸ hsame)

/-- A warning for each group of leftover bytes, where entries are put into groups of one kind and
neighbouring groups differ. The entries may begin in a run, if the first group is none. -/
theorem warnings_flatten {code : Bytes} {groups : List (List SweepEntry)}
    (hmem : ∀ group ∈ groups, ∀ entry ∈ group, entry ∈ sweep code) (hne : [] ∉ groups)
    (halike : ∀ group ∈ groups,
      group.IsChain fun a b => (a.isLeftover == b.isLeftover) = true)
    (hdiffer : groups.IsChain fun group next => ∃ hgroup hnext,
      ((group.getLast hgroup).isLeftover == (next.head hnext).isLeftover) = false)
    (inRun : Bool) (hstart : inRun = true → ∀ group ∈ groups.head?, group.all isLeftover = false) :
    List.Forall₂ (Warns code) (groups.filter (·.all isLeftover))
      (warnings inRun groups.flatten) := by
  induction groups generalizing inRun with
  | nil => exact .nil
  | cons group rest ih =>
      obtain ⟨hgroupMem, hrestMem⟩ := List.forall_mem_cons.mp hmem
      obtain ⟨hgroupAlike, hrestAlike⟩ := List.forall_mem_cons.mp halike
      obtain ⟨hgroupDiffer, hrestDiffer⟩ := List.isChain_cons.mp hdiffer
      obtain ⟨hgroupNe, hrestNe⟩ := not_or.mp (mt List.mem_cons.mpr hne)
      have hbehind := ih hrestMem hrestNe hrestAlike hrestDiffer
      rw [List.flatten_cons]
      rcases all_isLeftover_of_isChain hgroupAlike with hall | hnone
      · obtain rfl : inRun = false := by
          rw [← Bool.not_eq_true]
          intro hrun
          have hother := hstart hrun group rfl
          rw [List.all_eq_true.mpr hall] at hother
          cases hother
        obtain ⟨warning, hwarns, hwarnings⟩ := exists_warning (Ne.symm hgroupNe) hgroupMem hall
          rest.flatten
        have hrun : group.all isLeftover = true := List.all_eq_true.mpr hall
        rw [List.filter_cons, if_pos hrun, hwarnings]
        refine .cons hwarns (hbehind true fun _ next hnext => ?_)
        -- The group behind a run begins with an instruction.
        obtain ⟨hgroup, hnextNe, hother⟩ := hgroupDiffer next hnext
        rw [hall _ (List.getLast_mem hgroup)] at hother
        refine List.all_eq_false.mpr ⟨next.head hnextNe, List.head_mem hnextNe, ?_⟩
        simpa using hother
      · have hother : ¬ group.all isLeftover = true := by
          obtain ⟨first, more, rfl⟩ := List.exists_cons_of_ne_nil (Ne.symm hgroupNe)
          simp [hnone first]
        rw [List.filter_cons, if_neg hother, warnings_instructions (Ne.symm hgroupNe) hnone]
        exact hbehind false fun hrun => by cases hrun

/-- There is one warning for each run of leftover bytes. -/
theorem warnings_sweep (code : Bytes) :
    List.Forall₂ (Warns code) (leftoverRuns (sweep code)) (warnings false (sweep code)) := by
  let alike (a b : SweepEntry) : Bool := a.isLeftover == b.isLeftover
  have hflatten : ((sweep code).splitBy alike).flatten = sweep code := List.flatten_splitBy alike _
  have hmem : ∀ group ∈ (sweep code).splitBy alike, ∀ entry ∈ group, entry ∈ sweep code :=
    fun group hgroup entry hentry => hflatten ▸ List.mem_flatten.mpr ⟨group, hgroup, hentry⟩
  have hgroups := warnings_flatten hmem (List.nil_notMem_splitBy alike _)
    (fun group hgroup => List.isChain_of_mem_splitBy hgroup)
    (List.isChain_getLast_head_splitBy alike _) false nofun
  rwa [hflatten] at hgroups

/-! ## Lines -/

variable (labels : CodeLabels) (scope : Scope)

/-- The line of an entry that is written as an instruction. -/
def instructionLine? (entry : SweepEntry) : Option DisassemblyLine :=
  match entry.content with
  | .leftover _ => none
  | .instruction found =>
      let text := (found.mapTargets labels.symbolize).text
      if labels.reproduces scope entry text then some (.instruction text) else none

/-- Whether an entry is written as an instruction. -/
def isWritten (entry : SweepEntry) : Bool := (entry.instructionLine? labels scope).isSome

theorem rawBytes_eq (entry : SweepEntry) : entry.rawBytes labels scope =
    if entry.isWritten labels scope then [] else entry.bytes := by
  rw [rawBytes, isWritten, instructionLine?]
  cases entry.content with
  | leftover failure => rfl
  | instruction found => split <;> simp_all

theorem sum_lengths (entries : List SweepEntry) :
    ((entries.filter fun entry => !entry.isWritten labels scope).flatMap bytes).length +
        ((entries.filter (isWritten labels scope)).map fun entry => entry.bytes.length).sum =
      (entries.flatMap bytes).length := by
  induction entries with
  | nil => rfl
  | cons entry rest ih =>
      rw [List.flatMap_cons, List.length_append]
      cases hwritten : entry.isWritten labels scope <;> simp [hwritten] <;> simp at ih <;> omega

theorem flatMap_rawBytes (entries : List SweepEntry) :
    entries.flatMap (SweepEntry.rawBytes labels scope) =
      (entries.filter fun entry => !entry.isWritten labels scope).flatMap bytes := by
  induction entries with
  | nil => rfl
  | cons entry rest ih =>
      rw [List.flatMap_cons, ih, rawBytes_eq]
      cases hwritten : entry.isWritten labels scope <;> simp [hwritten]

/-- Entries that tile a block are the block. -/
theorem Tiles.flatMap_bytes {offset : Nat} {entries : List SweepEntry} {code : Bytes}
    (h : Tiles offset entries code) : entries.flatMap bytes = code := by
  induction entries generalizing offset code with
  | nil => exact h.symm
  | cons entry rest ih =>
      obtain ⟨-, -, more, rfl, hrest⟩ := h
      rw [List.flatMap_cons, ih hrest]

end SweepEntry

namespace DisassemblyLine

open WrittenLines

variable {labels : CodeLabels} {scope : Scope}

theorem filter_ofBytes (bytes remark : Bytes) :
    (ofBytes bytes remark).filter isInstruction = [] := by
  rw [List.filter_eq_nil_iff]
  intro line hline
  obtain ⟨⟨row, index⟩, -, rfl⟩ := List.mem_map.mp hline
  exact Bool.false_ne_true

theorem Opens.filter {entry : SweepEntry} {pending waiting : Bytes} {lines : List DisassemblyLine}
    (h : Opens labels entry pending lines waiting) : lines.filter isInstruction = [] := by
  cases h with
  | named => rw [List.filter_append, filter_ofBytes]; rfl
  | unnamed => rfl

theorem Adds.filter {entry : SweepEntry} {waiting behind : Bytes} {lines : List DisassemblyLine}
    (h : Adds labels scope entry waiting lines behind) :
    lines.filter isInstruction = (entry.instructionLine? labels scope).toList := by
  cases h with
  | instruction hcontent =>
      rw [List.filter_append, filter_ofBytes, List.nil_append, ofInstruction,
        SweepEntry.instructionLine?, hcontent]
      dsimp only
      split
      · rfl
      · exact filter_ofBytes _ _
  | row hcontent => rw [filter_ofBytes, SweepEntry.instructionLine?, hcontent]; rfl
  | none hcontent => rw [SweepEntry.instructionLine?, hcontent]; rfl

/-- The instruction lines of entries are those of the entries that are written so. -/
theorem filter_ofEntries (pending : Bytes) (entries : List SweepEntry) :
    (ofEntries labels scope pending entries).lines.filter isInstruction =
      entries.filterMap (SweepEntry.instructionLine? labels scope) := by
  induction entries generalizing pending with
  | nil => exact filter_ofBytes pending []
  | cons entry rest ih =>
      obtain ⟨before, waiting, lines, behind, hopens, hadds, hlines⟩ :=
        ofEntries_cons labels scope pending entry
      rw [hlines, List.filter_append, List.filter_append, ih, hopens.filter, hadds.filter,
        List.nil_append, List.filterMap_cons]
      cases entry.instructionLine? labels scope <;> rfl

end DisassemblyLine

namespace Disassembly

open SweepEntry

/-- The instruction lines of a disassembly are those of the entries that are written so. -/
theorem filter_lines (code : Bytes) (base : UInt32) (given : Option UInt32) :
    let labels := CodeLabels.ofEntries base (given.getD base) (sweep code)
    (ofCode code base given).lines.filter DisassemblyLine.isInstruction =
      (sweep code).filterMap (instructionLine? labels labels.probeScope) := by
  intro labels
  change (WrittenLines.ofBlock labels (sweep code)).lines.filter DisassemblyLine.isInstruction = _
  cases sweep code with
  | nil =>
      cases hname : labels.find? 0 <;>
        simp [WrittenLines.ofBlock, hname, DisassemblyLine.isInstruction]
  | cons first rest => exact DisassemblyLine.filter_ofEntries [] (first :: rest)

/-- The sweep tiles the block, and the counts of a disassembly add up. The entries of a block stand
one behind another from its beginning to its end, and none is empty. There is a warning for each
longest run of leftover bytes, which are entries of one byte; it tells why no instruction begins at
the first of them. Some entries are written as instructions, each in a line, and are counted. All
other bytes, and no more, are listed as raw data in their order and are counted too, so that both
counts make the block. -/
theorem ofCode_accounts (code : Bytes) (base : UInt32) (given : Option UInt32) :
    let entries := sweep code
    let labels := CodeLabels.ofEntries base (given.getD base) entries
    let disassembly := ofCode code base given
    let written := entries.filter (isWritten labels labels.probeScope)
    Tiles 0 entries code ∧
      (∀ entry ∈ entries, entry.isLeftover = true → entry.bytes.length = 1) ∧
      List.Forall₂ (Warns code) (leftoverRuns entries) disassembly.diagnostics ∧
      disassembly.lines.filter DisassemblyLine.isInstruction =
        written.filterMap (instructionLine? labels labels.probeScope) ∧
      disassembly.instructionCount = written.length ∧
      disassembly.rawByteCount + (written.map fun entry => entry.bytes.length).sum = code.length ∧
      disassembly.lines.flatMap DisassemblyLine.rawBytes =
        (entries.filter fun entry => !entry.isWritten labels labels.probeScope).flatMap bytes := by
  intro entries labels disassembly written
  have htiles : Tiles 0 entries code := sweep_tiles code
  have hraw : disassembly.lines.flatMap DisassemblyLine.rawBytes =
      (entries.filter fun entry => !entry.isWritten labels labels.probeScope).flatMap bytes :=
    (rawBytes_ofCode code base given).trans (flatMap_rawBytes labels labels.probeScope entries)
  have hlines : disassembly.lines.filter DisassemblyLine.isInstruction =
      written.filterMap (instructionLine? labels labels.probeScope) := by
    rw [List.filterMap_filter]
    refine (filter_lines code base given).trans (List.filterMap_congr fun entry _ => ?_)
    rw [isWritten]
    cases instructionLine? labels labels.probeScope entry <;> rfl
  have hcount : (written.filterMap (instructionLine? labels labels.probeScope)).length =
      written.length := by
    rw [List.length_filterMap_eq_countP, List.countP_eq_length]
    exact fun entry hentry => (List.mem_filter.mp hentry).2
  refine ⟨htiles, fun entry hentry hleftover => ?_, warnings_sweep code, hlines, ?_, ?_, hraw⟩
  · obtain ⟨failure, hcontent⟩ := exists_of_isLeftover hleftover
    exact (readAt_of_leftover hentry hcontent).2
  · rw [instructionCount_ofCode, List.countP_eq_length_filter, hlines, hcount]
  · rw [rawByteCount_ofCode, hraw, sum_lengths, htiles.flatMap_bytes]

end Disassembly

end NovelAsm
