import Mathlib.Data.List.Flatten
import Mathlib.Data.List.Nodup
import NovelAsm.Listing
import NovelAsm.Proofs.Erasure.Code
import NovelAsm.Proofs.Erasure.Declarations
import NovelAsm.Proofs.Resolve.Duplicates
import NovelAsm.Proofs.Segment.Cut
import NovelAsm.Proofs.Session.Program

/-!
Segments and the whole file. A session reads the segments of a source one by one, a listing
reads the source as a whole. Where every segment can be read alone, both read the same items,
so they come to the same units, and link them to the same program.
-/

namespace NovelAsm

namespace Diagnostics

theorem hasErrors_flatMap_eq_false_iff {α : Type} {items : List α} {reported : α → Diagnostics} :
    hasErrors (items.flatMap reported) = false ↔
      ∀ item ∈ items, (reported item).hasErrors = false := by
  simp only [hasErrors, List.any_flatMap, List.any_eq_false, Bool.not_eq_true]

@[simp] theorem hasErrors_sortByPlace (diagnostics : Diagnostics) :
    diagnostics.sortByPlace.hasErrors = diagnostics.hasErrors :=
  List.Perm.any_eq (List.mergeSort_perm _ _)

@[simp] theorem hasErrors_rebase (diagnostics : Diagnostics) (base : Location) :
    (diagnostics.rebase base).hasErrors = diagnostics.hasErrors := by
  rw [← hasErrors_bare, bare_rebase, hasErrors_bare]

end Diagnostics

namespace Routine

/-- An item behind which no script is open that was open before it. -/
def EndsScript (tree : SyntaxTree) : Prop :=
  tree.kind? = some .label ∨ tree.kind? = some .functionDefinition ∨
    tree.kind? = some .subroutineDefinition ∨ tree.kind? = some .definition

theorem endsScript_of_names {tree : SyntaxTree} {name : Token} (h : tree.NamedBy name) :
    EndsScript tree := by
  cases h <;> simp [EndsScript, SyntaxTree.kind?]

/-- Items behind others are read by themselves, if no script goes on between them. -/
theorem readItems_append (scope : Scope) (current : Option Routine) (front behind : List SyntaxTree)
    (h : ∀ tree, behind.head? = some tree → EndsScript tree) :
    readItems scope current (front ++ behind) = (do
      let first ← readItems scope current front
      let others ← readItems scope none behind
      return first ++ others) := by
  induction front generalizing current with
  | nil =>
      cases behind with
      | nil => simp [readItems]
      | cons tree rest =>
          rcases h tree rfl with hkind | hkind | hkind | hkind <;> simp [readItems, hkind]
  | cons tree front ih =>
      simp only [List.cons_append, readItems]
      split
      · simp only [ih, bind_assoc, pure_bind, List.append_assoc]
      · cases current with
        | none => simp only [ih, bind_assoc]
        | some script => simp only [ih, bind_assoc]
      · simp only [ih, bind_assoc, pure_bind, List.append_assoc, List.cons_append]
      · simp only [ih, bind_assoc, pure_bind, List.append_assoc, List.cons_append]
      · simp only [ih, bind_assoc, pure_bind, List.append_assoc]
      · exact ih current

/-- What is reported about the instructions of some routines. -/
def reports (routines : List Routine) : Diagnostics :=
  routines.flatMap fun routine => routine.lower.2

theorem reports_bare (routines : List Routine) :
    reports (routines.map bare) = Diagnostics.bare (reports routines) := by
  simp only [reports, List.flatMap_map, lower_bare, Diagnostics.bare, List.map_flatMap]

theorem hasErrors_reports_congr {routines others : List Routine}
    (h : routines.map bare = others.map bare) :
    (reports routines).hasErrors = (reports others).hasErrors := by
  rw [← Diagnostics.hasErrors_bare, ← reports_bare, h, reports_bare, Diagnostics.hasErrors_bare]

/-- The encoded unit of a routine in its place. -/
def placedAt (origin : Location) (routine : Routine) : PlacedUnit :=
  ⟨routine.lower.1.encode, origin⟩

theorem placedAt_bare (origin : Location) (routine : Routine) :
    (routine.placedAt origin).bare = routine.bare.placedAt .origin := by
  simp only [placedAt, PlacedUnit.bare, lower_bare, CodeUnit.encode_bare]

end Routine

namespace Session

open Segment SyntaxTree

/-- The items of a segment that was read. -/
def itemsIn (read : ReadSegment) : List SyntaxTree := coreAll read.kept.parsed.tree.children

/-- The routines of a source, segment by segment, with what is reported about them. -/
def resolved (scope : Scope) (reads : List ReadSegment) : List Routine × Diagnostics :=
  (reads.flatMap fun read => (Routine.resolve scope read.kept.parsed.tree).1,
    reads.flatMap fun read => (Routine.resolve scope read.kept.parsed.tree).2)

/-- Segments that begin with items of their own are resolved one by one. -/
theorem readItems_segments (scope : Scope) (reads : List ReadSegment)
    (h : ∀ read ∈ reads.tail, ∃ tree rest, itemsIn read = tree :: rest ∧ Routine.EndsScript tree)
    (front : Diagnostics) :
    Routine.readItems scope.bare none (reads.flatMap itemsIn) front =
      ((resolved scope reads).1.map Routine.bare,
        front ++ Diagnostics.bare (resolved scope reads).2) := by
  induction reads generalizing front with
  | nil =>
      simp only [List.flatMap_nil, Routine.readItems, resolved, List.map_nil, Diagnostics.bare_nil,
        List.append_nil]
      rfl
  | cons read rest ih =>
      have hbehind (tree : SyntaxTree) (hhead : (rest.flatMap itemsIn).head? = some tree) :
          Routine.EndsScript tree := by
        cases rest with
        | nil => cases hhead
        | cons second rest =>
            obtain ⟨first, more, hitems, hends⟩ := h second (List.mem_cons_self ..)
            rw [List.flatMap_cons, hitems] at hhead
            exact Option.some.inj hhead ▸ hends
      have hfirst := Routine.readItems_core scope front read.kept.parsed.tree
      have hrest := ih (fun other hother => h other (List.mem_of_mem_tail hother))
        (front ++ Diagnostics.bare (Routine.resolve scope read.kept.parsed.tree).2)
      rw [List.flatMap_cons, Routine.readItems_append scope.bare none _ _ hbehind]
      change (((Routine.readItems scope.bare none (itemsIn read) front).1 ++
          (Routine.readItems scope.bare none (rest.flatMap itemsIn)
            (Routine.readItems scope.bare none (itemsIn read) front).2).1),
        (Routine.readItems scope.bare none (rest.flatMap itemsIn)
          (Routine.readItems scope.bare none (itemsIn read) front).2).2) = _
      rw [show Routine.readItems scope.bare none (itemsIn read) front = _ from hfirst, hrest]
      simp only [resolved, List.flatMap_cons, List.map_append, Diagnostics.bare_append,
        List.append_assoc]

variable {source : Bytes}

/-- Each segment of a source, read alone, is parsed without a complaint. -/
def SegmentsClean (source : Bytes) : Prop := ∀ segment ∈ split source, Clean segment.text

instance (source : Bytes) : Decidable (SegmentsClean source) :=
  inferInstanceAs (Decidable (∀ segment ∈ split source, Clean segment.text))

/-- A clean segment that opens an item begins with that, and the item has a name. -/
theorem exists_names_of_opening {text : Bytes} (hopening : Opening text) (hclean : Clean text) :
    ∃ tree rest name, itemsOf text = tree :: rest ∧ tree.NamedBy name :=
  hclean.items.exists_names (hopening.opens hclean.items)

theorem opening_of_mem_tail {texts : List Bytes} (h : Cut texts) {text : Bytes}
    (hmem : text ∈ texts.tail) : Opening text := by
  induction texts with
  | nil => cases hmem
  | cons first rest ih =>
      obtain ⟨hfirst, hrest⟩ := List.isChain_cons.mp h
      cases rest with
      | nil => cases hmem
      | cons second rest =>
          rcases List.mem_cons.mp hmem with rfl | hmem
          · exact (hfirst _ rfl).2
          · exact ih hrest hmem

/-- The declarations of a source without places are those of its items. -/
theorem declarations_bare (source : Bytes) :
    ((declarations source).1.bare, Diagnostics.bare (declarations source).2) =
      (Declarations.ofItems ((reads source).flatMap itemsIn)).reportClashes.defineAll := by
  rw [declarations, Declarations.collect_bare, List.flatMap_map]
  rfl

/-- A source without errors in its declarations has no segment twice, for that would declare
its name twice. -/
theorem nodup_texts (hsegments : SegmentsClean source)
    (hdeclared : (declarations source).2.hasErrors = false) : (texts source).Nodup := by
  refine List.nodup_iff_sublist.mpr fun text htwice => ?_
  have hmem : text ∈ texts source := htwice.subset (List.mem_cons_self ..)
  obtain ⟨segment, hsegment, rfl⟩ := List.mem_map.mp hmem
  have hopening : Opening segment.text :=
    opening_of_mem_tail (split_spec source).2 (htwice.tail.subset (List.mem_singleton_self _))
  obtain ⟨tree, rest, name, hitems, hname⟩ :=
    exists_names_of_opening hopening (hsegments segment hsegment)
  have hitem : List.Sublist [tree] (itemsOf segment.text) := by
    rw [hitems]
    exact List.singleton_sublist.mpr (List.mem_cons_self ..)
  have htrees : List.Sublist [tree, tree] ((reads source).flatMap itemsIn) := by
    have hreads : (reads source).flatMap itemsIn = (texts source).flatMap itemsOf := by
      rw [reads, texts, List.flatMap_map, List.flatMap_map]
      rfl
    rw [hreads]
    exact (hitem.append hitem).trans (by simpa using htwice.flatMap itemsOf)
  have herrors := Declarations.hasErrors_defineAll
    (Declarations.foldl_addItem_twice hname htrees .origin .empty)
  have hbare := congrArg Prod.snd (declarations_bare source)
  rw [← Diagnostics.hasErrors_bare, show Diagnostics.bare (declarations source).2 = _ from hbare]
    at hdeclared
  exact absurd herrors (by rw [Declarations.ofItems] at hdeclared; simp [hdeclared])

/-- The declarations of a source that is read as a whole. -/
def wholeDeclarations (source : Bytes) : Scope × Diagnostics :=
  Declarations.collect [⟨(ParsedSource.read source .origin).tree, .origin⟩]

/-- The routines of a source that is read as a whole. -/
def wholeRoutines (source : Bytes) : List Routine × Diagnostics :=
  Routine.resolve (wholeDeclarations source).1 (ParsedSource.read source .origin).tree

theorem itemsIn_reads (hclean : Clean source) (hsegments : SegmentsClean source) :
    (reads source).flatMap itemsIn = itemsOf source := by
  rw [itemsOf_split hclean hsegments, reads, List.flatMap_map]
  rfl

theorem wholeDeclarations_bare (hclean : Clean source) (hsegments : SegmentsClean source) :
    ((wholeDeclarations source).1.bare, Diagnostics.bare (wholeDeclarations source).2) =
      ((declarations source).1.bare, Diagnostics.bare (declarations source).2) := by
  rw [declarations_bare, itemsIn_reads hclean hsegments, wholeDeclarations,
    Declarations.collect_bare, List.flatMap_singleton]
  rfl

/-- Read as a whole, a source has the routines of its segments. -/
theorem wholeRoutines_bare (hclean : Clean source) (hsegments : SegmentsClean source) :
    ((wholeRoutines source).1.map Routine.bare, Diagnostics.bare (wholeRoutines source).2) =
      ((resolved (scopeOf source) (reads source)).1.map Routine.bare,
        Diagnostics.bare (resolved (scopeOf source) (reads source)).2) := by
  have hscope : (wholeDeclarations source).1.bare = (scopeOf source).bare :=
    congrArg Prod.fst (wholeDeclarations_bare hclean hsegments)
  have hopen : ∀ read ∈ (reads source).tail,
      ∃ tree rest, itemsIn read = tree :: rest ∧ Routine.EndsScript tree := by
    intro read hread
    rw [reads, ← List.map_tail] at hread
    obtain ⟨segment, hsegment, rfl⟩ := List.mem_map.mp hread
    have htail : segment.text ∈ ((split source).map Segment.text).tail := by
      rw [← List.map_tail]
      exact List.mem_map_of_mem hsegment
    obtain ⟨tree, rest, name, hitems, hname⟩ :=
      exists_names_of_opening (opening_of_mem_tail (split_spec source).2 htail)
        (hsegments segment (List.mem_of_mem_tail hsegment))
    exact ⟨tree, rest, hitems, Routine.endsScript_of_names hname⟩
  have hwhole := Routine.readItems_core (wholeDeclarations source).1 []
    (ParsedSource.read source .origin).tree
  have hreads := readItems_segments (scopeOf source) (reads source) hopen []
  rw [itemsIn_reads hclean hsegments, ← hscope] at hreads
  exact hwhole.symm.trans hreads

/-- The units of a source that are linked in the end. -/
theorem placedUnits_bare (scope : Scope) (signature : Fingerprint) (reads : List ReadSegment) :
    ((reads.map fun read => (read, KeptCode.make scope signature read.kept)).flatMap
      fun (read, code) => placedUnits read code).map PlacedUnit.bare =
        ((resolved scope reads).1.map Routine.bare).map (Routine.placedAt .origin) := by
  simp only [List.flatMap_map, List.map_flatMap, resolved, placedUnits, KeptCode.make,
    List.map_map, Function.comp_def]
  refine List.flatMap_congr fun read _ => List.map_congr_left fun routine _ => ?_
  exact routine.placedAt_bare read.origin

/-- What is reported about the segments of a source. -/
theorem hasErrors_segments_eq_false_iff (scope : Scope) (signature : Fingerprint)
    (reads : List ReadSegment) :
    Diagnostics.hasErrors ((reads.map fun read =>
      (read, KeptCode.make scope signature read.kept)).flatMap
        fun (read, code) => segmentDiagnostics read code) = false ↔
      (∀ read ∈ reads, read.kept.parsed.diagnostics.hasErrors = false) ∧
        (resolved scope reads).2.hasErrors = false ∧
        (Routine.reports (resolved scope reads).1).hasErrors = false := by
  have hreports : Routine.reports (resolved scope reads).1 = reads.flatMap fun read =>
      Routine.reports (Routine.resolve scope read.kept.parsed.tree).1 := by
    rw [Routine.reports, resolved, List.flatMap_assoc]
    rfl
  have hcode (read : ReadSegment) : (KeptCode.make scope signature read.kept).diagnostics =
      (Routine.resolve scope read.kept.parsed.tree).2 ++
        Routine.reports (Routine.resolve scope read.kept.parsed.tree).1 := by
    simp only [KeptCode.make, Routine.reports, List.flatMap_map]
  rw [hreports, resolved, List.flatMap_map, Diagnostics.hasErrors_flatMap_eq_false_iff,
    Diagnostics.hasErrors_flatMap_eq_false_iff, Diagnostics.hasErrors_flatMap_eq_false_iff]
  simp only [segmentDiagnostics, hcode, Diagnostics.hasErrors_append,
    Diagnostics.hasErrors_rebase, Bool.or_eq_false_iff]
  constructor
  · intro h
    exact ⟨fun read hread => (h read hread).1, fun read hread => (h read hread).2.1,
      fun read hread => (h read hread).2.2⟩
  · rintro ⟨hparsed, hresolved, hreported⟩ read hread
    exact ⟨hparsed read hread, hresolved read hread, hreported read hread⟩

/-- The program of a source, read segment by segment, without places. -/
def linkedBare (base : UInt32) (source : Bytes) : LinkedProgram :=
  LinkedProgram.link base [] (((resolved (scopeOf source) (reads source)).1.map
    Routine.bare).map (Routine.placedAt .origin))

/-- A source is assembled to the program of its routines. It succeeds if nothing is wrong with
its segments, its declarations, its routines and their units. -/
theorem program_spec (base : UInt32) (source : Bytes) :
    (program base source fun _ => scopeOf source).code = (linkedBare base source).code ∧
      (program base source fun _ => scopeOf source).symbols = (linkedBare base source).symbols ∧
      (program base source fun _ => scopeOf source).entry = (linkedBare base source).entry ∧
      ((program base source fun _ => scopeOf source).succeeded = true ↔
        (∀ read ∈ reads source, read.kept.parsed.diagnostics.hasErrors = false) ∧
          ((resolved (scopeOf source) (reads source)).2.hasErrors = false ∧
            (Routine.reports (resolved (scopeOf source) (reads source)).1).hasErrors = false) ∧
          (declarations source).2.hasErrors = false ∧
          (linkedBare base source).succeeded = true) := by
  let codes := (reads source).map fun read =>
    (read, KeptCode.make (scopeOf source) (signatureOf source) read.kept)
  let linked := LinkedProgram.link base [] (codes.flatMap fun (read, code) => placedUnits read code)
  have hlinked : linked.bare = linkedBare base source := by
    rw [linkedBare, ← placedUnits_bare (scopeOf source) (signatureOf source),
      LinkedProgram.link_bare]
  have hsucceeded : (linkedBare base source).succeeded = !linked.diagnostics.hasErrors := by
    rw [← hlinked, LinkedProgram.succeeded_bare]
    rfl
  refine ⟨by rw [← hlinked]; rfl, by rw [← hlinked]; rfl, by rw [← hlinked]; rfl, ?_⟩
  have hdiagnostics : (program base source fun _ => scopeOf source).diagnostics =
      Diagnostics.sortByPlace ((codes.flatMap fun (read, code) => segmentDiagnostics read code)
        ++ (declarations source).2 ++ linked.diagnostics) := rfl
  rw [LinkedProgram.succeeded, hdiagnostics, Diagnostics.hasErrors_sortByPlace,
    Diagnostics.hasErrors_append, Diagnostics.hasErrors_append, Bool.not_eq_true',
    Bool.or_eq_false_iff, Bool.or_eq_false_iff, hasErrors_segments_eq_false_iff, hsucceeded,
    Bool.not_eq_true']
  simp only [and_assoc]

/-- The units of a source that is read as a whole are linked to the program of its routines. -/
theorem ofUnits_bare (base : UInt32) (hclean : Clean source) (hsegments : SegmentsClean source) :
    (LinkedProgram.ofUnits base (Listing.ofSource source).units).bare = linkedBare base source := by
  have hroutines : (wholeRoutines source).1.map Routine.bare =
      (resolved (scopeOf source) (reads source)).1.map Routine.bare :=
    congrArg Prod.fst (wholeRoutines_bare hclean hsegments)
  have hunits : ((Listing.ofSource source).units.map fun unit =>
      (⟨unit.encode, .origin⟩ : PlacedUnit)) =
        (wholeRoutines source).1.map (Routine.placedAt .origin) := by
    change (((wholeRoutines source).1.map Routine.lower).map Prod.fst).map _ = _
    rw [List.map_map, List.map_map]
    rfl
  have hplaced : ((wholeRoutines source).1.map (Routine.placedAt .origin)).map PlacedUnit.bare =
      ((wholeRoutines source).1.map Routine.bare).map (Routine.placedAt .origin) := by
    rw [List.map_map, List.map_map]
    exact List.map_congr_left fun routine _ => routine.placedAt_bare .origin
  rw [LinkedProgram.ofUnits, hunits, ← LinkedProgram.link_bare, hplaced, hroutines]
  rfl

/-- A source is listed without errors if nothing is wrong with its declarations, its routines
and their instructions. -/
theorem listing_succeeded_iff (hclean : Clean source) (hsegments : SegmentsClean source) :
    (Listing.ofSource source).succeeded = true ↔
      ((resolved (scopeOf source) (reads source)).2.hasErrors = false ∧
        (Routine.reports (resolved (scopeOf source) (reads source)).1).hasErrors = false) ∧
      (declarations source).2.hasErrors = false := by
  have hroutines := wholeRoutines_bare hclean hsegments
  have hdeclared := congrArg (fun found => Diagnostics.hasErrors found.2)
    (wholeDeclarations_bare hclean hsegments)
  have hresolved := congrArg (fun found => Diagnostics.hasErrors found.2) hroutines
  have hreports := Routine.hasErrors_reports_congr (congrArg Prod.fst hroutines)
  simp only [Diagnostics.hasErrors_bare] at hdeclared hresolved
  have hdiagnostics : (Listing.ofSource source).diagnostics =
      Diagnostics.sortByPlace ((ParsedSource.read source .origin).diagnostics
        ++ (wholeDeclarations source).2 ++ (wholeRoutines source).2
        ++ ((wholeRoutines source).1.map Routine.lower).flatMap Prod.snd) := rfl
  have hlowered : ((wholeRoutines source).1.map Routine.lower).flatMap Prod.snd =
      Routine.reports (wholeRoutines source).1 := by
    rw [List.flatMap_map]
    rfl
  rw [Listing.succeeded, hdiagnostics, Diagnostics.hasErrors_sortByPlace, hlowered,
    show (ParsedSource.read source .origin).diagnostics = [] from hclean, List.nil_append,
    Diagnostics.hasErrors_append, Diagnostics.hasErrors_append, hdeclared, hresolved, hreports]
  simp [and_comm, and_assoc]

/-- Only a source whose segments can be read alone, and whose declarations are right, is
assembled without errors. -/
theorem clean_of_succeeded (base : UInt32) (source : Bytes)
    (h : (LinkedProgram.ofSource base source).succeeded = true) :
    SegmentsClean source ∧ (declarations source).2.hasErrors = false := by
  obtain ⟨kept, -, -, -, -, hrun⟩ := assemble_run (start base) source (start_treesValid base)
  have hnone : (LinkedProgram.ofSource base source).diagnostics.hasErrors = false := by
    simpa [LinkedProgram.succeeded] using h
  rw [LinkedProgram.ofSource, hrun] at hnone
  simp only [linkCodes, Diagnostics.hasErrors_sortByPlace, Diagnostics.hasErrors_append,
    Bool.or_eq_false_iff, Diagnostics.hasErrors_flatMap_eq_false_iff] at hnone
  obtain ⟨⟨hsegments, hdeclared⟩, -⟩ := hnone
  refine ⟨fun segment hsegment => ?_, hdeclared⟩
  obtain ⟨other, code, hkept, hlinked⟩ := exists_linked (start base) kept source
    (List.mem_map_of_mem (f := readAlone) hsegment)
  have hread := hsegments _ hlinked
  simp only [segmentDiagnostics, Diagnostics.hasErrors_append, Diagnostics.hasErrors_rebase,
    Bool.or_eq_false_iff, hkept] at hread
  exact ParsedSource.diagnostics_eq_nil_of_hasErrors hread.1

/-- Reading by segments and reading the file as a whole. A source that is parsed as a whole
without a complaint is assembled without errors exactly if it is listed and linked without
errors and, moreover, each of its segments can be read alone; then both ways lead to the same
code, symbols and entry.

The condition on the segments cannot be dropped: the cut looks at the first word of each line
only, so a comment in front of `function` hides that word, and the labels in the body open
segments of their own. -/
theorem ofSource_agrees_with_listing (base : UInt32) (source : Bytes) (hclean : Clean source) :
    ((LinkedProgram.ofSource base source).succeeded = true ↔
      (Listing.ofSource source).succeeded = true ∧
        (LinkedProgram.ofUnits base (Listing.ofSource source).units).succeeded = true ∧
        SegmentsClean source) ∧
    ((LinkedProgram.ofSource base source).succeeded = true →
      (LinkedProgram.ofSource base source).code =
          (LinkedProgram.ofUnits base (Listing.ofSource source).units).code ∧
        (LinkedProgram.ofSource base source).symbols =
          (LinkedProgram.ofUnits base (Listing.ofSource source).units).symbols ∧
        (LinkedProgram.ofSource base source).entry =
          (LinkedProgram.ofUnits base (Listing.ofSource source).units).entry) := by
  have hprogram (hsegments : SegmentsClean source)
      (hdeclared : (declarations source).2.hasErrors = false) :
      LinkedProgram.ofSource base source = program base source fun _ => scopeOf source :=
    ofSource_eq_program base source (Or.inr (nodup_texts hsegments hdeclared))
  obtain ⟨hcode, hsymbols, hentry, hspec⟩ := program_spec base source
  have hlinked (hsegments : SegmentsClean source) :
      (LinkedProgram.ofUnits base (Listing.ofSource source).units).succeeded =
        (linkedBare base source).succeeded := by
    rw [← ofUnits_bare base hclean hsegments, LinkedProgram.succeeded_bare]
  refine ⟨⟨fun hsucceeded => ?_, ?_⟩, fun hsucceeded => ?_⟩
  · obtain ⟨hsegments, hdeclared⟩ := clean_of_succeeded base source hsucceeded
    rw [hprogram hsegments hdeclared] at hsucceeded
    obtain ⟨-, hroutines, -, hunits⟩ := hspec.mp hsucceeded
    exact ⟨(listing_succeeded_iff hclean hsegments).mpr ⟨hroutines, hdeclared⟩,
      (hlinked hsegments).trans hunits, hsegments⟩
  · rintro ⟨hlisted, hunits, hsegments⟩
    obtain ⟨hroutines, hdeclared⟩ := (listing_succeeded_iff hclean hsegments).mp hlisted
    rw [hprogram hsegments hdeclared]
    refine hspec.mpr ⟨fun read hread => ?_, hroutines, hdeclared,
      (hlinked hsegments).symm.trans hunits⟩
    obtain ⟨segment, hsegment, rfl⟩ := List.mem_map.mp hread
    exact congrArg Diagnostics.hasErrors (hsegments segment hsegment)
  · obtain ⟨hsegments, hdeclared⟩ := clean_of_succeeded base source hsucceeded
    rw [hprogram hsegments hdeclared, hcode, hsymbols, hentry,
      ← ofUnits_bare base hclean hsegments, LinkedProgram.code_bare, LinkedProgram.symbols_bare,
      LinkedProgram.entry_bare]
    exact ⟨rfl, rfl, rfl⟩

/-- Two scripts, a function and a value are read alike both ways. -/
theorem ofSource_agrees_on_four_segments :
    let source := ascii "A:\n    j F\nfunction F()\n    push X\nendfun\ndef X = 1 /* one */\nB:\n"
    let program := LinkedProgram.ofSource 0 source
    let linked := LinkedProgram.ofUnits 0 (Listing.ofSource source).units
    Clean source ∧ SegmentsClean source ∧ program.succeeded = true ∧ program.code = linked.code ∧
      program.symbols = linked.symbols ∧ program.entry = linked.entry := by
  intro source program linked
  have hclean : Clean source := by decide +kernel
  have hwhole : (Listing.ofSource source).succeeded = true ∧ linked.succeeded = true ∧
      SegmentsClean source := by decide +kernel
  obtain ⟨hiff, hsame⟩ := ofSource_agrees_with_listing 0 source hclean
  have hsucceeded := hiff.mpr hwhole
  exact ⟨hclean, hwhole.2.2, hsucceeded, hsame hsucceeded⟩

/-- A comment hides the word `function` from the cut, so the label in the body opens a segment
of its own. The file is listed and linked without a complaint, but is not assembled. -/
theorem not_succeeded_behind_comment :
    let source := ascii "/**/function F()\nL:\n    return\nendfun\n"
    Clean source ∧ (Listing.ofSource source).succeeded = true ∧
      (LinkedProgram.ofUnits 0 (Listing.ofSource source).units).succeeded = true ∧
      (LinkedProgram.ofSource 0 source).succeeded = false := by
  intro source
  have hwhole : Clean source ∧ (Listing.ofSource source).succeeded = true ∧
      (LinkedProgram.ofUnits 0 (Listing.ofSource source).units).succeeded = true := by
    decide +kernel
  have hsegments : ¬ SegmentsClean source := by decide +kernel
  refine ⟨hwhole.1, hwhole.2.1, hwhole.2.2, ?_⟩
  exact Bool.eq_false_iff.mpr fun hsucceeded => hsegments (clean_of_succeeded 0 source hsucceeded).1

end Session

end NovelAsm
