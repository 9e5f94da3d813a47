import NovelAsm.Proofs.Reports.Code
import NovelAsm.Proofs.Reports.Declarations
import NovelAsm.Proofs.Reports.Trees
import NovelAsm.Session

/-!
What is said of a segment and of its place in a program. The code of a segment points at the
tokens of its text, and the linker points at the code. So if the spans of the tokens are allowed,
those of the whole program are.
-/

namespace NovelAsm

variable {allowed : Span → Prop}

/-- The code of a tree: what is said when it is made, and the places that it keeps. -/
theorem KeptCode.make_early (scope : Scope) (signature : Fingerprint) {kept : KeptTree}
    (h : kept.parsed.tree.Within allowed)
    (hjoin : kept.parsed.tree.children.Pairwise fun first last =>
      last.kind? = some .instruction → allowed (first.span.join last.span)) :
    (∀ unit ∈ (make scope signature kept).units, unit.Within allowed) ∧
      (make scope signature kept).diagnostics.AllEarly allowed := by
  obtain ⟨hroutines, hresolved⟩ := Routine.resolve_early scope h hjoin
  constructor
  · intro unit hunit
    obtain ⟨lowered, hlowered, rfl⟩ := List.mem_map.mp hunit
    obtain ⟨routine, hroutine, rfl⟩ := List.mem_map.mp hlowered
    exact (Routine.lower_early (hroutines routine hroutine)).1.encode
  · refine hresolved.append (Diagnostics.allEarly_flatMap fun lowered hlowered => ?_)
    obtain ⟨routine, hroutine, rfl⟩ := List.mem_map.mp hlowered
    exact (Routine.lower_early (hroutines routine hroutine)).2

/-- Who says what can be asked with every place allowed. -/
theorem covered_everywhere (tokens : List Token) : Covered (fun _ => True) tokens :=
  ⟨trivial, fun _ _ => trivial, fun _ _ => trivial, List.pairwise_of_forall fun _ _ => trivial⟩

theorem CodeUnit.within_everywhere (unit : CodeUnit) : unit.Within fun _ => True :=
  ⟨fun _ _ => ⟨trivial, fun _ _ => ⟨trivial, fun _ _ => trivial⟩⟩, fun _ _ => trivial⟩

namespace LinkedProgram

/-- The spans of a placed unit are allowed in the file, and so is the empty span at its place. -/
structure PlacedWithin (allowed : Span → Prop) (placed : PlacedUnit) : Prop where
  unit : placed.unit.Within fun span => allowed (span.rebase placed.origin)
  nothing : allowed (Span.origin.rebase placed.origin)

/-- Diagnostics whose spans are allowed. -/
abbrev AllPlaced (allowed : Span → Prop) (diagnostics : Diagnostics) : Prop :=
  ∀ diagnostic ∈ diagnostics, diagnostic.Placed allowed

theorem diagnose_placed (problem : LinkProblem) {span : Span} (h : allowed span) :
    (problem.diagnose span).Placed allowed := ⟨h, nofun⟩

/-- A unit that does not fit is reported at its first label, if it has one. -/
theorem refuse_placed {layout : Layout} {placed : PlacedUnit}
    (hlayout : AllPlaced allowed layout.diagnostics) (h : PlacedWithin allowed placed) :
    AllPlaced allowed (layout.refuse placed).diagnostics := by
  refine List.forall_mem_append.mpr ⟨hlayout, List.forall_mem_singleton.mpr ?_⟩
  refine diagnose_placed _ ?_
  cases hlabels : placed.unit.labels with
  | nil => exact h.nothing
  | cons label rest => exact h.unit.labels label (hlabels ▸ List.mem_cons_self ..)

theorem mem_starts_add {layout : Layout} {placed : PlacedUnit} {start : Nat × PlacedUnit}
    (h : start ∈ (layout.add placed).starts) : start ∈ layout.starts ∨ start.2 = placed :=
  (List.mem_append.mp h).imp_right fun h => congrArg Prod.snd (List.mem_singleton.mp h)

theorem place_placed {layout : Layout} {units : List PlacedUnit}
    (hlayout : AllPlaced allowed layout.diagnostics)
    (hstarts : ∀ start ∈ layout.starts, PlacedWithin allowed start.2)
    (h : ∀ placed ∈ units, PlacedWithin allowed placed) :
    AllPlaced allowed (layout.place units).1.diagnostics ∧
      ∀ start ∈ (layout.place units).1.starts, PlacedWithin allowed start.2 := by
  induction units generalizing layout with
  | nil => exact ⟨hlayout, hstarts⟩
  | cons placed rest ih =>
      obtain ⟨hplaced, hrest⟩ := List.forall_mem_cons.mp h
      have hsaid : AllPlaced allowed
          (layout.diagnostics ++ placed.unit.diagnostics.rebase placed.origin) :=
        List.forall_mem_append.mpr ⟨hlayout, fun diagnostic hmem =>
          (hplaced.unit.diagnostics.rebase diagnostic hmem).toPlaced⟩
      rw [Layout.place]
      split
      · exact ⟨refuse_placed hsaid hplaced, hstarts⟩
      · refine ih hsaid (fun start hstart => ?_) hrest
        rcases mem_starts_add hstart with hstart | rfl
        · exact hstarts start hstart
        · exact hplaced

theorem patchUnit_placed (symbols : NameMap UInt32) (base start : Nat) {placed : PlacedUnit}
    (code : Array UInt8) {diagnostics : Diagnostics} {relocations : List Relocation}
    (hsaid : AllPlaced allowed diagnostics)
    (h : ∀ relocation ∈ relocations, allowed (relocation.span.rebase placed.origin)) :
    AllPlaced allowed (patchUnit symbols base start placed code diagnostics relocations).2 := by
  induction relocations generalizing code diagnostics with
  | nil => exact hsaid
  | cons relocation rest ih =>
      obtain ⟨hrelocation, hrest⟩ := List.forall_mem_cons.mp h
      rw [patchUnit]
      split
      · exact ih _ hsaid hrest
      · exact ih _ (List.forall_mem_append.mpr ⟨hsaid, List.forall_mem_singleton.mpr
          (diagnose_placed _ hrelocation)⟩) hrest

theorem patchAll_placed (symbols : NameMap UInt32) (base : Nat) (code : Array UInt8)
    {diagnostics : Diagnostics} {starts : List (Nat × PlacedUnit)}
    (hsaid : AllPlaced allowed diagnostics)
    (h : ∀ start ∈ starts, PlacedWithin allowed start.2) :
    AllPlaced allowed (patchAll symbols base code diagnostics starts).2 := by
  induction starts generalizing code diagnostics with
  | nil => exact hsaid
  | cons first rest ih =>
      obtain ⟨hfirst, hrest⟩ := List.forall_mem_cons.mp h
      exact ih _ (patchUnit_placed symbols base _ code hsaid hfirst.unit.relocations) hrest

/-- What is said when units are linked. -/
theorem link_placed (base : UInt32) (externals : List (Bytes × UInt32)) {units : List PlacedUnit}
    (h : ∀ placed ∈ units, PlacedWithin allowed placed) :
    AllPlaced allowed (link base externals units).diagnostics := by
  have hempty : AllPlaced allowed (Layout.empty base).diagnostics := nofun
  have hplaced := place_placed hempty nofun h
  unfold link
  generalize (Layout.empty base).place units = run at hplaced ⊢
  obtain ⟨layout, fits⟩ := run
  cases fits with
  | false => exact hplaced.1
  | true => exact patchAll_placed _ _ _ hplaced.1 hplaced.2

end LinkedProgram

end NovelAsm
