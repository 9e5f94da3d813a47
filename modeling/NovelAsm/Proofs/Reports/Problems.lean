import NovelAsm.Code.Encode
import NovelAsm.CodeUnit.Problem
import NovelAsm.Expr.Computation
import NovelAsm.Proofs.Steps
import NovelAsm.Resolve.Problem
import NovelAsm.SyntaxTree.Parser

/-!
Who says what, and where. Every stage has problems of its own, and reports nothing else: the
code under which the linker reports a field that gets no address occurs in the diagnostics of no
stage before it, and the stages before the encoder report errors alone. And a stage makes up no
places. It points at the spans of what it was given, so
if those are allowed, whichever they are, those of its diagnostics are allowed.
-/

namespace NovelAsm

variable {allowed : Span → Prop}

namespace Diagnostic

/-- The spans of a diagnostic and of its notes are allowed. -/
structure Placed (allowed : Span → Prop) (diagnostic : Diagnostic) : Prop where
  span : allowed diagnostic.span
  notes : ∀ note ∈ diagnostic.notes, allowed note.span

theorem Placed.rebase {other : Span → Prop} {diagnostic : Diagnostic} {base : Location}
    (h : diagnostic.Placed fun span => other (span.rebase base)) :
    (diagnostic.rebase base).Placed other where
  span := h.span
  notes note hnote := by
    obtain ⟨original, horiginal, rfl⟩ := List.mem_map.mp hnote
    exact h.notes original horiginal

/-- What a stage before the linker may say: anything but that a field gets no address, at a
place that is allowed. -/
structure Unlinked (allowed : Span → Prop) (diagnostic : Diagnostic) : Prop
    extends diagnostic.Placed allowed where
  code : diagnostic.code ≠ ascii "SASM-E4006"

theorem Unlinked.rebase {other : Span → Prop} {diagnostic : Diagnostic} {base : Location}
    (h : diagnostic.Unlinked fun span => other (span.rebase base)) :
    (diagnostic.rebase base).Unlinked other := ⟨h.toPlaced.rebase, h.code⟩

/-- What a stage before the encoder may say: these say nothing but errors. -/
structure Early (allowed : Span → Prop) (diagnostic : Diagnostic) : Prop
    extends diagnostic.Unlinked allowed where
  error : diagnostic.isError = true

theorem early_error {code : String} {message : Bytes} {span : Span}
    (hcode : ascii code ≠ ascii "SASM-E4006") (hspan : allowed span) :
    (error code message span).Early allowed := ⟨⟨⟨hspan, nofun⟩, hcode⟩, rfl⟩

theorem Early.withNote {diagnostic : Diagnostic} (h : diagnostic.Early allowed) {span : Span}
    (hspan : allowed span) (message : Bytes) :
    (diagnostic.withNote span message).Early allowed :=
  ⟨⟨⟨h.span, List.forall_mem_append.mpr ⟨h.notes, List.forall_mem_singleton.mpr hspan⟩⟩, h.code⟩,
    h.error⟩

theorem Early.rebase {other : Span → Prop} {diagnostic : Diagnostic} {base : Location}
    (h : diagnostic.Early fun span => other (span.rebase base)) :
    (diagnostic.rebase base).Early other := ⟨h.toUnlinked.rebase, h.error⟩

end Diagnostic

theorem LexicalProblem.early (problem : LexicalProblem) (message : Bytes) {span : Span}
    (hspan : allowed span) : (Diagnostic.error problem.code message span).Early allowed :=
  Diagnostic.early_error (by cases problem <;> decide) hspan

theorem SyntaxProblem.early (problem : SyntaxProblem) (message : Bytes) {span : Span}
    (hspan : allowed span) : (Diagnostic.error problem.code message span).Early allowed :=
  Diagnostic.early_error (by cases problem <;> decide) hspan

theorem NameProblem.early (problem : NameProblem) {span : Span} (hspan : allowed span) :
    (problem.diagnose span).Early allowed :=
  Diagnostic.early_error (by cases problem <;> simp only [code] <;> decide) hspan

theorem NameProblem.duplicate_early (problem : NameProblem) {span first : Span}
    (hspan : allowed span) (hfirst : allowed first) :
    (problem.diagnoseDuplicate span first).Early allowed :=
  (problem.early hspan).withNote hfirst _

theorem ExpressionProblem.early (problem : ExpressionProblem) (message : Bytes) {span : Span}
    (hspan : allowed span) : (Diagnostic.error problem.code message span).Early allowed :=
  Diagnostic.early_error (by cases problem <;> simp only [code] <;> decide) hspan

theorem OperandProblem.early (problem : OperandProblem) (message : Bytes) {span : Span}
    (hspan : allowed span) : (Diagnostic.error problem.code message span).Early allowed :=
  Diagnostic.early_error (by cases problem <;> simp only [code] <;> decide) hspan

/-- The encoder warns of cases that are not reached. -/
theorem EncodingProblem.unlinked (problem : EncodingProblem) {span : Span} (hspan : allowed span) :
    (problem.diagnose span).Unlinked allowed := by
  cases problem with
  | caseRepeated key => exact ⟨⟨hspan, nofun⟩, by simp only [diagnose, Diagnostic.warning]; decide⟩
  | _ => exact (Diagnostic.early_error (by decide) hspan).toUnlinked

namespace Diagnostics

/-- Diagnostics of stages before the linker, at places that are allowed. -/
abbrev AllUnlinked (allowed : Span → Prop) (diagnostics : Diagnostics) : Prop :=
  ∀ diagnostic ∈ diagnostics, diagnostic.Unlinked allowed

theorem AllUnlinked.rebase {other : Span → Prop} {diagnostics : Diagnostics} {base : Location}
    (h : diagnostics.AllUnlinked fun span => other (span.rebase base)) :
    AllUnlinked other (diagnostics.rebase base) :=
  List.forall_mem_map.mpr fun diagnostic hmem => (h diagnostic hmem).rebase

/-- Diagnostics of stages before the encoder, at places that are allowed. -/
def AllEarly (allowed : Span → Prop) (diagnostics : Diagnostics) : Prop :=
  ∀ diagnostic ∈ diagnostics, diagnostic.Early allowed

theorem allEarly_nil : AllEarly allowed [] := nofun

theorem AllEarly.append {diagnostics more : Diagnostics} (h : diagnostics.AllEarly allowed)
    (hmore : more.AllEarly allowed) : AllEarly allowed (diagnostics ++ more) :=
  List.forall_mem_append.mpr ⟨h, hmore⟩

theorem allEarly_singleton {diagnostic : Diagnostic} (h : diagnostic.Early allowed) :
    AllEarly allowed [diagnostic] := List.forall_mem_singleton.mpr h

theorem AllEarly.rebase {other : Span → Prop} {diagnostics : Diagnostics} {base : Location}
    (h : diagnostics.AllEarly fun span => other (span.rebase base)) :
    AllEarly other (diagnostics.rebase base) := by
  intro diagnostic hmem
  obtain ⟨original, horiginal, rfl⟩ := List.mem_map.mp hmem
  exact (h original horiginal).rebase

theorem allEarly_flatMap {α : Type} {items : List α} {step : α → Diagnostics}
    (h : ∀ item ∈ items, (step item).AllEarly allowed) : AllEarly allowed (items.flatMap step) := by
  intro diagnostic hmem
  obtain ⟨item, hitem, hmem⟩ := List.mem_flatMap.mp hmem
  exact h item hitem diagnostic hmem

end Diagnostics

/-- A step that says nothing but what a stage before the encoder may say, at places that are
allowed, with what is known of its answers. -/
abbrev Says (allowed : Span → Prop) {α : Type} (step : Reporting α) (P : α → Prop) : Prop :=
  Gives (Diagnostics.AllEarly allowed) step P

theorem Says.run {α : Type} {step : Reporting α} {P : α → Prop} (h : Says allowed step P) :
    P (step.run []).1 ∧ (step.run []).2.AllEarly allowed :=
  h.gives [] Diagnostics.allEarly_nil

theorem Reporting.report_early {diagnostic : Diagnostic} (h : diagnostic.Early allowed) :
    Says allowed (Reporting.report diagnostic) fun _ => True :=
  Gives.modify fun _ hstate => hstate.append (Diagnostics.allEarly_singleton h)

theorem NameProblem.report_early (problem : NameProblem) {span : Span} (hspan : allowed span) :
    Says allowed (problem.report span) fun _ => True :=
  Reporting.report_early (problem.early hspan)

theorem ExpressionProblem.report_early (problem : ExpressionProblem) {span : Span}
    (hspan : allowed span) : Says allowed (problem.report span) fun _ => True :=
  Reporting.report_early (problem.early _ hspan)

theorem OperandProblem.report_early (problem : OperandProblem) {span : Span}
    (hspan : allowed span) : Says allowed (problem.report span) fun _ => True :=
  Reporting.report_early (problem.early _ hspan)

theorem OperandProblem.refuse_early {α : Type} {P : Option α → Prop} (problem : OperandProblem)
    {span : Span} (hspan : allowed span) (h : P none) : Says allowed (problem.refuse span) P :=
  (problem.report_early hspan).map fun _ _ => h

end NovelAsm
