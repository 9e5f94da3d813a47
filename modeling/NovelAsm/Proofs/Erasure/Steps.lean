import Mathlib
import NovelAsm.Diagnostic

/-!
Steps without places. Every stage of the assembler carries spans along for its messages and
never looks at them. `Erases` says this of a step: run on what is left of its input when the
places are taken away, it finds the same without the places. It is closed under the ways in
which steps are put together, so that a function is treated along its own text.
-/

namespace NovelAsm

@[simp] theorem Location.rebase_origin : Location.origin.rebase .origin = .origin := rfl

@[simp] theorem Span.rebase_origin : Span.origin.rebase .origin = .origin := rfl

@[simp] theorem Span.join_origin : Span.origin.join .origin = .origin := rfl

namespace Diagnostic

/-- A diagnostic without its places. -/
def bare (diagnostic : Diagnostic) : Diagnostic :=
  { diagnostic with
    span := .origin
    notes := diagnostic.notes.map fun note => { note with span := .origin } }

@[simp] theorem isError_bare (diagnostic : Diagnostic) :
    diagnostic.bare.isError = diagnostic.isError := rfl

@[simp] theorem bare_rebase (diagnostic : Diagnostic) (base : Location) :
    (diagnostic.rebase base).bare = diagnostic.bare := by
  simp [bare, rebase]

@[simp] theorem bare_error (code : String) (message : Bytes) (span : Span) :
    (error code message span).bare = error code message .origin := rfl

@[simp] theorem bare_withNote (diagnostic : Diagnostic) (span : Span) (message : Bytes) :
    (diagnostic.withNote span message).bare = diagnostic.bare.withNote .origin message := by
  simp [bare, withNote]

end Diagnostic

namespace Diagnostics

/-- Diagnostics without their places. -/
def bare (diagnostics : Diagnostics) : Diagnostics := diagnostics.map Diagnostic.bare

@[simp] theorem bare_nil : bare [] = [] := rfl

@[simp] theorem bare_append (diagnostics more : Diagnostics) :
    bare (diagnostics ++ more) = bare diagnostics ++ bare more := List.map_append

@[simp] theorem hasErrors_bare (diagnostics : Diagnostics) :
    (bare diagnostics).hasErrors = diagnostics.hasErrors := by
  simp only [hasErrors, bare, List.any_map]
  rfl

@[simp] theorem bare_rebase (diagnostics : Diagnostics) (base : Location) :
    bare (diagnostics.rebase base) = bare diagnostics := by
  simp [bare, rebase]

@[simp] theorem rebase_bare (diagnostics : Diagnostics) :
    (bare diagnostics).rebase .origin = bare diagnostics := by
  simp [bare, rebase, Diagnostic.bare, Diagnostic.rebase]

/-- Diagnostics without their places, behind others. -/
def bareBehind (front diagnostics : Diagnostics) : Diagnostics := front ++ bare diagnostics

end Diagnostics

variable {σ α β γ δ : Type}

/-- A step finds the same without places. -/
def Erases (state : σ → σ) (result : α → β) (step : StateM σ α) (other : StateM σ β) : Prop :=
  ∀ start, other (state start) = (result (step start).1, state (step start).2)

variable {state : σ → σ}

theorem Erases.pure {result : α → β} {value : α} {other : β} (h : other = result value) :
    Erases state result (Pure.pure value) (Pure.pure other) := fun start => by
  rw [h]
  rfl

theorem Erases.bind {result : α → β} {step : StateM σ α} {other : StateM σ β} {outcome : γ → δ}
    {next : α → StateM σ γ} {nextOther : β → StateM σ δ} (h : Erases state result step other)
    (hnext : ∀ value, Erases state outcome (next value) (nextOther (result value))) :
    Erases state outcome (step >>= next) (other >>= nextOther) := fun start => by
  change nextOther (other (state start)).1 (other (state start)).2 = _
  rw [h start]
  exact hnext (step start).1 (step start).2

theorem Erases.ite {result : α → β} {condition twin : Prop} [Decidable condition]
    [Decidable twin] {step no : StateM σ α} {other otherNo : StateM σ β}
    (hcondition : twin ↔ condition)
    (h : condition → Erases state result step other)
    (hno : ¬ condition → Erases state result no otherNo) :
    Erases state result (if condition then step else no) (if twin then other else otherNo) := by
  by_cases hc : condition
  · rw [if_pos hc, if_pos (hcondition.mpr hc)]
    exact h hc
  · rw [if_neg hc, if_neg fun htwin => hc (hcondition.mp htwin)]
    exact hno hc

/-- A result that is changed afterwards. -/
theorem Erases.map {result : α → β} {step : StateM σ α} {other : StateM σ β} {outcome : γ → δ}
    {change : α → γ} {changeOther : β → δ} (h : Erases state result step other)
    (hchange : ∀ value, changeOther (result value) = outcome (change value)) :
    Erases state outcome (step >>= fun value => Pure.pure (change value))
      (other >>= fun value => Pure.pure (changeOther value)) :=
  h.bind fun value => Erases.pure (hchange value)

theorem Erases.get : Erases state state (get : StateM σ σ) get := fun _ => rfl

theorem Erases.modify {change other : σ → σ}
    (h : ∀ start, other (state start) = state (change start)) :
    Erases state id (modify change) (modify other) := fun start => by
  change (PUnit.unit, other (state start)) = _
  rw [h]
  rfl

theorem Erases.mapM {result : α → β} {outcome : γ → δ} {step : α → StateM σ γ}
    {other : β → StateM σ δ} {items : List α}
    (h : ∀ item ∈ items, Erases state outcome (step item) (other (result item))) :
    Erases state (List.map outcome) (items.mapM step) ((items.map result).mapM other) := by
  induction items with
  | nil => exact Erases.pure rfl
  | cons first rest ih =>
      rw [List.map_cons, List.mapM_cons, List.mapM_cons]
      refine (h first (List.mem_cons_self ..)).bind fun value => ?_
      exact (ih fun item hitem => h item (List.mem_cons_of_mem _ hitem)).map fun values => rfl

theorem Erases.foldlM {result : α → β} {outcome : γ → δ} {step : γ → α → StateM σ γ}
    {other : δ → β → StateM σ δ}
    (h : ∀ value item, Erases state outcome (step value item) (other (outcome value) (result item)))
    (items : List α) (value : γ) :
    Erases state outcome (items.foldlM step value)
      ((items.map result).foldlM other (outcome value)) := by
  induction items generalizing value with
  | nil => exact Erases.pure rfl
  | cons first rest ih =>
      rw [List.map_cons, List.foldlM_cons, List.foldlM_cons]
      exact (h value first).bind fun value => ih value

namespace Reporting

variable {front : Diagnostics}

theorem report_erases (diagnostic : Diagnostic) :
    Erases (Diagnostics.bareBehind front) id (Reporting.report diagnostic)
      (Reporting.report diagnostic.bare) :=
  Erases.modify fun start => by simp [Diagnostics.bareBehind, Diagnostics.bare]

end Reporting

end NovelAsm
