import NovelAsm.CodeUnit.Problem
import NovelAsm.Proofs.Erasure.Steps
import NovelAsm.Proofs.Steps

/-!
Steps that say nothing. `Silently` says what holds of an answer if nothing was reported on the
way to it; the rules follow the way in which steps are put together.
-/

namespace NovelAsm

/-- A step only adds to the diagnostics, and if it adds none, its answer has a property. -/
def Silently {α : Type} (step : Reporting α) (P : α → Prop) : Prop :=
  ∀ start, start.length ≤ (step start).2.length ∧
    ((step start).2.length = start.length → P (step start).1)

/-- At least so many things were said. -/
def SaidAtLeast (count : Nat) (diagnostics : Diagnostics) : Prop := count ≤ diagnostics.length

/-- More things were said. -/
def SaidMore (count : Nat) (diagnostics : Diagnostics) : Prop := count < diagnostics.length

namespace Silently

variable {α β : Type}

/-- What is said counts as bad, however much was said before. -/
theorem of_honest {step : Reporting α} {P : α → Prop}
    (h : ∀ count, Honest (SaidAtLeast count) (SaidMore count) step P) : Silently step P := by
  intro start
  have hstep := h start.length
  constructor
  · exact hstep.keeps start (Nat.le_refl _)
  · intro hsame
    have hquiet : ¬ SaidMore start.length (step start).2 := by
      unfold SaidMore
      omega
    exact (hstep.answers start (Nat.le_refl _)).resolve_right hquiet

theorem honest {step : Reporting α} {P : α → Prop} (h : Silently step P) (count : Nat) :
    Honest (SaidAtLeast count) (SaidMore count) step P := by
  unfold SaidAtLeast SaidMore
  constructor
  · intro state hstate
    have hmore := (h state).1
    omega
  · intro state _ hbad
    have hmore := (h state).1
    omega
  · intro state hstate
    by_cases hsame : (step state).2.length = state.length
    · exact .inl ((h state).2 hsame)
    · have hmore := (h state).1
      exact .inr (by omega)

theorem pure {P : α → Prop} {value : α} (h : P value) :
    Silently (Pure.pure value) P := fun _ => ⟨le_rfl, fun _ => h⟩

theorem bind {step : Reporting α} {next : α → Reporting β} {P : α → Prop} {Q : β → Prop}
    (h : Silently step P) (hgrows : ∀ value, Silently (next value) fun _ => True)
    (hnext : ∀ value, P value → Silently (next value) Q) : Silently (step >>= next) Q := by
  intro start
  obtain ⟨hmore, hvalue⟩ := h start
  obtain ⟨hlast, -⟩ := hgrows (step start).1 (step start).2
  refine ⟨hmore.trans hlast, fun hsame => ?_⟩
  have hend : (next (step start).1 (step start).2).2.length = start.length := hsame
  exact (hnext _ (hvalue (by omega)) (step start).2).2 (by omega)

/-- A step behind another one, with what is known of the answer of that as a premise. -/
theorem follow {step : Reporting α} {next : α → Reporting β} {P : α → Prop} {Q : β → Prop}
    (h : Silently step P)
    (hnext : ∀ value, Silently (next value) fun result => P value → Q result) :
    Silently (step >>= next) Q := by
  intro start
  obtain ⟨hmore, hvalue⟩ := h start
  obtain ⟨hlast, hresult⟩ := hnext (step start).1 (step start).2
  refine ⟨hmore.trans hlast, fun hsame => ?_⟩
  have hend : (next (step start).1 (step start).2).2.length = start.length := hsame
  exact hresult (by omega) (hvalue (by omega))

theorem report {P : PUnit → Prop} (diagnostic : Diagnostic) :
    Silently (Reporting.report diagnostic) P := by
  intro start
  have hlength : (Reporting.report diagnostic start).2.length = start.length + 1 :=
    List.length_append
  exact ⟨by omega, fun hsame => by omega⟩

/-- What follows a report has nothing to show. -/
theorem behind_report {next : PUnit → Reporting α} {P Q : α → Prop} (diagnostic : Diagnostic)
    (h : Silently (next ⟨⟩) P) : Silently (Reporting.report diagnostic >>= next) Q :=
  (report (P := fun _ => False) diagnostic).follow fun _ start =>
    ⟨(h start).1, fun _ => False.elim⟩

theorem refuse {P : Option α → Prop} (problem : OperandProblem) (span : Span) :
    Silently (problem.refuse span) P :=
  (report (P := fun _ => False) _).bind (fun _ => pure trivial) fun _ => False.elim

theorem mono {step : Reporting α} {P Q : α → Prop} (h : Silently step P)
    (himplies : ∀ value, P value → Q value) : Silently step Q := fun start =>
  ⟨(h start).1, fun hsame => himplies _ ((h start).2 hsame)⟩

theorem and {step : Reporting α} {P Q : α → Prop} (h : Silently step P) (hall : Ensures step Q) :
    Silently step fun value => P value ∧ Q value := fun start =>
  ⟨(h start).1, fun hsame => ⟨(h start).2 hsame, hall start⟩⟩

/-- A step that finds the same without places adds as many diagnostics behind any others. -/
theorem of_erases {result : α → β} {step : Reporting α} {other : Reporting β}
    (h : ∀ front, Erases (Diagnostics.bareBehind front) result step other) :
    Silently step fun _ => True := by
  intro start
  have hstart : other (Diagnostics.bare start ++ []) = _ := h (Diagnostics.bare start) []
  have hbare : other (Diagnostics.bare start) = _ := h [] start
  rw [List.append_nil, hbare] at hstart
  have hlength := congrArg (fun run => List.length run.2) hstart
  simp only [Diagnostics.bareBehind, Diagnostics.bare, List.nil_append, List.length_map,
    List.length_append] at hlength
  exact ⟨by omega, fun _ => trivial⟩

/-- A step for each item of a list. -/
theorem mapM {step : α → Reporting β} {P : β → Prop} (items : List α)
    (h : ∀ item ∈ items, Silently (step item) P) :
    Silently (items.mapM step) fun results => ∀ result ∈ results, P result := by
  induction items with
  | nil => exact .pure fun _ hmem => by cases hmem
  | cons first rest ih =>
      obtain ⟨hfirst, hrest⟩ := List.forall_mem_cons.mp h
      rw [List.mapM_cons]
      exact hfirst.follow fun value => (ih hrest).follow fun others => .pure fun hothers hvalue =>
        List.forall_mem_cons.mpr ⟨hvalue, hothers⟩

/-- Steps that only have to add to the diagnostics. -/
theorem foldlM {step : β → α → Reporting β}
    (h : ∀ value item, Silently (step value item) fun _ => True) (items : List α) (value : β) :
    Silently (items.foldlM step value) fun _ => True := by
  induction items generalizing value with
  | nil => exact .pure trivial
  | cons first rest ih =>
      rw [List.foldlM_cons]
      exact (h value first).follow fun next => (ih next).mono fun _ _ _ => trivial

end Silently

end NovelAsm
