import NovelAsm.Proofs.Silence

/-!
Steps that go the same way. Two steps may differ in the names that they handle and so in what they
complain of; but as long as the first one says nothing, the second one does what the first one does
and says nothing either. How much has been said is the size of a state.
-/

namespace NovelAsm

variable {σ α β γ δ : Type} {size : σ → Nat}

/-- The first step only ever says more. If it says nothing, the second one has the corresponding
result and leaves the same state. -/
def Follows (size : σ → Nat) (result : α → β) (step : StateM σ α) (other : StateM σ β) : Prop :=
  ∀ state, size state ≤ size (step state).2 ∧
    (size (step state).2 = size state → other state = (result (step state).1, (step state).2))

namespace Follows

theorem pure {result : α → β} {value : α} {other : β} (h : other = result value) :
    Follows size result (Pure.pure value) (Pure.pure other) := fun state =>
  ⟨le_rfl, fun _ => by rw [h]; rfl⟩

theorem bind {result : α → β} {step : StateM σ α} {other : StateM σ β} {outcome : γ → δ}
    {next : α → StateM σ γ} {nextOther : β → StateM σ δ} (h : Follows size result step other)
    (hnext : ∀ value, Follows size outcome (next value) (nextOther (result value))) :
    Follows size outcome (step >>= next) (other >>= nextOther) := by
  intro state
  obtain ⟨hmore, hother⟩ := h state
  obtain ⟨hlast, hbehind⟩ := hnext (step state).1 (step state).2
  change size state ≤ size (next (step state).1 (step state).2).2 ∧
    (size (next (step state).1 (step state).2).2 = size state →
      nextOther (other state).1 (other state).2 = _)
  refine ⟨hmore.trans hlast, fun hsame => ?_⟩
  rw [hother (by omega)]
  exact hbehind (by omega)

theorem map {result : α → β} {step : StateM σ α} {other : StateM σ β} {outcome : γ → δ}
    {change : α → γ} {changeOther : β → δ} (h : Follows size result step other)
    (hchange : ∀ value, changeOther (result value) = outcome (change value)) :
    Follows size outcome (step >>= fun value => Pure.pure (change value))
      (other >>= fun value => Pure.pure (changeOther value)) :=
  h.bind fun value => .pure (hchange value)

theorem ite {result : α → β} {condition twin : Prop} [Decidable condition] [Decidable twin]
    {step no : StateM σ α} {other otherNo : StateM σ β} (hcondition : twin ↔ condition)
    (h : Follows size result step other) (hno : Follows size result no otherNo) :
    Follows size result (if condition then step else no) (if twin then other else otherNo) := by
  by_cases hc : condition
  · rw [if_pos hc, if_pos (hcondition.mpr hc)]
    exact h
  · rw [if_neg hc, if_neg fun htwin => hc (hcondition.mp htwin)]
    exact hno

/-- Steps that look at the state. -/
theorem get {result : α → β} {next : σ → StateM σ α} {nextOther : σ → StateM σ β}
    (h : ∀ seen, Follows size result (next seen) (nextOther seen)) :
    Follows size result (MonadState.get >>= next) (MonadState.get >>= nextOther) :=
  fun state => h state state

/-- A step follows itself. -/
theorem refl {step : StateM σ α} (h : ∀ state, size state ≤ size (step state).2) :
    Follows size id step step := fun state => ⟨h state, fun _ => rfl⟩

/-- Nothing need be shown about a step that says something. -/
theorem behind {result : γ → δ} {step : StateM σ α} {next : α → StateM σ γ}
    {other : StateM σ δ} (h : ∀ state, size state < size (step state).2)
    (hnext : ∀ value state, size state ≤ size (next value state).2) :
    Follows size result (step >>= next) other := by
  intro state
  have hstep := h state
  have hbehind : size (step state).2 ≤ size ((step >>= next) state).2 :=
    hnext (step state).1 (step state).2
  exact ⟨by omega, fun hsame => by omega⟩

theorem mapM {result : α → β} {outcome : γ → δ} {step : α → StateM σ γ} {other : β → StateM σ δ}
    {items : List α} (h : ∀ item ∈ items, Follows size outcome (step item) (other (result item))) :
    Follows size (List.map outcome) (items.mapM step) ((items.map result).mapM other) := by
  induction items with
  | nil => exact .pure rfl
  | cons first rest ih =>
      obtain ⟨hfirst, hrest⟩ := List.forall_mem_cons.mp h
      rw [List.map_cons, List.mapM_cons, List.mapM_cons]
      exact hfirst.bind fun value => (ih hrest).map fun values => rfl

theorem foldlM {result : α → β} {outcome : γ → δ} {step : γ → α → StateM σ γ}
    {other : δ → β → StateM σ δ} {items : List α}
    (h : ∀ value, ∀ item ∈ items,
      Follows size outcome (step value item) (other (outcome value) (result item)))
    (value : γ) :
    Follows size outcome (items.foldlM step value)
      ((items.map result).foldlM other (outcome value)) := by
  induction items generalizing value with
  | nil => exact .pure rfl
  | cons first rest ih =>
      rw [List.map_cons, List.foldlM_cons, List.foldlM_cons]
      exact (h value first (List.mem_cons_self ..)).bind fun value =>
        ih (fun value item hitem => h value item (List.mem_cons_of_mem _ hitem)) value

end Follows

/-- A report in which nothing is said is followed by one in which nothing is said. -/
abbrev Repeats (result : α → β) (step : Reporting α) (other : Reporting β) : Prop :=
  Follows List.length result step other

namespace Repeats

theorem of_silently {step : Reporting α} {P : α → Prop} (h : Silently step P) :
    Repeats id step step :=
  Follows.refl fun start => (h start).1

theorem of_erases {result : α → β} {step : Reporting α} {other : Reporting β}
    (h : ∀ front, Erases (Diagnostics.bareBehind front) result step other) :
    Repeats id step step :=
  of_silently (Silently.of_erases h)

theorem behind_report {result : α → β} {next : PUnit → Reporting α} {other : Reporting β}
    {P : α → Prop} (diagnostic : Diagnostic) (h : Silently (next ⟨⟩) P) :
    Repeats result (Reporting.report diagnostic >>= next) other := by
  refine Follows.behind (fun state => ?_) fun _ state => (h state).1
  have hlength : (Reporting.report diagnostic state).2.length = state.length + 1 :=
    List.length_append
  omega

/-- A step behind another one, with what is known of the answer of that if it says nothing. -/
theorem bind_silently {γ δ : Type} {result : α → β} {step : Reporting α} {other : Reporting β}
    {outcome : γ → δ} {next : α → Reporting γ} {nextOther : β → Reporting δ} {P : α → Prop}
    (h : Repeats result step other) (hsilent : Silently step P)
    (hgrows : ∀ value, Silently (next value) fun _ => True)
    (hnext : ∀ value, P value → Repeats outcome (next value) (nextOther (result value))) :
    Repeats outcome (step >>= next) (other >>= nextOther) := by
  intro start
  obtain ⟨hmore, hother⟩ := h start
  obtain ⟨hlast, -⟩ := hgrows (step start).1 (step start).2
  change start.length ≤ (next (step start).1 (step start).2).2.length ∧
    ((next (step start).1 (step start).2).2.length = start.length →
      nextOther (other start).1 (other start).2 = _)
  refine ⟨hmore.trans hlast, fun hsame => ?_⟩
  have hstep : (step start).2.length = start.length := by omega
  have hrest : (next (step start).1 (step start).2).2.length = (step start).2.length := by omega
  rw [hother hstep]
  exact (hnext _ ((hsilent start).2 hstep) _).2 hrest

theorem refuse {result : Option α → β} {other : Reporting β} (problem : OperandProblem)
    (span : Span) : Repeats result (problem.refuse span) other :=
  @behind_report _ _ result _ other (fun _ => True) _ (Silently.pure trivial)

end Repeats

/-- A step that goes the same way as another one to an answer that is related to that of the other
one, where no function of the answer says what the other one is. -/
def Accompanies (size : σ → Nat) (R : α → β → Prop) (step : StateM σ α)
    (other : StateM σ β) : Prop :=
  ∀ state, size state ≤ size (step state).2 ∧
    (size (step state).2 = size state →
      R (step state).1 (other state).1 ∧ (other state).2 = (step state).2)

theorem Accompanies.pure {R : α → β → Prop} {value : α} {other : β} (h : R value other) :
    Accompanies size R (Pure.pure value) (Pure.pure other) := fun _ => ⟨le_rfl, fun _ => ⟨h, rfl⟩⟩

theorem Accompanies.bind {R : α → β → Prop} {step : StateM σ α} {other : StateM σ β}
    {Q : γ → δ → Prop} {next : α → StateM σ γ} {nextOther : β → StateM σ δ}
    (h : Accompanies size R step other)
    (hgrows : ∀ value state, size state ≤ size (next value state).2)
    (hnext : ∀ value twin, R value twin → Accompanies size Q (next value) (nextOther twin)) :
    Accompanies size Q (step >>= next) (other >>= nextOther) := by
  intro state
  obtain ⟨hmore, hother⟩ := h state
  have hlast := hgrows (step state).1 (step state).2
  change size state ≤ size (next (step state).1 (step state).2).2 ∧
    (size (next (step state).1 (step state).2).2 = size state →
      Q _ (nextOther (other state).1 (other state).2).1 ∧
        (nextOther (other state).1 (other state).2).2 = _)
  refine ⟨hmore.trans hlast, fun hsame => ?_⟩
  obtain ⟨hvalue, hstate⟩ := hother (by omega)
  rw [hstate]
  exact (hnext _ _ hvalue _).2 (by omega)

theorem Follows.accompanies {result : α → β} {step : StateM σ α} {other : StateM σ β}
    (h : Follows size result step other) :
    Accompanies size (fun value twin => twin = result value) step other := fun state =>
  ⟨(h state).1, fun hsame => by rw [(h state).2 hsame]; exact ⟨rfl, rfl⟩⟩

end NovelAsm
