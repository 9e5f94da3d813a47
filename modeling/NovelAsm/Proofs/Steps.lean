import Mathlib
import NovelAsm.Diagnostic

/-!
What steps answer that act on a state. `Ensures step P` says that every answer of a step
has a property, whatever the state was before, `Gives I step P` that a step keeps what holds of
its state, and its answers then have a property, `Honest I bad step P` that its answers have one
unless something is bad behind it, and `Relates R step other` that any answers of two steps are
related; the rules follow the way in which steps are put together.
-/

namespace NovelAsm

variable {σ α β : Type}

/-- A step whose answer is known goes on from the state behind it. -/
theorem bind_run {step : StateM σ α} {next : α → StateM σ β} {front middle : σ} {value : α}
    (h : step front = (value, middle)) : (step >>= next) front = next value middle := by
  change next (step front).1 (step front).2 = _
  rw [h]

/-- Every answer of a step has a property. -/
def Ensures (step : StateM σ α) (P : α → Prop) : Prop := ∀ state, P (step state).1

/-- If a step has a result, that has a property. -/
def Finds (step : StateM σ (Option α)) (P : α → Prop) : Prop :=
  Ensures step fun result => ∀ value, result = some value → P value

theorem Ensures.pure {P : α → Prop} {value : α} (h : P value) :
    Ensures (Pure.pure value : StateM σ α) P := fun _ => h

theorem Ensures.bind {step : StateM σ α} {next : α → StateM σ β} {P : α → Prop} {Q : β → Prop}
    (h : Ensures step P) (hnext : ∀ value, P value → Ensures (next value) Q) :
    Ensures (step >>= next) Q := fun state =>
  hnext (step state).1 (h state) (step state).2

theorem Ensures.mono {step : StateM σ α} {P Q : α → Prop} (h : Ensures step P)
    (himplies : ∀ value, P value → Q value) : Ensures step Q := fun state =>
  himplies _ (h state)

theorem Ensures.and {step : StateM σ α} {P Q : α → Prop} (h : Ensures step P)
    (hboth : Ensures step Q) : Ensures step fun value => P value ∧ Q value := fun state =>
  ⟨h state, hboth state⟩

theorem ensures_true (step : StateM σ α) : Ensures step fun _ => True := fun _ => trivial

/-- What comes behind a step whose answer does not matter. -/
theorem Ensures.behind {step : StateM σ α} {next : α → StateM σ β} {Q : β → Prop}
    (h : ∀ value, Ensures (next value) Q) : Ensures (step >>= next) Q :=
  (ensures_true step).bind fun value _ => h value

theorem finds_none {P : α → Prop} : Finds (Pure.pure none : StateM σ (Option α)) P :=
  Ensures.pure nofun

theorem finds_some {P : α → Prop} {value : α} (h : P value) :
    Finds (Pure.pure (some value) : StateM σ (Option α)) P :=
  Ensures.pure fun _ hvalue => Option.some.inj hvalue ▸ h

theorem finds_true (step : StateM σ (Option α)) : Finds step fun _ => True :=
  fun _ _ _ => trivial

theorem Finds.map {step : StateM σ (Option α)} {change : α → β} {P : α → Prop} {Q : β → Prop}
    (h : Finds step P) (hchange : ∀ value, P value → Q (change value)) :
    Finds (do return (← step).map change) Q :=
  Ensures.bind h fun result hresult => Ensures.pure fun value hvalue => by
    obtain ⟨found, rfl, rfl⟩ := Option.map_eq_some_iff.mp hvalue
    exact hchange found (hresult found rfl)

/-- A step keeps what holds of its state, and its answers then have a property. -/
structure Gives (I : σ → Prop) (step : StateM σ α) (P : α → Prop) : Prop where
  gives : ∀ state, I state → P (step state).1 ∧ I (step state).2

namespace Gives

variable {I : σ → Prop} {P : α → Prop} {Q : β → Prop}

theorem keeps {step : StateM σ α} (h : Gives I step P) (state : σ) (hstate : I state) :
    I (step state).2 := (h.gives state hstate).2

theorem pure {value : α} (h : P value) : Gives I (Pure.pure value) P :=
  ⟨fun _ hstate => ⟨h, hstate⟩⟩

theorem bind {step : StateM σ α} {next : α → StateM σ β} (h : Gives I step P)
    (hnext : ∀ value, P value → Gives I (next value) Q) : Gives I (step >>= next) Q := by
  refine ⟨fun state hstate => ?_⟩
  obtain ⟨hvalue, hbehind⟩ := h.gives state hstate
  exact (hnext _ hvalue).gives _ hbehind

/-- A result that is changed afterwards. -/
theorem map {step : StateM σ α} {change : α → β} (h : Gives I step P)
    (hchange : ∀ value, P value → Q (change value)) :
    Gives I (do return change (← step)) Q :=
  h.bind fun value hvalue => .pure (hchange value hvalue)

/-- A result, if there is one, that is changed afterwards. -/
theorem mapSome {step : StateM σ (Option α)} {change : α → β}
    (h : Gives I step fun result => ∀ value ∈ result, P value)
    (hchange : ∀ value, P value → Q (change value)) :
    Gives I (do return (← step).map change) fun result => ∀ value ∈ result, Q value := by
  refine h.map fun result hresult value hvalue => ?_
  obtain ⟨found, hfound, rfl⟩ := Option.map_eq_some_iff.mp hvalue
  exact hchange found (hresult found hfound)

theorem mono {step : StateM σ α} {Q : α → Prop} (h : Gives I step P)
    (himplies : ∀ value, P value → Q value) : Gives I step Q :=
  ⟨fun state hstate => ⟨himplies _ (h.gives state hstate).1, h.keeps state hstate⟩⟩

theorem modify {change : σ → σ} (h : ∀ state, I state → I (change state)) :
    Gives I (modify change : StateM σ PUnit) fun _ => True :=
  ⟨fun state hstate => ⟨trivial, h state hstate⟩⟩

theorem mapM {step : α → StateM σ β} (items : List α)
    (h : ∀ item ∈ items, Gives I (step item) Q) :
    Gives I (items.mapM step) fun results => ∀ result ∈ results, Q result := by
  induction items with
  | nil => exact .pure nofun
  | cons first rest ih =>
      obtain ⟨hfirst, hrest⟩ := List.forall_mem_cons.mp h
      rw [List.mapM_cons]
      exact hfirst.bind fun value hvalue => (ih hrest).map fun values hvalues =>
        List.forall_mem_cons.mpr ⟨hvalue, hvalues⟩

theorem foldlM {step : β → α → StateM σ β} (items : List α)
    (h : ∀ value, Q value → ∀ item ∈ items, Gives I (step value item) Q) {value : β}
    (hvalue : Q value) : Gives I (items.foldlM step value) Q := by
  induction items generalizing value with
  | nil => exact .pure hvalue
  | cons first rest ih =>
      rw [List.foldlM_cons]
      refine (h value hvalue first (List.mem_cons_self ..)).bind fun next hnext => ?_
      exact ih (fun value hvalue item hitem => h value hvalue item (List.mem_cons_of_mem _ hitem))
        hnext

end Gives

/-- A step keeps what holds of its state and what is bad about it, and its answers have a property
unless something is bad behind the step. -/
structure Honest (I bad : σ → Prop) (step : StateM σ α) (P : α → Prop) : Prop where
  keeps : ∀ state, I state → I (step state).2
  stays : ∀ state, I state → bad state → bad (step state).2
  answers : ∀ state, I state → P (step state).1 ∨ bad (step state).2

namespace Honest

variable {I bad : σ → Prop} {P : α → Prop} {Q : β → Prop}

theorem pure {value : α} (h : P value) : Honest I bad (Pure.pure value) P :=
  ⟨fun _ hstate => hstate, fun _ _ hbad => hbad, fun _ _ => .inl h⟩

/-- A step behind another one, with what is known of the answer of that as a premise. -/
theorem follow {step : StateM σ α} {next : α → StateM σ β} (h : Honest I bad step P)
    (hnext : ∀ value, Honest I bad (next value) fun result => P value → Q result) :
    Honest I bad (step >>= next) Q := by
  refine ⟨fun state hstate => ?_, fun state hstate hbad => ?_, fun state hstate => ?_⟩
  · exact (hnext _).keeps _ (h.keeps state hstate)
  · exact (hnext _).stays _ (h.keeps state hstate) (h.stays state hstate hbad)
  · rcases h.answers state hstate with hvalue | hbad
    · exact ((hnext _).answers _ (h.keeps state hstate)).imp_left fun hresult => hresult hvalue
    · exact .inr ((hnext _).stays _ (h.keeps state hstate) hbad)

theorem mono {step : StateM σ α} {Q : α → Prop} (h : Honest I bad step P)
    (himplies : ∀ value, P value → Q value) : Honest I bad step Q :=
  ⟨h.keeps, h.stays, fun state hstate => (h.answers state hstate).imp_left (himplies _)⟩

/-- What follows a change for the bad has nothing to show. -/
theorem behind_bad {change : σ → σ} {value : α}
    (h : ∀ state, I state → I (change state) ∧ bad (change state)) :
    Honest I bad (do modify change; return value) P :=
  ⟨fun state hstate => (h state hstate).1, fun state hstate _ => (h state hstate).2,
    fun state hstate => .inr (h state hstate).2⟩

theorem and_gives {J : σ → Prop} {step : StateM σ α} {Q : α → Prop} (h : Honest I bad step P)
    (hgives : Gives J step Q) :
    Honest (fun state => J state ∧ I state) bad step fun value => Q value ∧ P value where
  keeps state hstate := ⟨hgives.keeps state hstate.1, h.keeps state hstate.2⟩
  stays state hstate := h.stays state hstate.2
  answers state hstate := (h.answers state hstate.2).imp_left fun hvalue =>
    ⟨(hgives.gives state hstate.1).1, hvalue⟩

/-- A step for each item of a list. -/
theorem mapM {step : α → StateM σ β} (items : List α)
    (h : ∀ item ∈ items, Honest I bad (step item) Q) :
    Honest I bad (items.mapM step) fun results => ∀ result ∈ results, Q result := by
  induction items with
  | nil => exact .pure (List.forall_mem_nil _)
  | cons first rest ih =>
      obtain ⟨hfirst, hrest⟩ := List.forall_mem_cons.mp h
      rw [List.mapM_cons]
      exact hfirst.follow fun value => (ih hrest).follow fun others => .pure fun hothers hvalue =>
        List.forall_mem_cons.mpr ⟨hvalue, hothers⟩

/-- A step for each item of a list, on the answer of the one before. -/
theorem foldlM {step : β → α → StateM σ β} (items : List α)
    (h : ∀ value, ∀ item ∈ items, Honest I bad (step value item) fun _ => P item) (value : β) :
    Honest I bad (items.foldlM step value) fun _ => ∀ item ∈ items, P item := by
  induction items generalizing value with
  | nil => exact .pure (List.forall_mem_nil _)
  | cons first rest ih =>
      rw [List.foldlM_cons]
      refine (h value first (List.mem_cons_self ..)).follow fun next => ?_
      refine (ih (fun value item hitem => h value item (List.mem_cons_of_mem _ hitem)) next).mono ?_
      exact fun _ hrest hfirst => List.forall_mem_cons.mpr ⟨hfirst, hrest⟩

end Honest

/-- Any answers of two steps are related, whatever the states were before. -/
def Relates {τ : Type} (R : α → β → Prop) (step : StateM σ α) (other : StateM τ β) : Prop :=
  ∀ state start, R (step state).1 (other start).1

theorem Relates.pure {τ : Type} {R : α → β → Prop} {value : α} {other : β} (h : R value other) :
    Relates R (Pure.pure value : StateM σ α) (Pure.pure other : StateM τ β) := fun _ _ => h

theorem Relates.bind {τ γ δ : Type} {R : α → β → Prop} {Q : γ → δ → Prop} {step : StateM σ α}
    {other : StateM τ β} {next : α → StateM σ γ} {nextOther : β → StateM τ δ}
    (h : Relates R step other)
    (hnext : ∀ value found, R value found → Relates Q (next value) (nextOther found)) :
    Relates Q (step >>= next) (other >>= nextOther) := fun state start =>
  hnext (step state).1 (other start).1 (h state start) (step state).2 (other start).2

/-- What is related to every answer of the second step is related to any step. -/
theorem Ensures.relates {τ : Type} {R : α → β → Prop} {step : StateM σ α} {other : StateM τ β}
    (h : Ensures other fun found => ∀ value, R value found) : Relates R step other :=
  fun _ start => h start _

end NovelAsm
