import Mathlib.Logic.Relation
import NovelAsm.Bytes

/-!
Equations between names. A rule says which value a name has where some names have theirs. What can
be derived by a rule, one value after another, is its least solution, if the rule has no answer
before all the names that it asks for have one. A name that leads into a circle has no value then.
-/

namespace NovelAsm

/-- The values that names have where some names have theirs. -/
abbrev NameRule (α : Type) := (Bytes → Option α) → Bytes → Option α

namespace NameRule

variable {α : Type} {rule : NameRule α} {names : Bytes → List Bytes}

/-- What can be derived by a rule, from what has been derived before. -/
inductive Derives (rule : NameRule α) : Bytes → α → Prop
  | step {env : Bytes → Option α} {name : Bytes} {value : α}
      (hknown : ∀ other found, env other = some found → Derives rule other found)
      (hvalue : rule env name = some value) : Derives rule name value

/-- Values of names that are those that a rule gives to them. -/
def Solves (rule : NameRule α) (env : Bytes → Option α) : Prop :=
  ∀ name, env name = rule env name

/-- The rule for a name asks for the values of some names: it has no answer before they have one,
and depends on nothing else. -/
structure Asks (rule : NameRule α) (names : Bytes → List Bytes) : Prop where
  strict : ∀ {env name value}, rule env name = some value →
    ∀ other ∈ names name, (env other).isSome
  congr : ∀ {env later name}, (∀ other ∈ names name, env other = later other) →
    rule env name = rule later name

/-- A name is asked for by the rule for another one. -/
def Refers (names : Bytes → List Bytes) (name other : Bytes) : Prop := other ∈ names name

section

variable (h : rule.Asks names)

include h

/-- An answer stays where more names get a value. -/
theorem Asks.mono {env later : Bytes → Option α}
    (hlater : ∀ name value, env name = some value → later name = some value) {name : Bytes}
    {value : α} (hvalue : rule env name = some value) : rule later name = some value := by
  rw [← hvalue]
  refine (h.congr fun other hother => ?_).symm
  obtain ⟨found, hfound⟩ := Option.isSome_iff_exists.mp (h.strict hvalue other hother)
  rw [hfound, hlater other found hfound]

theorem Derives.unique {name : Bytes} {value other : α} (hvalue : rule.Derives name value)
    (hother : rule.Derives name other) : value = other := by
  induction hvalue generalizing other with
  | @step env name value hknown hvalue ih =>
      obtain ⟨hfound, hother⟩ := hother
      rename_i later
      rw [h.congr fun asked hasked => ?_, hother] at hvalue
      · exact (Option.some.inj hvalue).symm
      · obtain ⟨first, hfirst⟩ := Option.isSome_iff_exists.mp (h.strict hvalue asked hasked)
        obtain ⟨second, hsecond⟩ := Option.isSome_iff_exists.mp (h.strict hother asked hasked)
        rw [hfirst, hsecond, ih asked first hfirst (hfound asked second hsecond)]

/-- The names that the rule asks for have been derived before. -/
theorem Derives.asked {name : Bytes} {value : α} (hvalue : rule.Derives name value) {other : Bytes}
    (hother : Refers names name other) : ∃ found, rule.Derives other found := by
  obtain ⟨hknown, hvalue⟩ := hvalue
  obtain ⟨found, hfound⟩ := Option.isSome_iff_exists.mp (h.strict hvalue other hother)
  exact ⟨found, hknown other found hfound⟩

theorem Derives.reached {name : Bytes} {value : α} (hvalue : rule.Derives name value)
    {other : Bytes} (hother : Relation.ReflTransGen (Refers names) name other) :
    ∃ found, rule.Derives other found := by
  induction hother with
  | refl => exact ⟨value, hvalue⟩
  | tail _ hlast ih =>
      obtain ⟨found, hfound⟩ := ih
      exact hfound.asked h hlast

/-- No derived name leads back to itself. -/
theorem Derives.not_circular {name : Bytes} {value : α} (hvalue : rule.Derives name value) :
    ¬ Relation.TransGen (Refers names) name name := by
  induction hvalue with
  | @step env name value hknown hvalue ih =>
      intro hcircle
      -- The circle passes through a name that was derived before.
      obtain ⟨other, hother, hback⟩ := Relation.TransGen.head'_iff.mp hcircle
      obtain ⟨found, hfound⟩ := Option.isSome_iff_exists.mp (h.strict hvalue other hother)
      exact ih other found hfound (Relation.TransGen.tail' hback hother)

/-- What leads into a circle is not derived. -/
theorem not_derives_of_circle {name other : Bytes}
    (hother : Relation.ReflTransGen (Refers names) name other)
    (hcircle : Relation.TransGen (Refers names) other other) (value : α) :
    ¬ rule.Derives name value := fun hvalue => by
  obtain ⟨found, hfound⟩ := hvalue.reached h hother
  exact hfound.not_circular h hcircle

end

open Classical in
/-- The values that can be derived. -/
noncomputable def least (rule : NameRule α) (name : Bytes) : Option α :=
  if h : ∃ value, rule.Derives name value then some h.choose else none

theorem derives_of_least {name : Bytes} {value : α} (h : rule.least name = some value) :
    rule.Derives name value := by
  rw [least] at h
  split at h
  · rename_i hexists
    cases h
    exact hexists.choose_spec
  · cases h

theorem Asks.least_eq_some_iff (h : rule.Asks names) {name : Bytes} {value : α} :
    rule.least name = some value ↔ rule.Derives name value := by
  refine ⟨derives_of_least, fun hvalue => ?_⟩
  have hexists : ∃ value, rule.Derives name value := ⟨value, hvalue⟩
  rw [least, dif_pos hexists]
  exact congrArg some (hexists.choose_spec.unique h hvalue)

/-- What can be derived is a solution. -/
theorem Asks.solves_least (h : rule.Asks names) : rule.Solves rule.least := by
  intro name
  refine Option.ext fun value => ?_
  rw [h.least_eq_some_iff]
  constructor
  · intro hvalue
    obtain ⟨hknown, hvalue⟩ := hvalue
    exact h.mono (fun other found hfound => h.least_eq_some_iff.mpr (hknown other found hfound))
      hvalue
  · exact fun hvalue => .step (fun _ _ => derives_of_least) hvalue

theorem Asks.least_eq_none (h : rule.Asks names) {name other : Bytes}
    (hother : Relation.ReflTransGen (Refers names) name other)
    (hcircle : Relation.TransGen (Refers names) other other) : rule.least name = none :=
  Option.eq_none_iff_forall_ne_some.mpr fun value hvalue =>
    not_derives_of_circle h hother hcircle value (derives_of_least hvalue)

/-- Values of names that are the least solution of a rule. -/
structure IsLeast (rule : NameRule α) (names : Bytes → List Bytes) (env : Bytes → Option α) :
    Prop where
  derived : ∀ name value, env name = some value ↔ rule.Derives name value
  solves : rule.Solves env
  asked : ∀ name value, env name = some value → ∀ other ∈ names name, (env other).isSome = true
  circular : ∀ name other, Relation.ReflTransGen (Refers names) name other →
    Relation.TransGen (Refers names) other other → env name = none

theorem Asks.isLeast (h : rule.Asks names) : rule.IsLeast names rule.least where
  derived _ _ := h.least_eq_some_iff
  solves := h.solves_least
  asked name _ hvalue := h.strict ((h.solves_least name).symm.trans hvalue)
  circular _ _ := h.least_eq_none

end NameRule

end NovelAsm
