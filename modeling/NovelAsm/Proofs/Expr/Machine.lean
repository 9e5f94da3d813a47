import Mathlib
import NovelAsm.Proofs.Expr.Arithmetic
import NovelAsm.Proofs.Expr.Heights

/-!
What the terms of an expression do on the machine. An operator takes the topmost values of
the stack as the assembler takes constants, and the machine stops where it has no value for
them.

Terms that leave one value, as all computed ones do, leave it on any stack and do not look
below it (`run?_toTerms`). So a computation has a value of its own, and an operator applied
to computations has the value of the operator on theirs, whether it was folded or not
(`apply_valueIn`).
-/

namespace NovelAsm

open Reporting

/-- The value of an operator on some operands, if it has one. -/
def Operator.value? (operator : Operator) (operands : List Int32) : Option Int32 :=
  match operator.fold? operands with
  | some (.ok value) => some value
  | _ => none

/-- What a number reads when the registers hold some values. -/
def Number.valueIn (registers : Register → Int32) : Number → Int32
  | .constant value => value
  | .register source => registers source

namespace Term

variable {registers : Register → Int32}

/-- What a term makes of a stack, whose topmost value is the first of the list. An operator
takes its operands in the order in which they were pushed. Nothing if there are too few of
them, or if the operator has no value for them. -/
def step? (registers : Register → Int32) (stack : List Int32) : Term → Option (List Int32)
  | .push number => some (number.valueIn registers :: stack)
  | .apply operator =>
      if stack.length < operator.arity then none
      else
        (operator.value? (stack.take operator.arity).reverse).map fun value =>
          value :: stack.drop operator.arity

/-- What terms make of a stack, one after another. -/
def run? (registers : Register → Int32) (stack : List Int32) (terms : List Term) :
    Option (List Int32) :=
  terms.foldlM (step? registers) stack

theorem run?_cons (stack : List Int32) (first : Term) (rest : List Term) :
    run? registers stack (first :: rest) =
      (step? registers stack first).bind fun behind => run? registers behind rest := rfl

theorem run?_append (stack : List Int32) (terms more : List Term) :
    run? registers stack (terms ++ more) =
      (run? registers stack terms).bind fun behind => run? registers behind more :=
  List.foldlM_append

/-- An operator does not look below its operands. -/
theorem step?_append {front : List Int32} {operator : Operator}
    (h : operator.arity ≤ front.length) (stack : List Int32) :
    step? registers (front ++ stack) (.apply operator) =
      (step? registers front (.apply operator)).map (· ++ stack) := by
  have hfront : ¬ front.length < operator.arity := by omega
  have hall : ¬ (front ++ stack).length < operator.arity := by
    rw [List.length_append]
    omega
  simp only [step?, if_neg hfront, if_neg hall, List.take_append_of_le_length h,
    List.drop_append_of_le_length h, Option.map_map]
  rfl

theorem length_step? {stack behind : List Int32} {operator : Operator}
    (h : step? registers stack (.apply operator) = some behind) :
    operator.arity ≤ stack.length ∧ behind.length = stack.length - operator.arity + 1 := by
  simp only [step?] at h
  split at h
  · contradiction
  · rename_i henough
    obtain ⟨value, _, rfl⟩ := Option.map_eq_some_iff.mp h
    rw [List.length_cons, List.length_drop]
    omega

/-- The height of the stack behind some terms, if they finish. -/
theorem length_run? {stack behind : List Int32} {terms : List Term}
    (h : run? registers stack terms = some behind) :
    heightAfter? stack.length terms = some behind.length := by
  induction terms generalizing stack with
  | nil =>
      cases h
      rfl
  | cons first rest ih =>
      cases first with
      | push number => exact @ih (number.valueIn registers :: stack) h
      | apply operator =>
          rw [run?_cons] at h
          obtain ⟨between, hstep, hrest⟩ := Option.bind_eq_some_iff.mp h
          obtain ⟨henough, hlength⟩ := length_step? hstep
          have hrest := ih hrest
          rw [hlength] at hrest
          simpa only [heightAfter?, if_neg (Nat.not_lt.mpr henough)] using hrest

/-- Terms that find enough values do not look below them. -/
theorem run?_append_stack (front : List Int32) {terms : List Term} {height : Nat}
    (h : heightAfter? front.length terms = some height) (stack : List Int32) :
    run? registers (front ++ stack) terms = (run? registers front terms).map (· ++ stack) := by
  induction terms generalizing front with
  | nil => rfl
  | cons first rest ih =>
      cases first with
      | push number => exact ih (number.valueIn registers :: front) h
      | apply operator =>
          simp only [heightAfter?] at h
          split at h
          · contradiction
          · rename_i henough
            rw [run?_cons, run?_cons, step?_append (by omega)]
            cases hstep : step? registers front (.apply operator) with
            | none => rfl
            | some behind =>
                rw [← (length_step? hstep).2] at h
                exact ih behind h

/-- Terms that leave one value leave the same one on any stack. -/
theorem run?_of_leaves {terms : List Term} (h : Leaves terms) (stack : List Int32) :
    run? registers stack terms =
      ((run? registers [] terms).bind List.head?).map fun value => value :: stack := by
  have hframe : run? registers ([] ++ stack) terms = _ := run?_append_stack [] (h 0) stack
  rw [List.nil_append] at hframe
  rw [hframe]
  cases hrun : run? registers [] terms with
  | none => rfl
  | some behind =>
      have hlength : behind.length = 1 := by
        have hheight := length_run? hrun
        rw [List.length_nil, h 0] at hheight
        exact (Option.some.inj hheight).symm
      obtain ⟨value, rfl⟩ := List.length_eq_one_iff.mp hlength
      rfl

/-- An operator on top of its operands leaves its value in their place. -/
theorem step?_operands {operator : Operator} {values : List Int32}
    (harity : operator.arity = values.length) (stack : List Int32) :
    step? registers (values.reverse ++ stack) (.apply operator) =
      (operator.value? values).map fun value => value :: stack := by
  have hlength : operator.arity = values.reverse.length := by simpa using harity
  have henough : ¬ (values.reverse ++ stack).length < operator.arity := by
    rw [List.length_append]
    omega
  have htaken : ((values.reverse ++ stack).take operator.arity).reverse = values := by
    rw [hlength, List.take_left, List.reverse_reverse]
  have hleft : (values.reverse ++ stack).drop operator.arity = stack := by
    rw [hlength, List.drop_left]
  simp only [step?, if_neg henough, htaken, hleft]

end Term

namespace Operator

/-- A real is an integer times the scale, as a constant and on the machine. -/
theorem value?_scale (value : Int32) :
    Operator.multiply.value? [value, Int32.ofInt scale] = fit? (value.toInt * scale) := by
  have hscale : (Int32.ofInt scale).toInt = scale := by decide
  simp only [value?, fold?_eq, fault?, exactValue?, hscale, Option.map_some]
  cases fit? (value.toInt * scale) with
  | none => rfl
  | some scaled => rfl

end Operator

/-- Two terms that multiply the topmost value by the scale. -/
theorem Term.run?_scale {registers : Register → Int32} (value : Int32) (stack : List Int32) :
    run? registers (value :: stack)
        [.push (.constant (Int32.ofInt Operator.scale)), .apply .multiply] =
      (Operator.fit? (value.toInt * Operator.scale)).map fun scaled => scaled :: stack := by
  have hstep : step? registers ([value, Int32.ofInt Operator.scale].reverse ++ stack)
      (.apply .multiply) = _ := step?_operands rfl stack
  rw [Operator.value?_scale] at hstep
  calc run? registers (value :: stack)
        [.push (.constant (Int32.ofInt Operator.scale)), .apply .multiply]
      = (step? registers ([value, Int32.ofInt Operator.scale].reverse ++ stack)
          (.apply .multiply)).bind some := rfl
    _ = _ := by rw [hstep, Option.bind_fun_some]

namespace Computation

variable {registers : Register → Int32}

/-- The value that a computation leaves on the stack, if it finishes. -/
def valueIn (registers : Register → Int32) (computation : Computation) : Option Int32 :=
  (Term.run? registers [] computation.toTerms).bind List.head?

/-- The terms of a computation leave its value on any stack. -/
theorem run?_toTerms {computation : Computation} (h : computation.Sound)
    (hvalid : computation.isValid = true) (stack : List Int32) :
    Term.run? registers stack computation.toTerms =
      (computation.valueIn registers).map fun value => value :: stack :=
  Term.run?_of_leaves (leaves_toTerms h hvalid) stack

/-- Nothing is asked of an outcome that is not valid. -/
theorem ensures_invalid {P : Computation → Prop} (kind : ValueKind) (span : Span) :
    Ensures (pure ⟨kind, .invalid, span⟩ : Reporting Computation) fun result =>
      result.isValid = true → P result :=
  Ensures.pure fun h => by cases h

theorem valueIn_constant (kind : ValueKind) (value : Int32) (span : Span) :
    valueIn registers ⟨kind, .constant value, span⟩ = some value := rfl

/-- Operands leave their values, the last one on top. -/
theorem run?_flatMap_toTerms {operands : List Computation}
    (h : ∀ operand ∈ operands, operand.Sound)
    (hvalid : ∀ operand ∈ operands, operand.isValid = true) (stack : List Int32) :
    Term.run? registers stack (operands.flatMap toTerms) =
      (operands.mapM (valueIn registers)).map fun values => values.reverse ++ stack := by
  induction operands generalizing stack with
  | nil => rfl
  | cons first rest ih =>
      have hrest (stack : List Int32) :=
        ih (fun operand hoperand => h operand (List.mem_cons_of_mem _ hoperand))
          (fun operand hoperand => hvalid operand (List.mem_cons_of_mem _ hoperand)) stack
      rw [List.flatMap_cons, Term.run?_append,
        run?_toTerms (h first (List.mem_cons_self ..)) (hvalid first (List.mem_cons_self ..)),
        List.mapM_cons]
      cases first.valueIn registers with
      | none => rfl
      | some value =>
          simp only [Option.map_some, Option.bind_some, hrest, Option.bind_eq_bind]
          cases rest.mapM (valueIn registers) with
          | none => rfl
          | some values => simp

theorem constant?_eq_some {computation : Computation} {value : Int32} :
    computation.constant? = some value ↔ computation.outcome = .constant value := by
  obtain ⟨kind, outcome, span⟩ := computation
  cases outcome <;> simp [constant?]

theorem mapM_valueIn_of_constants {operands : List Computation} {values : List Int32}
    (h : operands.mapM constant? = some values) :
    operands.mapM (valueIn registers) = some values := by
  induction operands generalizing values with
  | nil => exact h
  | cons first rest ih =>
      simp only [List.mapM_cons, Option.bind_eq_bind, Option.bind_eq_some_iff] at h ⊢
      obtain ⟨value, hvalue, others, hothers, heq⟩ := h
      refine ⟨value, ?_, others, ih hothers, heq⟩
      rw [constant?_eq_some] at hvalue
      rw [valueIn, toTerms, hvalue]
      rfl

theorem length_mapM_valueIn {operands : List Computation} {values : List Int32}
    (h : operands.mapM (valueIn registers) = some values) :
    values.length = operands.length := by
  induction operands generalizing values with
  | nil =>
      cases h
      rfl
  | cons first rest ih =>
      simp only [List.mapM_cons, Option.bind_eq_bind, Option.bind_eq_some_iff] at h
      obtain ⟨value, _, others, hothers, heq⟩ := h
      cases heq
      rw [List.length_cons, List.length_cons, ih hothers]

/-- An operator behind its operands has its value on theirs. -/
theorem valueIn_operands {operator : Operator} {operands : List Computation}
    (h : ∀ operand ∈ operands, operand.Sound)
    (hvalid : ∀ operand ∈ operands, operand.isValid = true)
    (harity : operator.arity = operands.length) (kind : ValueKind) (span : Span) :
    valueIn registers ⟨kind, .terms (operands.flatMap toTerms ++ [.apply operator]), span⟩ =
      (operands.mapM (valueIn registers)).bind operator.value? := by
  rw [valueIn, toTerms, Term.run?_append, run?_flatMap_toTerms h hvalid]
  cases hvalues : operands.mapM (valueIn registers) with
  | none => rfl
  | some values =>
      have hlength : operator.arity = values.length :=
        harity.trans (length_mapM_valueIn hvalues).symm
      rw [Option.map_some, Option.bind_some, Term.run?_cons, Term.step?_operands hlength,
        Option.bind_some]
      cases operator.value? values with
      | none => rfl
      | some value => rfl

/-- A value that is made a real by two more terms. -/
theorem valueIn_scaled {kind other : ValueKind} {terms : List Term} {span place : Span}
    (h : Term.Leaves terms) :
    valueIn registers ⟨kind, .terms (terms ++
        [.push (.constant (Int32.ofInt Operator.scale)), .apply .multiply]), span⟩ =
      (valueIn registers ⟨other, .terms terms, place⟩).bind fun value =>
        Operator.fit? (value.toInt * Operator.scale) := by
  simp only [valueIn, toTerms]
  rw [Term.run?_append, Term.run?_of_leaves h]
  cases (Term.run? registers [] terms).bind List.head? with
  | none => rfl
  | some value =>
      rw [Option.map_some, Option.bind_some, Term.run?_scale, Option.bind_some]
      cases hfit : Operator.fit? (value.toInt * Operator.scale) with
      | none => exact hfit.symm
      | some scaled => exact hfit.symm

/-- An operator that is applied has its value on the values of its operands. -/
theorem apply_valueIn (registers : Register → Int32) {operator : Operator}
    {operands : List Computation} {kind : ValueKind} {span : Span}
    (h : ∀ operand ∈ operands, operand.Sound) (harity : operator.arity = operands.length) :
    Ensures (apply operator operands kind span) fun result =>
      result.isValid = true →
        result.kind = kind ∧
          result.valueIn registers =
            (operands.mapM (valueIn registers)).bind operator.value? := by
  simp only [apply]
  split
  · exact ensures_invalid .integer span
  · rename_i hvalid
    have hvalid : ∀ operand ∈ operands, operand.isValid = true := by
      simpa using hvalid
    split
    · rename_i value hfold
      obtain ⟨values, hvalues, hvalue⟩ := Option.bind_eq_some_iff.mp hfold
      refine Ensures.pure fun _ => ⟨rfl, ?_⟩
      rw [valueIn_constant, mapM_valueIn_of_constants hvalues, Option.bind_some, Operator.value?,
        hvalue]
    · exact Ensures.behind fun _ => ensures_invalid kind span
    · exact Ensures.pure fun _ => ⟨rfl, valueIn_operands h hvalid harity kind span⟩

theorem promote_constant (value : Int32) (span : Span) :
    promote ⟨.integer, .constant value, span⟩ =
      match Operator.fit? (value.toInt * Operator.scale) with
      | some scaled => pure ⟨.real, .constant scaled, span⟩
      | none => do
          ExpressionProblem.promotionOverflow.report span
          return invalid span := rfl

theorem promote_terms (terms : List Term) (span : Span) :
    promote ⟨.integer, .terms terms, span⟩ =
      pure ⟨.real, .terms (terms ++ [.push (.constant (Int32.ofInt Operator.scale)),
        .apply .multiply]), span⟩ := rfl

end Computation

end NovelAsm
