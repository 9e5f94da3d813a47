import NovelAsm.Proofs.Expr.Arithmetic
import NovelAsm.Proofs.Expr.Evaluation

/-!
Folding is exact. `Expr.trace` computes an expression as `Expr.compute` does, and keeps a record of
each call of the folder: the constants that an operator was applied to, what came of them and what
was reported. Of every such call (`Expr.trace_exact`) the value is the exact one, or there is none
and exactly one report of an overflow; a divisor is never zero, and a machine that computes the
value in words of 64 bits never leaves them.
-/

namespace NovelAsm

open Reporting

/-- A call of the folder: the constants that an operator is applied to, what they come to, and what
is reported meanwhile. -/
structure FoldCall where
  operator : Operator
  values : List Int32
  answer : Option Int32
  reports : Diagnostics

namespace FoldCall

/-- There is no answer, and one overflow is reported. -/
def IsRefused (call : FoldCall) : Prop :=
  call.answer = none ∧ ∃ message span, call.reports = [.error "SASM-E2305" message span]

/-- An operator has an exact value, which words of 64 bits lead to. -/
def HasValue (call : FoldCall) (value : Int) : Prop :=
  call.operator.exactValue? call.values = some value ∧
    call.operator.wordValue? call.values = some value

/-- A call divides by no zero. The constants have an exact value, which is the answer if it fits
32 bits and is refused if not; a shift by less than no bits or more than 31 is refused at once. -/
structure IsExact (call : FoldCall) : Prop where
  divisor : call.operator.isDivision = true → ∃ left right, call.values = [left, right] ∧ right ≠ 0
  outcome :
    (∃ value, call.HasValue value ∧ -0x80000000 ≤ value ∧ value ≤ 0x7fffffff ∧
      call.answer = some (Int32.ofInt value) ∧ call.reports = []) ∨
    (∃ value, call.HasValue value ∧ (value < -0x80000000 ∨ 0x7fffffff < value) ∧
      call.IsRefused) ∨
    (∃ left count, call.operator ∈ [.shiftLeft, .shiftRight] ∧ call.values = [left, count] ∧
      (count.toInt < 0 ∨ 31 < count.toInt) ∧ call.IsRefused)

end FoldCall

namespace Computation

/-- The constants that are folded: those of all operands, unless only the machine computes the
operator. -/
def folded? (operator : Operator) (operands : List Computation) : Option (List Int32) :=
  if operator.isTrigonometric then none else operands.mapM constant?

/-- An operator takes as many operands as there are, and none of them is a constant divisor that
is zero. -/
def IsSafe (operator : Operator) (operands : List Computation) : Prop :=
  operands.length = operator.arity ∧
    ∀ left right, operands = [left, right] → operator.isDivision = true → right.constant? ≠ some 0

end Computation

/-- A step that keeps a record of the calls of the folder. -/
abbrev Traced := StateM (Diagnostics × List FoldCall)

namespace Traced

/-- A step without such calls. -/
def lift {α : Type} (step : Reporting α) : Traced α := fun (diagnostics, calls) =>
  let (value, behind) := step diagnostics
  (value, behind, calls)

instance : MonadLift Reporting Traced := ⟨lift⟩

/-- Applies an operator and records the call, if its operands are folded. -/
def apply (operator : Operator) (operands : List Computation) (kind : ValueKind) (span : Span) :
    Traced Computation := fun (diagnostics, calls) =>
  let (computation, behind) := Computation.apply operator operands kind span diagnostics
  let call := (Computation.folded? operator operands).map fun values =>
    ⟨operator, values, computation.constant?, behind.drop diagnostics.length⟩
  (computation, behind, calls ++ call.toList)

instance : Computation.Applying Traced := ⟨apply⟩

end Traced

/-- Computes an expression with a record of all calls of the folder. -/
def Expr.trace (expr : Expr) : Traced Computation := expr.computeIn

namespace Traced

variable {α β : Type}

/-- A step does what another one does, and its calls of the folder are exact. -/
def Traces (step : Traced α) (plain : Reporting α) : Prop :=
  ∀ diagnostics calls, ∃ made : List FoldCall, step (diagnostics, calls) =
    ((plain diagnostics).1, (plain diagnostics).2, calls ++ made) ∧ ∀ call ∈ made, call.IsExact

theorem traces_lift (step : Reporting α) : Traces (lift step) step := fun _ calls =>
  ⟨[], by rw [List.append_nil]; rfl, nofun⟩

theorem Traces.bind {step : Traced α} {plain : Reporting α} {next : α → Traced β}
    {plainNext : α → Reporting β} (h : Traces step plain)
    (hnext : ∀ value, Traces (next value) (plainNext value)) :
    Traces (step >>= next) (plain >>= plainNext) := by
  intro diagnostics calls
  obtain ⟨first, hstep, hfirst⟩ := h diagnostics calls
  obtain ⟨second, hbehind, hsecond⟩ := hnext (plain diagnostics).1 (plain diagnostics).2
    (calls ++ first)
  refine ⟨first ++ second, ?_, List.forall_mem_append.mpr ⟨hfirst, hsecond⟩⟩
  change (let (value, state) := step (diagnostics, calls); next value state) = _
  rw [hstep, ← List.append_assoc]
  exact hbehind

theorem traces_pure (value : α) : Traces (Pure.pure value) (Pure.pure value) :=
  traces_lift (Pure.pure value)

theorem Traces.ite {condition : Prop} [Decidable condition] {step other : Traced α}
    {plain otherPlain : Reporting α} (h : condition → Traces step plain)
    (hother : ¬ condition → Traces other otherPlain) :
    Traces (if condition then step else other) (if condition then plain else otherPlain) := by
  split
  · rename_i hcondition
    exact h hcondition
  · rename_i hcondition
    exact hother hcondition

end Traced

namespace Operator

theorem fit?_of_bounds {value : Int} (hlow : -0x80000000 ≤ value) (hhigh : value ≤ 0x7fffffff) :
    fit? value = some (Int32.ofInt value) := by
  rw [fit?, if_pos (by simp [hlow, hhigh])]

theorem fit?_of_outside {value : Int} (h : value < -0x80000000 ∨ 0x7fffffff < value) :
    fit? value = none := by
  rw [fit?, if_neg (by simp; omega)]

theorem arity_of_isDivision {operator : Operator} (h : operator.isDivision = true) :
    operator.arity = 2 := by
  cases operator <;> first | rfl | cases h

/-- All that can be wrong with constants. -/
theorem fault?_cases {operator : Operator} {values : List Int32} {problem : FoldProblem}
    (h : operator.fault? values = some problem) :
    (operator ∈ [.shiftLeft, .shiftRight] ∧ ∃ left count, values = [left, count] ∧
      (count.toInt < 0 ∨ 31 < count.toInt) ∧ problem = .shiftCount count.toInt) ∨
    (operator.isDivision = true ∧ ∃ left, values = [left, 0]) := by
  unfold fault? at h
  split at h
  case h_1 left count | h_2 left count =>
      split at h
      · rename_i hcount
        exact .inl ⟨by simp, left, count, rfl, by simpa using hcount, (Option.some.inj h).symm⟩
      · cases h
  case h_3 left right | h_4 left right | h_5 left right =>
      split at h
      · rename_i hzero
        obtain rfl : right = 0 := Int32.toInt_inj.mp (by simpa using hzero)
        exact .inr ⟨rfl, left, rfl⟩
      · cases h
  case h_6 => cases h

end Operator

namespace Computation

open Traced

variable {operator : Operator} {operands : List Computation} {values : List Int32}
  {kind : ValueKind} {span : Span}

theorem all_isValid_of_constants
    (h : List.Forall₂ (fun operand value => operand.outcome = .constant value) operands values) :
    operands.all isValid = true := by
  induction h with
  | nil => rfl
  | cons hfirst _ ih => rw [List.all_cons, isValid_of_constant hfirst, ih]; rfl

/-- What is folded is done on constants alone. -/
theorem apply_of_folded (hvalues : folded? operator operands = some values) :
    operator.isTrigonometric = false ∧
      List.Forall₂ (fun operand value => operand.outcome = .constant value) operands values ∧
      apply operator operands kind span =
        match operator.fold? values with
        | some (.ok value) => pure ⟨kind, .constant value, span⟩
        | some (.error problem) => do
            (ExpressionProblem.ofFold problem).report span
            return ⟨kind, .invalid, span⟩
        | none => pure ⟨kind, .terms (operands.flatMap toTerms ++ [.apply operator]), span⟩ := by
  obtain ⟨hfolded, hall⟩ : operator.isTrigonometric = false ∧
      operands.mapM constant? = some values := by
    simpa [folded?] using hvalues
  have hconstants := mapM_constant?_eq_some.mp hall
  refine ⟨hfolded, hconstants, ?_⟩
  rw [apply_of_valid (all_isValid_of_constants hconstants), hall]
  rfl

/-- No constant is folded that divides by zero. -/
theorem divisor_of_folded (h : IsSafe operator operands)
    (hconstants : List.Forall₂ (fun operand value => operand.outcome = .constant value)
      operands values) (hdivision : operator.isDivision = true) :
    ∃ left right, values = [left, right] ∧ right ≠ 0 := by
  have hlength : values.length = 2 :=
    hconstants.length_eq.symm.trans (h.1.trans (Operator.arity_of_isDivision hdivision))
  obtain ⟨left, right, rfl⟩ := List.length_eq_two.mp hlength
  obtain ⟨first, second, hpair⟩ := List.length_eq_two.mp (hconstants.length_eq.trans hlength)
  rw [hpair] at hconstants
  cases hconstants with
  | cons _ hrest =>
      cases hrest with
      | cons hsecond _ =>
          refine ⟨left, right, rfl, ?_⟩
          rintro rfl
          exact h.2 first second hpair hdivision (by rw [constant?, hsecond])

theorem isExact_of_folded (h : IsSafe operator operands)
    (hvalues : folded? operator operands = some values) (diagnostics : Diagnostics) :
    FoldCall.IsExact ⟨operator, values, (apply operator operands kind span diagnostics).1.constant?,
      (apply operator operands kind span diagnostics).2.drop diagnostics.length⟩ := by
  obtain ⟨hfolded, hconstants, happly⟩ :=
    @apply_of_folded operator operands values kind span hvalues
  have hdivisor := divisor_of_folded h hconstants
  refine ⟨hdivisor, ?_⟩
  rw [happly, Operator.fold?_eq]
  cases hfault : operator.fault? values with
  | some problem =>
      rcases Operator.fault?_cases hfault with
        ⟨hshift, left, count, rfl, hcount, rfl⟩ | ⟨hdivision, left, rfl⟩
      · exact .inr (.inr ⟨left, count, hshift, rfl, hcount, rfl, _, _, List.drop_left⟩)
      · obtain ⟨_, right, hpair, hright⟩ := hdivisor hdivision
        exact absurd (by simpa using hpair : _ ∧ (0 : Int32) = right).2.symm hright
  | none =>
      obtain ⟨value, -, hexact, hword, -⟩ := Operator.exists_value
        (hconstants.length_eq.symm.trans h.1) hfolded hfault
      by_cases hfit : -0x80000000 ≤ value ∧ value ≤ 0x7fffffff
      · simp only [hexact, Option.map_some, Operator.fit?_of_bounds hfit.1 hfit.2]
        exact .inl ⟨value, ⟨hexact, hword⟩, hfit.1, hfit.2, rfl, List.drop_length⟩
      · have houtside : value < -0x80000000 ∨ 0x7fffffff < value := by omega
        simp only [hexact, Option.map_some, Operator.fit?_of_outside houtside]
        exact .inr (.inl ⟨value, ⟨hexact, hword⟩, houtside, rfl, _, _, List.drop_left⟩)

/-- The record of an application is of a call that is exact. -/
theorem apply_traces (h : IsSafe operator operands) (kind : ValueKind) (span : Span) :
    Traces (Applying.apply operator operands kind span) (apply operator operands kind span) := by
  intro diagnostics calls
  refine ⟨_, rfl, fun call hcall => ?_⟩
  obtain ⟨values, hvalues, rfl⟩ := Option.map_eq_some_iff.mp (Option.mem_toList.mp hcall)
  exact isExact_of_folded h hvalues diagnostics

theorem isSafe_single (harity : operator.arity = 1) (operand : Computation) :
    IsSafe operator [operand] :=
  ⟨harity.symm, fun _ _ h => by cases h⟩

/-- Where no division is applied it is enough to count the operands. -/
theorem isSafe_of_not_division (hlength : operands.length = operator.arity)
    (h : operator.isDivision = false) : IsSafe operator operands :=
  ⟨hlength, fun _ _ _ hdivision => absurd (h.symm.trans hdivision) Bool.false_ne_true⟩

theorem unary_traces (operator : UnaryOperator) (operand : Computation) (span : Span) :
    Traces (unary operator operand span) (unary operator operand span) := by
  refine .ite (fun _ => traces_pure _) fun _ => ?_
  cases operator with
  | negate | logicalNot => exact apply_traces (isSafe_single rfl operand) _ _
  | bitNot =>
      exact (traces_lift _).bind fun isInteger =>
        .ite (fun _ => apply_traces (isSafe_single rfl operand) _ _) fun _ => traces_pure _

theorem applyBinary_traces (harity : operator.arity = 2) (left right : Computation)
    (kind : ValueKind) (span : Span) :
    Traces (applyBinary operator left right kind span)
      (applyBinary operator left right kind span) := by
  refine .ite (fun _ => traces_pure _) fun _ =>
    .ite (fun _ => (traces_lift _).bind fun _ => traces_pure _) fun hdivisor =>
      apply_traces (show IsSafe operator [left, right] from
        ⟨harity.symm, fun first second hpair hdivision hzero => ?_⟩) kind span
  obtain ⟨rfl, rfl⟩ : left = first ∧ right = second := by simpa using hpair
  exact hdivisor (by simpa using ⟨hdivision, hzero⟩)

theorem applyPromoted_traces (harity : operator.arity = 2) (left right : Computation)
    (kind : ValueKind) (span : Span) :
    Traces (applyPromoted operator left right kind span)
      (applyPromoted operator left right kind span) :=
  (traces_lift _).bind fun _ => (traces_lift _).bind fun _ => applyBinary_traces harity _ _ _ _

theorem arithmetic_traces {onReals : Operator} (harity : operator.arity = 2)
    (hreals : onReals.arity = 2) (left right : Computation) (span : Span) :
    Traces (arithmetic operator onReals left right span)
      (arithmetic operator onReals left right span) :=
  .ite (fun _ => applyPromoted_traces hreals _ _ _ _) fun _ => applyBinary_traces harity _ _ _ _

theorem integral_traces (spelling : String) (harity : operator.arity = 2)
    (left right : Computation) (span : Span) :
    Traces (integral operator spelling left right span)
      (integral operator spelling left right span) :=
  (traces_lift _).bind fun _ =>
    .ite (fun _ => applyBinary_traces harity _ _ _ _) fun _ => traces_pure _

theorem elementwise_traces (spelling : String) (harity : operator.arity = 2)
    (left right : Computation) (span : Span) :
    Traces (elementwise operator spelling left right span)
      (elementwise operator spelling left right span) :=
  .ite (fun _ => (traces_lift _).bind fun _ => traces_pure _) fun _ =>
    applyBinary_traces harity _ _ _ _

theorem comparison_traces (harity : operator.arity = 2) (left right : Computation)
    (span : Span) :
    Traces (comparison operator left right span) (comparison operator left right span) :=
  .ite (fun _ => applyPromoted_traces harity _ _ _ _) fun _ => applyBinary_traces harity _ _ _ _

theorem binary_traces (operator : BinaryOperator) (left right : Computation) (span : Span) :
    Traces (binary operator left right span) (binary operator left right span) := by
  refine .ite (fun _ => traces_pure _) fun _ => ?_
  cases operator with
  | add | subtract | modulo | multiply => exact arithmetic_traces rfl rfl left right span
  | divide => exact applyPromoted_traces rfl left right _ span
  | integerDivide | shiftLeft | shiftRight | bitAnd | bitOr | bitXor | logicalAnd | logicalOr =>
      exact integral_traces _ rfl left right span
  | multiplyReal | divideReal => exact elementwise_traces _ rfl left right span
  | equal | notEqual | less | lessEqual | greater | greaterEqual =>
      exact comparison_traces rfl left right span

theorem call_traces (intrinsic : Intrinsic) (arguments : List Computation) (span : Span) :
    Traces (call intrinsic arguments span) (call intrinsic arguments span) := by
  unfold call
  split
  case h_1 | h_2 | h_3 | h_4 | h_5 => exact apply_traces (isSafe_single rfl _) _ _
  case h_6 | h_7 | h_8 =>
      exact (traces_lift _).bind fun (_, _, _) =>
        apply_traces (isSafe_of_not_division rfl rfl) _ _
  case h_9 => exact (traces_lift _).bind fun _ => traces_pure _

end Computation

namespace Expr

open Traced

mutual

/-- Every call of the folder by an expression is exact. -/
theorem trace_traces : ∀ expr : Expr, Traces expr.trace expr.compute
  | .unary span operator operand =>
      (trace_traces operand).bind fun value => value.unary_traces operator span
  | .binary span operator left right =>
      (trace_traces left).bind fun value => (trace_traces right).bind fun other =>
        Computation.binary_traces operator value other span
  | .call span intrinsic arguments => by
      simp only [trace, compute, computeIn]
      split
      · exact (traces_lift _).bind fun _ => traces_pure _
      · refine (computeAll_traces arguments).bind fun found => ?_
        split
        · exact Computation.call_traces intrinsic _ span
        · exact traces_pure _
  | .literal _ _ | .register _ _ _ | .error _ => traces_pure _
  | .string _ _ | .codeAddress _ _ _ _ => (traces_lift _).bind fun _ => traces_pure _

theorem computeAll_traces :
    ∀ exprs : List Expr, Traces (computeAllIn exprs) (computeAll exprs)
  | [] => traces_pure _
  | first :: rest => by
      simp only [computeAll, computeAllIn]
      refine (trace_traces first).bind fun value => ?_
      split
      · exact traces_pure _
      · exact (computeAll_traces rest).bind fun _ => traces_pure _

end

/-- Folding is total and never wraps. The record of an expression is one of what is computed, and
each call of the folder in it is exact. -/
theorem trace_exact (expr : Expr) (diagnostics : Diagnostics) :
    ∃ made : List FoldCall, expr.trace (diagnostics, []) =
      ((expr.compute diagnostics).1, (expr.compute diagnostics).2, made) ∧
        ∀ call ∈ made, call.IsExact :=
  trace_traces expr diagnostics []

/-- The least integer divided by minus one is a word of 64 bits that no constant is. -/
example :
    ((binary .origin .integerDivide (.literal .origin ⟨-2147483648, .integer⟩)
      (.literal .origin ⟨-1, .integer⟩)).trace ([], [])).2.2.map
        (fun call => (call.values, call.answer, call.operator.wordValue? call.values)) =
      [([-2147483648, -1], none, some 2147483648)] := by decide

end Expr

end NovelAsm
