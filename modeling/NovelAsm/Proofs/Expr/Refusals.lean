import NovelAsm.Proofs.Erasure.Expressions
import NovelAsm.Proofs.Steps

/-!
Why an expression has no value. An error in an expression was reported where the expression was
read; whatever else is in the way of a value is reported when it is computed. `Honest` says so of
diagnostics to which every report adds something bad, be it one more diagnostic or an error.

A value is not had by chance either: an expression has one only if nothing in it is an error or a
place of the code (`Expr.evaluate_settled`), and what was said before makes no difference to it.
-/

namespace NovelAsm

namespace Expr

mutual

/-- An expression without an error in it. -/
def Faultless : Expr → Prop
  | .error _ => False
  | .unary _ _ operand => operand.Faultless
  | .binary _ _ left right => left.Faultless ∧ right.Faultless
  | .call _ _ arguments => AllFaultless arguments
  | .literal _ _ | .string _ _ | .register _ _ _ | .codeAddress _ _ _ _ => True

/-- Expressions without an error in them. -/
def AllFaultless : List Expr → Prop
  | [] => True
  | first :: rest => first.Faultless ∧ AllFaultless rest

end

theorem allFaultless_iff {exprs : List Expr} :
    AllFaultless exprs ↔ ∀ expr ∈ exprs, expr.Faultless := by
  induction exprs with
  | nil => simp [AllFaultless]
  | cons first rest ih => simp [AllFaultless, ih]

end Expr

namespace Computation

variable {α : Type}

/-- Diagnostics to which every problem of an expression adds something bad. -/
structure Loud (I bad : Diagnostics → Prop) : Prop where
  report : ∀ (problem : ExpressionProblem) (span : Span) (said : Diagnostics), I said →
    I (said ++ [.error problem.code problem.message span]) ∧
      bad (said ++ [.error problem.code problem.message span])

/-- A step whose outcome is valid if its operands are, or which says why it is not. -/
abbrev Holds (I bad : Diagnostics → Prop) (P : Prop) (step : Reporting Computation) : Prop :=
  Honest I bad step fun result => P → result.isValid = true

variable {I bad : Diagnostics → Prop}

section Steps

variable (hloud : Loud I bad)

include hloud

theorem Loud.report_honest {P : α → Prop} (problem : ExpressionProblem) (span : Span) (value : α) :
    Honest I bad (do problem.report span; return value) P :=
  Honest.behind_bad (hloud.report problem span)

theorem Loud.promote_holds (computation : Computation) :
    Holds I bad (computation.isValid = true) computation.promote := by
  simp only [promote]
  split
  · exact .pure fun hvalid => hvalid
  · split
    · exact .pure fun hvalid => hvalid
    · split
      · exact .pure fun _ => rfl
      · exact hloud.report_honest _ _ _
    · exact .pure fun _ => rfl

theorem Loud.apply_holds (operator : Operator) (operands : List Computation) (kind : ValueKind)
    (span : Span) : Holds I bad (operands.all isValid = true)
      (apply operator operands kind span) := by
  simp only [apply]
  split
  · rename_i hinvalid
    exact .pure fun hvalid => by simp [hvalid] at hinvalid
  · split
    · exact .pure fun _ => rfl
    · exact hloud.report_honest _ _ _
    · exact .pure fun _ => rfl

theorem Loud.requireInteger_honest (operator : String) (computation : Computation) :
    Honest I bad (requireInteger operator computation) (· = true) := by
  simp only [requireInteger]
  split
  · exact hloud.report_honest _ _ _
  · exact .pure rfl

theorem Loud.requireIntegers_honest (operator : String) (left right : Computation) :
    Honest I bad (requireIntegers operator left right) (· = true) := by
  refine (hloud.requireInteger_honest operator left).follow fun isInteger => ?_
  cases isInteger with
  | true => exact (hloud.requireInteger_honest operator right).mono fun _ h _ => h
  | false => exact .pure fun h => by cases h

theorem Loud.unary_holds (operator : UnaryOperator) (operand : Computation) (span : Span) :
    Holds I bad (operand.isValid = true) (unary operator operand span) := by
  have hone (operator : Operator) (kind : ValueKind) :
      Holds I bad (operand.isValid = true) (apply operator [operand] kind span) :=
    (hloud.apply_holds operator [operand] kind span).mono fun _ hresult hvalid =>
      hresult (by simp [hvalid])
  simp only [unary]
  split
  · rename_i hinvalid
    exact .pure fun hvalid => by simp [hvalid] at hinvalid
  · cases operator with
    | negate => exact hone _ _
    | logicalNot => exact hone _ _
    | bitNot =>
        refine (hloud.requireInteger_honest "~" operand).follow fun isInteger => ?_
        cases isInteger with
        | true => exact (hone _ _).mono fun _ hresult _ => hresult
        | false => exact .pure fun h => by cases h

/-- The operands of an operator are valid. -/
def Both (left right : Computation) : Prop := left.isValid = true ∧ right.isValid = true

section Binary

variable (left right : Computation) (span : Span)

theorem Loud.applyBinary_holds (operator : Operator) (kind : ValueKind) :
    Holds I bad (Both left right) (applyBinary operator left right kind span) := by
  simp only [applyBinary]
  split
  · rename_i hinvalid
    exact .pure fun hvalid => by simp [hvalid.1, hvalid.2] at hinvalid
  · split
    · exact hloud.report_honest _ _ _
    · exact (hloud.apply_holds operator [left, right] kind span).mono fun _ hresult hvalid =>
        hresult (by simp [hvalid.1, hvalid.2])

theorem Loud.applyPromoted_holds (operator : Operator) (kind : ValueKind) :
    Holds I bad (Both left right) (applyPromoted operator left right kind span) :=
  (hloud.promote_holds left).follow fun first => (hloud.promote_holds right).follow fun second =>
    (hloud.applyBinary_holds first second span operator kind).mono
      fun _ hresult hsecond hfirst hvalid => hresult ⟨hfirst hvalid.1, hsecond hvalid.2⟩

theorem Loud.arithmetic_holds (onIntegers onReals : Operator) :
    Holds I bad (Both left right) (arithmetic onIntegers onReals left right span) := by
  simp only [arithmetic]
  split
  · exact hloud.applyPromoted_holds left right span _ _
  · exact hloud.applyBinary_holds left right span _ _

theorem Loud.integral_holds (operator : Operator) (spelling : String) :
    Holds I bad (Both left right) (integral operator spelling left right span) := by
  refine (hloud.requireIntegers_honest spelling left right).follow fun areIntegers => ?_
  cases areIntegers with
  | true => exact (hloud.applyBinary_holds left right span _ _).mono fun _ hresult _ => hresult
  | false => exact .pure fun h => by cases h

theorem Loud.elementwise_holds (operator : Operator) (spelling : String) :
    Holds I bad (Both left right) (elementwise operator spelling left right span) := by
  simp only [elementwise]
  split
  · exact hloud.report_honest _ _ _
  · exact hloud.applyBinary_holds left right span _ _

theorem Loud.comparison_holds (operator : Operator) :
    Holds I bad (Both left right) (comparison operator left right span) := by
  simp only [comparison]
  split
  · exact hloud.applyPromoted_holds left right span _ _
  · exact hloud.applyBinary_holds left right span _ _

theorem Loud.binary_holds (operator : BinaryOperator) :
    Holds I bad (Both left right) (binary operator left right span) := by
  simp only [binary]
  split
  · rename_i hinvalid
    exact .pure fun hvalid => by simp [hvalid.1, hvalid.2] at hinvalid
  · cases operator with
    | add | subtract | modulo | multiply => exact hloud.arithmetic_holds left right span _ _
    | divide => exact hloud.applyPromoted_holds left right span _ _
    | multiplyReal | divideReal => exact hloud.elementwise_holds left right span _ _
    | equal | notEqual | less | lessEqual | greater | greaterEqual =>
        exact hloud.comparison_holds left right span _
    | _ => exact hloud.integral_holds left right span _ _

theorem Loud.unify_honest : Honest I bad (unify left right) fun unified =>
    Both left right → Both unified.1 unified.2.1 := by
  simp only [unify]
  split
  · exact .pure fun hvalid => hvalid
  · exact (hloud.promote_holds left).follow fun first =>
      (hloud.promote_holds right).follow fun second =>
      .pure fun hsecond hfirst hvalid => ⟨hfirst hvalid.1, hsecond hvalid.2⟩

end Binary

theorem Loud.call_holds (intrinsic : Intrinsic) (arguments : List Computation) (span : Span) :
    Holds I bad (arguments.all isValid = true) (call intrinsic arguments span) := by
  simp only [call]
  split
  case h_6 left right | h_7 left right =>
    refine (hloud.unify_honest left right).follow fun unified => ?_
    refine (hloud.apply_holds _ _ _ _).mono fun _ hresult hunified hvalid => hresult ?_
    obtain ⟨hfirst, hsecond⟩ := hunified (by simpa [Both] using hvalid)
    simp [hfirst, hsecond]
  case h_8 condition whenTrue whenFalse =>
    refine (hloud.unify_honest whenTrue whenFalse).follow fun unified => ?_
    refine (hloud.apply_holds _ _ _ _).mono fun _ hresult hunified hvalid => hresult ?_
    simp only [List.all_cons, List.all_nil, Bool.and_eq_true, Bool.and_true] at hvalid
    obtain ⟨hfirst, hsecond⟩ := hunified hvalid.2
    simp [hfirst, hsecond, hvalid.1]
  case h_9 => exact hloud.report_honest _ _ _
  all_goals exact hloud.apply_holds _ _ _ _

end Steps

mutual

/-- An expression without errors has a value for the machine, or it is reported. -/
theorem Loud.compute_holds (hloud : Loud I bad) (expr : Expr) :
    Holds I bad expr.Faultless expr.compute := by
  match expr with
  | .literal _ _ | .register _ _ _ => exact .pure fun _ => rfl
  | .error _ => exact .pure False.elim
  | .string _ _ | .codeAddress _ _ _ _ => exact hloud.report_honest _ _ _
  | .unary span operator operand =>
      exact (hloud.compute_holds operand).follow fun value =>
        (hloud.unary_holds operator value span).mono fun _ hresult hvalue hfaultless =>
          hresult (hvalue hfaultless)
  | .binary span operator left right =>
      exact (hloud.compute_holds left).follow fun first =>
        (hloud.compute_holds right).follow fun second =>
          (hloud.binary_holds first second span operator).mono
            fun _ hresult hsecond hfirst hfaultless =>
              hresult ⟨hfirst hfaultless.1, hsecond hfaultless.2⟩
  | .call span intrinsic arguments =>
      simp only [Expr.compute, Expr.computeIn]
      split
      · exact hloud.report_honest _ _ _
      · refine (hloud.computeAll_honest arguments).follow fun values => ?_
        cases values with
        | none =>
            refine .pure fun hvalues hfaultless => ?_
            obtain ⟨found, hfound, -⟩ := hvalues hfaultless
            cases hfound
        | some values =>
            refine (hloud.call_holds intrinsic values span).mono fun _ hresult hvalues hfaultless =>
              hresult ?_
            obtain ⟨found, hfound, hvalid⟩ := hvalues hfaultless
            rwa [Option.some.inj hfound]

theorem Loud.computeAll_honest (hloud : Loud I bad) (exprs : List Expr) :
    Honest I bad (Expr.computeAll exprs) fun values =>
      Expr.AllFaultless exprs → ∃ found, values = some found ∧ found.all isValid = true := by
  match exprs with
  | [] => exact .pure fun _ => ⟨[], rfl, rfl⟩
  | first :: rest =>
      refine (hloud.compute_holds first).follow fun value => ?_
      split
      · rename_i hinvalid
        exact .pure fun hvalue hfaultless => by simp [hvalue hfaultless.1] at hinvalid
      · refine (hloud.computeAll_honest rest).follow fun values => .pure ?_
        intro hvalues hvalue hfaultless
        obtain ⟨found, rfl, hvalid⟩ := hvalues hfaultless.2
        exact ⟨value :: found, rfl, by simp [hvalue hfaultless.1, hvalid]⟩

end

/-- An expression without errors is a constant, or it is said why it is none. -/
theorem Loud.evaluate_honest (hloud : Loud I bad) (expr : Expr) :
    Honest I bad expr.evaluate fun value => expr.Faultless → value.isSome = true := by
  refine (hloud.compute_holds expr).follow fun computation => ?_
  obtain ⟨kind, outcome, span⟩ := computation
  cases outcome with
  | constant value => exact .pure fun _ _ => rfl
  | invalid => exact .pure fun hvalid hfaultless => by cases hvalid hfaultless
  | terms terms => exact hloud.report_honest _ _ _

end Computation

namespace Expr

open NovelAsm.Computation

mutual

/-- An expression in which nothing is an error or a place of the code. -/
def Settled : Expr → Prop
  | .error _ | .codeAddress _ _ _ _ => False
  | .unary _ _ operand => operand.Settled
  | .binary _ _ left right => left.Settled ∧ right.Settled
  | .call _ _ arguments => AllSettled arguments
  | .literal _ _ | .string _ _ | .register _ _ _ => True

def AllSettled : List Expr → Prop
  | [] => True
  | first :: rest => first.Settled ∧ AllSettled rest

end

mutual

/-- What is not settled comes to nothing. -/
theorem compute_settled (expr : Expr) :
    Ensures expr.compute fun computation => computation.isValid = true → expr.Settled := by
  match expr with
  | .literal _ _ | .register _ _ _ => exact .pure fun _ => trivial
  | .error _ => exact .pure fun h => by cases h
  | .string _ _ | .codeAddress _ _ _ _ => exact .behind fun _ => .pure fun h => by cases h
  | .unary span operator operand =>
      refine (compute_settled operand).bind fun value hvalue => ?_
      simp only [Computation.unary]
      split
      · exact .pure fun h => by cases h
      · rename_i hvalid
        exact fun _ _ => hvalue (by simpa using hvalid)
  | .binary span operator left right =>
      refine (compute_settled left).bind fun first hfirst =>
        (compute_settled right).bind fun second hsecond => ?_
      simp only [Computation.binary]
      split
      · exact .pure fun h => by cases h
      · rename_i hvalid
        obtain ⟨hleft, hright⟩ : first.isValid = true ∧ second.isValid = true := by
          simpa using hvalid
        exact fun _ _ => ⟨hfirst hleft, hsecond hright⟩
  | .call span intrinsic arguments =>
      simp only [compute, computeIn]
      split
      · exact .behind fun _ => .pure fun h => by cases h
      · refine (computeAll_settled arguments).bind fun values hvalues => ?_
        cases values with
        | none => exact .pure fun h => by cases h
        | some values => exact fun _ _ => hvalues rfl

theorem computeAll_settled (exprs : List Expr) :
    Ensures (computeAll exprs) fun values => values.isSome = true → AllSettled exprs := by
  match exprs with
  | [] => exact .pure fun _ => trivial
  | first :: rest =>
      refine (compute_settled first).bind fun value hvalue => ?_
      split
      · exact .pure fun h => by cases h
      · rename_i hvalid
        refine (computeAll_settled rest).bind fun values hvalues => .pure fun hsome => ?_
        exact ⟨hvalue (by simpa using hvalid), hvalues (by simpa using hsome)⟩

end

theorem evaluate_settled (expr : Expr) :
    Ensures expr.evaluate fun value => value.isSome = true → expr.Settled := by
  refine (compute_settled expr).bind fun computation hvalid => ?_
  obtain ⟨kind, outcome, span⟩ := computation
  cases outcome with
  | constant value => exact .pure fun _ => hvalid rfl
  | invalid => exact .pure fun h => by cases h
  | terms terms => exact .behind fun _ => .pure fun h => by cases h

/-- The value of an expression does not depend on what was said before. -/
theorem evaluate_answer (expr : Expr) : Ensures expr.evaluate (· = (expr.evaluate []).1) := by
  intro start
  have herases (front : Diagnostics) :
      Erases (Diagnostics.bareBehind front) id expr.evaluate expr.bare.evaluate :=
    evaluate_erases expr
  have hstart : expr.bare.evaluate (Diagnostics.bare start) = ((expr.evaluate start).1, _) :=
    herases [] start
  have hempty : expr.bare.evaluate (Diagnostics.bare start ++ []) = ((expr.evaluate []).1, _) :=
    herases (Diagnostics.bare start) []
  rw [List.append_nil, hstart] at hempty
  exact (Prod.mk.inj hempty).1

end Expr

end NovelAsm
