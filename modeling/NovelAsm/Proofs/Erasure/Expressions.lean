import NovelAsm.Expr.Computation
import NovelAsm.Proofs.Erasure.Steps

/-!
Expressions without places. What an expression comes to, and whether that is reported, does
not depend on where its parts stand.
-/

namespace NovelAsm

variable {front : Diagnostics}

namespace Expr

mutual

/-- An expression without places. -/
def bare : Expr → Expr
  | .literal _ value => .literal .origin value
  | .string _ text => .string .origin text
  | .register _ source spelling => .register .origin source spelling
  | .codeAddress _ name kind parameterCount => .codeAddress .origin name kind parameterCount
  | .unary _ operator operand => .unary .origin operator (bare operand)
  | .binary _ operator left right => .binary .origin operator (bare left) (bare right)
  | .call _ intrinsic arguments => .call .origin intrinsic (bareAll arguments)
  | .error _ => .error .origin

/-- Expressions without places. -/
def bareAll : List Expr → List Expr
  | [] => []
  | first :: rest => bare first :: bareAll rest

end

theorem bareAll_eq (expressions : List Expr) : bareAll expressions = expressions.map bare := by
  induction expressions with
  | nil => simp only [bareAll, List.map_nil]
  | cons first rest ih => simp only [bareAll, ih, List.map_cons]

mutual

@[simp] theorem bare_bare : ∀ expr : Expr, expr.bare.bare = expr.bare
  | .literal .. | .string .. | .register .. | .codeAddress .. | .error _ => by simp only [bare]
  | .unary _ _ operand => by simp only [bare, bare_bare operand]
  | .binary _ _ left right => by simp only [bare, bare_bare left, bare_bare right]
  | .call _ _ arguments => by simp only [bare, bareAll_bareAll arguments]

theorem bareAll_bareAll : ∀ expressions : List Expr,
    bareAll (bareAll expressions) = bareAll expressions
  | [] => by simp only [bareAll]
  | first :: rest => by simp only [bareAll, bare_bare first, bareAll_bareAll rest]

end

@[simp] theorem span_bare (expr : Expr) : expr.bare.span = .origin := by
  cases expr <;> simp only [bare, span]

@[simp] theorem isError_bare (expr : Expr) : expr.bare.isError = expr.isError := by
  cases expr <;> simp only [bare, isError]

end Expr

namespace ExpressionProblem

theorem report_erases (problem : ExpressionProblem) (span : Span) :
    Erases (Diagnostics.bareBehind front) id (problem.report span) (problem.report .origin) :=
  Reporting.report_erases (.error problem.code problem.message span)

end ExpressionProblem

namespace Computation

/-- An outcome without its place. -/
def bare (computation : Computation) : Computation := { computation with span := .origin }

@[simp] theorem kind_bare (computation : Computation) : computation.bare.kind = computation.kind :=
  rfl

@[simp] theorem isValid_bare (computation : Computation) :
    computation.bare.isValid = computation.isValid := rfl

@[simp] theorem constant?_bare (computation : Computation) :
    computation.bare.constant? = computation.constant? := rfl

@[simp] theorem toTerms_bare (computation : Computation) :
    computation.bare.toTerms = computation.toTerms := rfl

@[simp] theorem number?_bare (computation : Computation) :
    computation.bare.number? = computation.number? := rfl

@[simp] theorem isReal_bare (computation : Computation) :
    computation.bare.isReal = computation.isReal := rfl

@[simp] theorem bare_invalid (span : Span) : (invalid span).bare = invalid .origin := rfl

/-- Computations report and answer the same without places. -/
abbrev Keeps (front : Diagnostics) (step other : Reporting Computation) : Prop :=
  Erases (Diagnostics.bareBehind front) bare step other

theorem promote_erases (computation : Computation) :
    Keeps front computation.promote computation.bare.promote := by
  obtain ⟨kind, outcome, span⟩ := computation
  simp only [promote]
  refine Erases.ite Iff.rfl (fun _ => Erases.pure rfl) fun _ => ?_
  cases outcome with
  | invalid | terms => exact Erases.pure rfl
  | constant value =>
      simp only [bare]
      split
      · exact Erases.pure rfl
      · exact (ExpressionProblem.report_erases _ _).bind fun _ => Erases.pure rfl

theorem map_constant?_bare (operands : List Computation) :
    (operands.map bare).mapM constant? = operands.mapM constant? := by
  induction operands with
  | nil => rfl
  | cons first rest ih => rw [List.map_cons, List.mapM_cons, List.mapM_cons, ih, constant?_bare]

theorem apply_erases (operator : Operator) (operands : List Computation) (kind : ValueKind)
    (span : Span) :
    Keeps front (apply operator operands kind span)
      (apply operator (operands.map bare) kind .origin) := by
  have hvalid : (operands.map bare).all isValid = operands.all isValid := by
    rw [List.all_map]
    rfl
  have hterms : (operands.map bare).flatMap toTerms = operands.flatMap toTerms := by
    rw [List.flatMap_map]
    rfl
  simp only [apply, hvalid, hterms, map_constant?_bare]
  refine Erases.ite Iff.rfl (fun _ => Erases.pure rfl) fun _ => ?_
  cases (operands.mapM constant?).bind operator.fold? with
  | none => exact Erases.pure rfl
  | some folded =>
      cases folded with
      | ok value => exact Erases.pure rfl
      | error problem =>
          exact (ExpressionProblem.report_erases _ _).bind fun _ => Erases.pure rfl

theorem requireInteger_erases (operator : String) (computation : Computation) :
    Erases (Diagnostics.bareBehind front) id (requireInteger operator computation)
      (requireInteger operator computation.bare) := by
  simp only [requireInteger]
  refine Erases.ite Iff.rfl (fun _ => ?_) fun _ => Erases.pure rfl
  exact (ExpressionProblem.report_erases _ _).bind fun _ => Erases.pure rfl

theorem requireIntegers_erases (operator : String) (left right : Computation) :
    Erases (Diagnostics.bareBehind front) id (requireIntegers operator left right)
      (requireIntegers operator left.bare right.bare) := by
  simp only [requireIntegers]
  refine (requireInteger_erases operator left).bind fun isInteger => ?_
  exact Erases.ite Iff.rfl (fun _ => requireInteger_erases operator right) fun _ => Erases.pure rfl

theorem unary_erases (operator : UnaryOperator) (operand : Computation) (span : Span) :
    Keeps front (unary operator operand span) (unary operator operand.bare .origin) := by
  simp only [unary]
  refine Erases.ite Iff.rfl (fun _ => Erases.pure rfl) fun _ => ?_
  cases operator with
  | negate => exact apply_erases .negate [operand] operand.kind span
  | logicalNot => exact apply_erases .isZero [operand] .integer span
  | bitNot =>
      refine (requireInteger_erases "~" operand).bind fun isInteger => ?_
      exact Erases.ite Iff.rfl (fun _ => apply_erases .bitNot [operand] .integer span)
        fun _ => Erases.pure rfl

theorem applyBinary_erases (operator : Operator) (left right : Computation) (kind : ValueKind)
    (span : Span) :
    Keeps front (applyBinary operator left right kind span)
      (applyBinary operator left.bare right.bare kind .origin) := by
  simp only [applyBinary]
  refine Erases.ite Iff.rfl (fun _ => Erases.pure rfl) fun _ => Erases.ite Iff.rfl (fun _ => ?_)
    fun _ => apply_erases operator [left, right] kind span
  exact (ExpressionProblem.report_erases _ _).bind fun _ => Erases.pure rfl

theorem applyPromoted_erases (operator : Operator) (left right : Computation) (kind : ValueKind)
    (span : Span) :
    Keeps front (applyPromoted operator left right kind span)
      (applyPromoted operator left.bare right.bare kind .origin) :=
  left.promote_erases.bind fun left => right.promote_erases.bind fun right =>
    applyBinary_erases operator left right kind span

theorem arithmetic_erases (onIntegers onReals : Operator) (left right : Computation)
    (span : Span) :
    Keeps front (arithmetic onIntegers onReals left right span)
      (arithmetic onIntegers onReals left.bare right.bare .origin) :=
  Erases.ite Iff.rfl (fun _ => applyPromoted_erases onReals left right .real span)
    fun _ => applyBinary_erases onIntegers left right .integer span

theorem integral_erases (operator : Operator) (spelling : String) (left right : Computation)
    (span : Span) :
    Keeps front (integral operator spelling left right span)
      (integral operator spelling left.bare right.bare .origin) :=
  (requireIntegers_erases spelling left right).bind fun _ =>
    Erases.ite Iff.rfl (fun _ => applyBinary_erases operator left right .integer span)
      fun _ => Erases.pure rfl

theorem elementwise_erases (operator : Operator) (spelling : String) (left right : Computation)
    (span : Span) :
    Keeps front (elementwise operator spelling left right span)
      (elementwise operator spelling left.bare right.bare .origin) :=
  Erases.ite Iff.rfl
    (fun _ => (ExpressionProblem.report_erases _ _).bind fun _ => Erases.pure rfl)
    fun _ => applyBinary_erases operator left right left.kind span

theorem comparison_erases (operator : Operator) (left right : Computation) (span : Span) :
    Keeps front (comparison operator left right span)
      (comparison operator left.bare right.bare .origin) :=
  Erases.ite Iff.rfl (fun _ => applyPromoted_erases operator left right .integer span)
    fun _ => applyBinary_erases operator left right .integer span

theorem binary_erases (operator : BinaryOperator) (left right : Computation) (span : Span) :
    Keeps front (binary operator left right span)
      (binary operator left.bare right.bare .origin) := by
  simp only [binary]
  refine Erases.ite Iff.rfl (fun _ => Erases.pure rfl) fun _ => ?_
  cases operator with
  | add | subtract | modulo | multiply => exact arithmetic_erases _ _ left right span
  | divide => exact applyPromoted_erases _ left right _ span
  | integerDivide | shiftLeft | shiftRight | bitAnd | bitOr | bitXor | logicalAnd | logicalOr =>
      exact integral_erases _ _ left right span
  | multiplyReal | divideReal => exact elementwise_erases _ _ left right span
  | equal | notEqual | less | lessEqual | greater | greaterEqual =>
      exact comparison_erases _ left right span

/-- Three values of which two are computations. -/
def bareBoth (values : Computation × Computation × ValueKind) :
    Computation × Computation × ValueKind :=
  (values.1.bare, values.2.1.bare, values.2.2)

theorem unify_erases (left right : Computation) :
    Erases (Diagnostics.bareBehind front) bareBoth (unify left right)
      (unify left.bare right.bare) :=
  Erases.ite Iff.rfl (fun _ => Erases.pure rfl) fun _ =>
    left.promote_erases.bind fun _ => right.promote_erases.bind fun _ => Erases.pure rfl

/-- An operator of two values of one kind, without places. -/
theorem unified_erases (operator : Operator) (a b : Computation) (span : Span) : Keeps front
    (do let (a, b, kind) ← unify a b; apply operator [a, b] kind span)
    (do let (a, b, kind) ← unify a.bare b.bare; apply operator [a, b] kind .origin) :=
  (unify_erases a b).bind fun unified =>
    apply_erases operator [unified.1, unified.2.1] unified.2.2 span

theorem call_erases (intrinsic : Intrinsic) (arguments : List Computation) (span : Span) :
    Keeps front (call intrinsic arguments span) (call intrinsic (arguments.map bare) .origin) := by
  have hcount (count : Nat) : Keeps front
      (do (ExpressionProblem.argumentCount intrinsic count).report span; return invalid span)
      (do (ExpressionProblem.argumentCount intrinsic count).report .origin
          return invalid .origin) :=
    (ExpressionProblem.report_erases _ _).bind fun _ => Erases.pure rfl
  -- Only a call with one, two or three arguments is not refused.
  match arguments with
  | [] => cases intrinsic <;> exact hcount 0
  | [a] =>
      cases intrinsic with
      | abs | nonzero | sin | cos | tan => exact apply_erases _ [a] _ span
      | _ => exact hcount 1
  | [a, b] =>
      cases intrinsic with
      | min | max => exact unified_erases _ a b span
      | _ => exact hcount 2
  | [condition, whenTrue, whenFalse] =>
      cases intrinsic with
      | select =>
          exact (unify_erases whenTrue whenFalse).bind fun unified =>
            apply_erases .select [unified.2.1, unified.1, condition] unified.2.2 span
      | _ => exact hcount 3
  | a :: b :: c :: d :: rest =>
      have hmap : (a :: b :: c :: d :: rest).map bare =
          a.bare :: b.bare :: c.bare :: d.bare :: rest.map bare := rfl
      have hlength := hcount (rest.length + 4)
      rw [hmap]
      cases intrinsic <;> simpa only [call, List.length_cons, List.length_map,
        monadLift_self] using hlength

end Computation

namespace Expr

open NovelAsm.Computation

mutual

/-- What an expression comes to does not depend on places. -/
theorem compute_erases : ∀ expr : Expr, Keeps front expr.compute expr.bare.compute
  | .literal span value => by
      simp only [bare, compute, computeIn]
      exact Erases.pure rfl
  | .register span source spelling => by
      simp only [bare, compute, computeIn]
      exact Erases.pure rfl
  | .string span text => by
      simp only [bare, compute, computeIn]
      exact (ExpressionProblem.report_erases _ _).bind fun _ => Erases.pure rfl
  | .codeAddress span name kind count => by
      simp only [bare, compute, computeIn]
      exact (ExpressionProblem.report_erases _ _).bind fun _ => Erases.pure rfl
  | .unary span operator operand => by
      simp only [bare, compute, computeIn]
      exact (compute_erases operand).bind fun operand => unary_erases operator operand span
  | .binary span operator left right => by
      simp only [bare, compute, computeIn]
      exact (compute_erases left).bind fun left => (compute_erases right).bind fun right =>
        binary_erases operator left right span
  | .call span intrinsic arguments => by
      have hall := computeAll_erases arguments
      simp only [bare, compute, computeIn, bareAll_eq, List.length_map] at hall ⊢
      refine Erases.ite Iff.rfl
        (fun _ => (ExpressionProblem.report_erases _ _).bind fun _ => Erases.pure rfl) fun _ => ?_
      refine hall.bind fun values => ?_
      cases values with
      | none => exact Erases.pure rfl
      | some values => exact call_erases intrinsic values span
  | .error span => by
      simp only [bare, compute, computeIn]
      exact Erases.pure rfl

theorem computeAll_erases : ∀ expressions : List Expr,
    Erases (Diagnostics.bareBehind front) (Option.map (List.map Computation.bare))
      (computeAll expressions) (computeAll (bareAll expressions))
  | [] => by
      simp only [bareAll, computeAll, computeAllIn]
      exact Erases.pure rfl
  | first :: rest => by
      simp only [bareAll, computeAll, computeAllIn]
      refine (compute_erases first).bind fun value => Erases.ite Iff.rfl
        (fun _ => Erases.pure rfl) fun _ => (computeAll_erases rest).map fun values => ?_
      cases values <;> rfl

end

theorem evaluate_erases (expr : Expr) :
    Erases (Diagnostics.bareBehind front) id expr.evaluate expr.bare.evaluate := by
  simp only [evaluate]
  refine (compute_erases expr).bind fun computation => ?_
  obtain ⟨kind, outcome, span⟩ := computation
  cases outcome with
  | constant | invalid => exact Erases.pure rfl
  | terms =>
      rw [span_bare]
      exact (ExpressionProblem.report_erases _ _).bind fun _ => Erases.pure rfl

end Expr

end NovelAsm
