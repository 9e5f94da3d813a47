import NovelAsm.CodeUnit.Operands
import NovelAsm.Proofs.Reports.Problems

/-!
What is said of expressions. A computation points at the expression that it was made of, and what
is said on the way points at a part of that.
-/

namespace NovelAsm

variable {allowed : Span → Prop}

namespace Computation

theorem promote_early {computation : Computation} (h : allowed computation.span) :
    Says allowed computation.promote fun result => allowed result.span := by
  simp only [promote]
  split
  · exact .pure h
  · split
    · exact .pure h
    · split
      · exact .pure h
      · exact (ExpressionProblem.report_early _ h).map fun _ _ => h
    · exact .pure h

theorem apply_early (operator : Operator) (operands : List Computation) (kind : ValueKind)
    {span : Span} (h : allowed span) :
    Says allowed (apply operator operands kind span) fun result => allowed result.span := by
  simp only [apply]
  split
  · exact .pure h
  · split
    · exact .pure h
    · exact (ExpressionProblem.report_early _ h).map fun _ _ => h
    · exact .pure h

theorem requireInteger_early (operator : String) {computation : Computation}
    (h : allowed computation.span) :
    Says allowed (requireInteger operator computation) fun _ => True := by
  simp only [requireInteger]
  split
  · exact (ExpressionProblem.report_early _ h).map fun _ _ => trivial
  · exact .pure trivial

theorem requireIntegers_early (operator : String) {left right : Computation}
    (hleft : allowed left.span) (hright : allowed right.span) :
    Says allowed (requireIntegers operator left right) fun _ => True := by
  refine (requireInteger_early operator hleft).bind fun isInteger _ => ?_
  split
  · exact requireInteger_early operator hright
  · exact .pure trivial

theorem unary_early (operator : UnaryOperator) {operand : Computation} {span : Span}
    (hoperand : allowed operand.span) (h : allowed span) :
    Says allowed (unary operator operand span) fun result => allowed result.span := by
  simp only [unary]
  split
  · exact .pure h
  · split
    · exact apply_early _ _ _ h
    · refine (requireInteger_early "~" hoperand).bind fun isInteger _ => ?_
      split
      · exact apply_early _ _ _ h
      · exact .pure h
    · exact apply_early _ _ _ h

section Binary

variable {left right : Computation} {span : Span} (hleft : allowed left.span)
  (hright : allowed right.span) (h : allowed span)

include hright h in
theorem applyBinary_early (operator : Operator) (kind : ValueKind) :
    Says allowed (applyBinary operator left right kind span) fun result =>
      allowed result.span := by
  simp only [applyBinary]
  split
  · exact .pure h
  · split
    · exact (ExpressionProblem.report_early _ hright).map fun _ _ => h
    · exact apply_early _ _ _ h

include hleft hright h

theorem applyPromoted_early (operator : Operator) (kind : ValueKind) :
    Says allowed (applyPromoted operator left right kind span) fun result =>
      allowed result.span :=
  (promote_early hleft).bind fun _ _ => (promote_early hright).bind fun _ hpromoted =>
    applyBinary_early hpromoted h ..

theorem arithmetic_early (onIntegers onReals : Operator) :
    Says allowed (arithmetic onIntegers onReals left right span) fun result =>
      allowed result.span := by
  simp only [arithmetic]
  split
  · exact applyPromoted_early hleft hright h ..
  · exact applyBinary_early hright h ..

theorem integral_early (operator : Operator) (spelling : String) :
    Says allowed (integral operator spelling left right span) fun result =>
      allowed result.span := by
  refine (requireIntegers_early spelling hleft hright).bind fun areIntegers _ => ?_
  split
  · exact applyBinary_early hright h ..
  · exact .pure h

omit hleft in
theorem elementwise_early (operator : Operator) (spelling : String) :
    Says allowed (elementwise operator spelling left right span) fun result =>
      allowed result.span := by
  simp only [elementwise]
  split
  · exact (ExpressionProblem.report_early _ h).map fun _ _ => h
  · exact applyBinary_early hright h ..

theorem comparison_early (operator : Operator) :
    Says allowed (comparison operator left right span) fun result => allowed result.span := by
  simp only [comparison]
  split
  · exact applyPromoted_early hleft hright h ..
  · exact applyBinary_early hright h ..

theorem binary_early (operator : BinaryOperator) :
    Says allowed (binary operator left right span) fun result => allowed result.span := by
  simp only [binary]
  split
  · exact .pure h
  · cases operator with
    | add | subtract | modulo | multiply => exact arithmetic_early hleft hright h ..
    | divide => exact applyPromoted_early hleft hright h ..
    | multiplyReal | divideReal => exact elementwise_early hright h ..
    | equal | notEqual | less | lessEqual | greater | greaterEqual =>
        exact comparison_early hleft hright h ..
    | _ => exact integral_early hleft hright h ..

end Binary

theorem unify_early {left right : Computation} (hleft : allowed left.span)
    (hright : allowed right.span) : Says allowed (unify left right) fun _ => True := by
  simp only [unify]
  split
  · exact .pure trivial
  · exact (promote_early hleft).bind fun _ _ => (promote_early hright).map fun _ _ => trivial

theorem call_early (intrinsic : Intrinsic) {arguments : List Computation} {span : Span}
    (harguments : ∀ argument ∈ arguments, allowed argument.span) (h : allowed span) :
    Says allowed (call intrinsic arguments span) fun result => allowed result.span := by
  simp only [call]
  split
  case h_6 | h_7 | h_8 =>
      exact (unify_early (harguments _ (by simp)) (harguments _ (by simp))).bind fun _ _ =>
        apply_early _ _ _ h
  case h_9 => exact (ExpressionProblem.report_early _ h).map fun _ _ => h
  all_goals exact apply_early _ _ _ h

end Computation

namespace Expr

mutual

/-- The spans of an expression and of its parts are allowed. -/
def Within (allowed : Span → Prop) : Expr → Prop
  | .literal span _ | .string span _ | .register span _ _ | .codeAddress span _ _ _
  | .error span => allowed span
  | .unary span _ operand => allowed span ∧ operand.Within allowed
  | .binary span _ left right => allowed span ∧ left.Within allowed ∧ right.Within allowed
  | .call span _ arguments => allowed span ∧ AllWithin allowed arguments

/-- The spans of some expressions and of their parts are allowed. -/
def AllWithin (allowed : Span → Prop) : List Expr → Prop
  | [] => True
  | first :: rest => first.Within allowed ∧ AllWithin allowed rest

end

theorem allWithin_iff {exprs : List Expr} :
    AllWithin allowed exprs ↔ ∀ expr ∈ exprs, expr.Within allowed := by
  induction exprs with
  | nil => simp [AllWithin]
  | cons first rest ih => simp [AllWithin, ih]

theorem Within.span {expr : Expr} (h : expr.Within allowed) : allowed expr.span := by
  cases expr with
  | unary | binary | call => exact h.1
  | _ => exact h

mutual

theorem compute_early {expr : Expr} (h : expr.Within allowed) :
    Says allowed expr.compute fun result => allowed result.span := by
  match expr, h with
  | .literal _ _, h | .register _ _ _, h | .error _, h => exact .pure h
  | .string _ _, h | .codeAddress _ _ _ _, h =>
      exact (ExpressionProblem.report_early _ h).map fun _ _ => h
  | .unary _ _ operand, h =>
      exact (compute_early h.2).bind fun _ hoperand => Computation.unary_early _ hoperand h.1
  | .binary _ _ left right, h =>
      exact (compute_early h.2.1).bind fun _ hleft => (compute_early h.2.2).bind fun _ hright =>
        Computation.binary_early hleft hright h.1 _
  | .call _ _ arguments, h =>
      simp only [compute, computeIn]
      split
      · exact (ExpressionProblem.report_early _ h.1).map fun _ _ => h.1
      · refine (computeAll_early h.2).bind fun values hvalues => ?_
        split
        · exact Computation.call_early _ (hvalues _ rfl) h.1
        · exact .pure h.1

theorem computeAll_early {exprs : List Expr} (h : AllWithin allowed exprs) :
    Says allowed (computeAll exprs) fun result =>
      ∀ values ∈ result, ∀ value ∈ values, allowed value.span := by
  match exprs, h with
  | [], _ => exact .pure fun _ hvalues => by cases hvalues; nofun
  | first :: rest, h =>
      refine (compute_early h.1).bind fun value hvalue => ?_
      split
      · exact .pure nofun
      · exact (computeAll_early h.2).mapSome fun _ hvalues =>
          List.forall_mem_cons.mpr ⟨hvalue, hvalues⟩

end

variable {expr : Expr} (h : expr.Within allowed)

include h

theorem evaluate_early : Says allowed expr.evaluate fun _ => True := by
  refine (compute_early h).bind fun computation _ => ?_
  split
  · exact .pure trivial
  · exact .pure trivial
  · exact (ExpressionProblem.report_early _ h.span).map fun _ _ => trivial

theorem toNumber_early : Says allowed expr.toNumber fun _ => True := by
  refine (compute_early h).bind fun computation _ => ?_
  split
  · exact .pure trivial
  · split
    · exact .pure trivial
    · exact OperandProblem.refuse_early _ h.span trivial

theorem toBounded_early (limit : Int) (problem : OperandProblem) :
    Says allowed (expr.toBounded limit problem) fun _ => True := by
  refine (compute_early h).bind fun computation _ => ?_
  split
  · exact .pure trivial
  · split
    · split
      · exact .pure trivial
      · exact problem.refuse_early h.span trivial
    · exact problem.refuse_early h.span trivial

theorem toRegister_early : Says allowed expr.toRegister fun _ => True := by
  cases expr with
  | register | error => exact .pure trivial
  | _ => exact OperandProblem.refuse_early _ h.span trivial

theorem toText_early : Says allowed expr.toText fun _ => True := by
  cases expr with
  | string | error => exact .pure trivial
  | _ => exact OperandProblem.refuse_early _ h.span trivial

theorem toTarget_early :
    Says allowed expr.toTarget fun result => ∀ target ∈ result, allowed target.span := by
  simp only [toTarget]
  split
  · exact .pure fun _ htarget => by cases htarget; exact h
  · exact .pure fun _ htarget => by cases htarget; exact h
  · exact .pure nofun
  · exact OperandProblem.refuse_early _ h.span nofun

theorem toTerms_early : Says allowed expr.toTerms fun _ => True :=
  (compute_early h).map fun _ _ => trivial

end Expr

end NovelAsm
