import NovelAsm.Proofs.Erasure.Expressions
import NovelAsm.Proofs.Renaming.Steps
import NovelAsm.Proofs.Renaming.Trees

/-!
Expressions with other names. A code address has a name, and a register the spelling by which it
was written. Neither takes part in a computation: an address is complained of.
-/

namespace NovelAsm

variable (names : Names)

namespace Expr

mutual

def rename : Expr → Expr
  | .register span source spelling => .register span source (names.register spelling)
  | .codeAddress span name kind parameterCount =>
      .codeAddress span (names.symbol name) kind parameterCount
  | .unary span operator operand => .unary span operator (rename operand)
  | .binary span operator left right => .binary span operator (rename left) (rename right)
  | .call span intrinsic arguments => .call span intrinsic (renameAll arguments)
  | .literal span value => .literal span value
  | .string span text => .string span text
  | .error span => .error span

def renameAll : List Expr → List Expr
  | [] => []
  | first :: rest => rename first :: renameAll rest

end

theorem renameAll_eq (expressions : List Expr) :
    renameAll names expressions = expressions.map (rename names) := by
  induction expressions with
  | nil => rfl
  | cons first rest ih => rw [renameAll, ih, List.map_cons]

@[simp] theorem span_rename (expr : Expr) : (expr.rename names).span = expr.span := by
  cases expr <;> rfl

@[simp] theorem isError_rename (expr : Expr) : (expr.rename names).isError = expr.isError := by
  cases expr <;> rfl

mutual

/-- What an expression comes to does not depend on names. -/
theorem compute_repeats : ∀ expr : Expr, Repeats id expr.compute (expr.rename names).compute
  | .literal _ _ | .register _ _ _ | .error _ => by
      simp only [rename, compute, computeIn]
      exact .pure rfl
  | .string _ _ | .codeAddress _ _ _ _ => by
      simp only [rename, compute, computeIn]
      exact Repeats.behind_report _ (Silently.pure trivial : Silently _ fun _ => True)
  | .unary span operator operand => by
      simp only [rename, compute, computeIn]
      exact (compute_repeats operand).bind fun value =>
        Repeats.of_erases fun _ => Computation.unary_erases operator value span
  | .binary span operator left right => by
      simp only [rename, compute, computeIn]
      exact (compute_repeats left).bind fun left => (compute_repeats right).bind fun right =>
        Repeats.of_erases fun _ => Computation.binary_erases operator left right span
  | .call span intrinsic arguments => by
      have hall := computeAll_repeats arguments
      simp only [rename, compute, computeIn]
      rw [renameAll_eq] at hall ⊢
      rw [List.length_map]
      refine .ite Iff.rfl ?_ (hall.bind fun values => ?_)
      · exact Repeats.behind_report _ (Silently.pure trivial : Silently _ fun _ => True)
      · cases values with
        | none => exact .pure rfl
        | some values =>
            exact Repeats.of_erases fun _ => Computation.call_erases intrinsic values span

theorem computeAll_repeats : ∀ expressions : List Expr,
    Repeats id (computeAll expressions) (computeAll (renameAll names expressions))
  | [] => .pure rfl
  | first :: rest => by
      simp only [renameAll, computeAll, computeAllIn]
      exact (compute_repeats first).bind fun value => .ite Iff.rfl (.pure rfl)
        ((computeAll_repeats rest).map fun values => rfl)

end

theorem evaluate_repeats (expr : Expr) : Repeats id expr.evaluate (expr.rename names).evaluate := by
  simp only [evaluate, span_rename]
  refine (compute_repeats names expr).bind fun computation => ?_
  obtain ⟨kind, outcome, span⟩ := computation
  cases outcome with
  | constant | invalid => exact .pure rfl
  | terms =>
      exact Repeats.behind_report _ (Silently.pure trivial : Silently _ fun _ => True)

end Expr

end NovelAsm
