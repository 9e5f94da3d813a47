import Mathlib
import NovelAsm.CodeUnit.Operands
import NovelAsm.Proofs.Code.Codec
import NovelAsm.Proofs.Steps

/-!
The stack behind a computed expression. Whatever an expression comes to, its terms leave
one value more on the stack than there was before and never take from below it: each
operator is applied to as many computations as it takes.
-/

namespace NovelAsm

open Reporting

namespace Term

/-- Terms that leave one value on any stack. -/
def Leaves (terms : List Term) : Prop :=
  ∀ height, heightAfter? height terms = some (height + 1)

theorem heightAfter?_append (height : Nat) (terms more : List Term) :
    heightAfter? height (terms ++ more) =
      (heightAfter? height terms).bind fun behind => heightAfter? behind more := by
  induction terms generalizing height with
  | nil => rfl
  | cons first rest ih =>
      cases first with
      | push number => exact ih (height + 1)
      | apply operator =>
          simp only [List.cons_append, heightAfter?]
          split
          · rfl
          · exact ih _

theorem leaves_push (number : Number) : Leaves [.push number] := fun _ => rfl

theorem heightAfter?_flatMap {α : Type} (items : List α) (terms : α → List Term)
    (h : ∀ item ∈ items, Leaves (terms item)) (height : Nat) :
    heightAfter? height (items.flatMap terms) = some (height + items.length) := by
  induction items generalizing height with
  | nil => rfl
  | cons first rest ih =>
      rw [List.flatMap_cons, heightAfter?_append, h first (List.mem_cons_self ..),
        Option.bind_some, ih fun item hitem => h item (List.mem_cons_of_mem _ hitem),
        List.length_cons]
      congr 1
      omega

/-- An operator behind as many operands as it takes leaves one value. -/
theorem leaves_apply {α : Type} {operator : Operator} {items : List α} {terms : α → List Term}
    (h : ∀ item ∈ items, Leaves (terms item)) (harity : operator.arity = items.length) :
    Leaves (items.flatMap terms ++ [.apply operator]) := by
  intro height
  rw [heightAfter?_append, heightAfter?_flatMap items terms h, Option.bind_some]
  have henough : ¬ height + items.length < operator.arity := by omega
  have hleft : height + items.length - operator.arity + 1 = height + 1 := by omega
  simp only [heightAfter?, if_neg henough, hleft]

/-- A factor behind a value leaves one value. -/
theorem leaves_scaled {terms : List Term} (h : Leaves terms) (factor : Number) :
    Leaves (terms ++ [.push factor, .apply .multiply]) := by
  intro height
  rw [heightAfter?_append, h height]
  rfl

end Term

namespace Computation

/-- The terms of a computation, if it has some, have a property. -/
def Has (P : List Term → Prop) (computation : Computation) : Prop :=
  ∀ terms, computation.outcome = .terms terms → P terms

/-- The terms of a computation, if it has some, leave one value. -/
def Sound (computation : Computation) : Prop :=
  ∀ terms, computation.outcome = .terms terms → Term.Leaves terms

/-- A property of terms that every step of a computation keeps. Operators whose operands are all
constants are applied only if they cannot be folded. -/
structure Inherits (P : List Term → Prop) : Prop where
  register : ∀ source, P [.push (.register source)]
  scaled : ∀ terms, P terms →
    P (terms ++ [.push (.constant (Int32.ofInt Operator.scale)), .apply .multiply])
  apply : ∀ (operator : Operator) (operands : List Computation),
    operator.arity = operands.length →
    (∀ operand ∈ operands, operand.isValid = true ∧ operand.Has P) →
    (operands.mapM constant?).bind operator.fold? = none →
    P (operands.flatMap toTerms ++ [.apply operator])

theorem has_of_not_terms {P : List Term → Prop} {computation : Computation}
    (h : ∀ terms, computation.outcome ≠ .terms terms) : computation.Has P :=
  fun terms hterms => absurd hterms (h terms)

theorem has_constant (P : List Term → Prop) (kind : ValueKind) (value : Int32) (span : Span) :
    Has P ⟨kind, .constant value, span⟩ := has_of_not_terms fun _ h => by cases h

theorem has_none (P : List Term → Prop) (kind : ValueKind) (span : Span) :
    Has P ⟨kind, .invalid, span⟩ := has_of_not_terms fun _ h => by cases h

theorem has_invalid (P : List Term → Prop) (span : Span) : (invalid span).Has P :=
  has_none P .integer span

theorem leaves_toTerms {computation : Computation} (h : computation.Sound)
    (hvalid : computation.isValid = true) : Term.Leaves computation.toTerms := by
  obtain ⟨kind, outcome, span⟩ := computation
  cases outcome with
  | constant value => exact Term.leaves_push _
  | terms terms => exact h terms rfl
  | invalid => simp [isValid] at hvalid

theorem inherits_leaves : Inherits Term.Leaves where
  register _ := Term.leaves_push _
  scaled _ h := Term.leaves_scaled h _
  apply _ _ harity h _ := Term.leaves_apply (fun operand hoperand =>
    leaves_toTerms (h operand hoperand).2 (h operand hoperand).1) harity

section Inherited

variable {P : List Term → Prop} (hP : Inherits P)

include hP

theorem promote_has {computation : Computation} (h : computation.Has P) :
    Ensures computation.promote (Has P) := by
  simp only [promote]
  split
  · exact Ensures.pure h
  · split
    · exact Ensures.pure h
    · split
      · exact Ensures.pure (has_constant P _ _ _)
      · exact Ensures.behind fun _ => Ensures.pure (has_invalid P _)
    · rename_i terms hterms
      apply Ensures.pure
      intro scaled hscaled
      cases hscaled
      exact hP.scaled terms (h terms hterms)

theorem apply_has {operator : Operator} {operands : List Computation} {kind : ValueKind}
    {span : Span} (h : ∀ operand ∈ operands, operand.Has P)
    (harity : operator.arity = operands.length) :
    Ensures (apply operator operands kind span) (Has P) := by
  simp only [apply]
  split
  · exact Ensures.pure (has_invalid P span)
  · rename_i hvalid
    have hvalid : ∀ operand ∈ operands, operand.isValid = true := by
      simpa using hvalid
    split
    · exact Ensures.pure (has_constant P _ _ _)
    · exact Ensures.behind fun _ => Ensures.pure (has_none P _ _)
    · rename_i hfold
      apply Ensures.pure
      intro terms hterms
      cases hterms
      exact hP.apply operator operands harity
        (fun operand hoperand => ⟨hvalid operand hoperand, h operand hoperand⟩) hfold

theorem apply_one {operator : Operator} {operand : Computation} {kind : ValueKind} {span : Span}
    (h : operand.Has P) (harity : operator.arity = 1) :
    Ensures (apply operator [operand] kind span) (Has P) :=
  apply_has hP (List.forall_mem_singleton.mpr h) harity

theorem unary_has {operand : Computation} (operator : UnaryOperator) (span : Span)
    (h : operand.Has P) : Ensures (unary operator operand span) (Has P) := by
  simp only [unary]
  split
  · exact Ensures.pure (has_invalid P span)
  · cases operator with
    | negate => exact apply_one hP h rfl
    | logicalNot => exact apply_one hP h rfl
    | bitNot =>
        apply Ensures.behind
        intro isInteger
        split
        · exact apply_one hP h rfl
        · exact Ensures.pure (has_invalid P span)

section Binary

variable {left right : Computation} {operator : Operator} {kind : ValueKind} {span : Span}
  (hleft : left.Has P) (hright : right.Has P)

include hleft hright

theorem applyBinary_has (harity : operator.arity = 2) :
    Ensures (applyBinary operator left right kind span) (Has P) := by
  simp only [applyBinary]
  split
  · exact Ensures.pure (has_invalid P span)
  · split
    · exact Ensures.behind fun _ => Ensures.pure (has_invalid P span)
    · exact apply_has hP (by simpa using ⟨hleft, hright⟩) harity

theorem applyPromoted_has (harity : operator.arity = 2) :
    Ensures (applyPromoted operator left right kind span) (Has P) := by
  refine (promote_has hP hleft).bind ?_
  intro left hleft
  refine (promote_has hP hright).bind ?_
  intro right hright
  exact applyBinary_has hP hleft hright harity

theorem arithmetic_has {onReals : Operator} (harity : operator.arity = 2)
    (hreals : onReals.arity = 2) :
    Ensures (arithmetic operator onReals left right span) (Has P) := by
  simp only [arithmetic]
  split
  · exact applyPromoted_has hP hleft hright hreals
  · exact applyBinary_has hP hleft hright harity

theorem integral_has (spelling : String) (harity : operator.arity = 2) :
    Ensures (integral operator spelling left right span) (Has P) := by
  apply Ensures.behind
  intro areIntegers
  split
  · exact applyBinary_has hP hleft hright harity
  · exact Ensures.pure (has_invalid P span)

theorem elementwise_has (spelling : String) (harity : operator.arity = 2) :
    Ensures (elementwise operator spelling left right span) (Has P) := by
  simp only [elementwise]
  split
  · exact Ensures.behind fun _ => Ensures.pure (has_invalid P span)
  · exact applyBinary_has hP hleft hright harity

theorem comparison_has (harity : operator.arity = 2) :
    Ensures (comparison operator left right span) (Has P) := by
  simp only [comparison]
  split
  · exact applyPromoted_has hP hleft hright harity
  · exact applyBinary_has hP hleft hright harity

theorem binary_has (operator : BinaryOperator) :
    Ensures (binary operator left right span) (Has P) := by
  simp only [binary]
  split
  · exact Ensures.pure (has_invalid P span)
  · cases operator with
    | add | subtract | modulo | multiply => exact arithmetic_has hP hleft hright rfl rfl
    | divide => exact applyPromoted_has hP hleft hright rfl
    | integerDivide | shiftLeft | shiftRight | bitAnd | bitOr | bitXor | logicalAnd
    | logicalOr => exact integral_has hP hleft hright _ rfl
    | multiplyReal | divideReal => exact elementwise_has hP hleft hright _ rfl
    | equal | notEqual | less | lessEqual | greater | greaterEqual =>
        exact comparison_has hP hleft hright rfl

theorem unify_has :
    Ensures (unify left right) fun (left, right, _) => left.Has P ∧ right.Has P := by
  simp only [unify]
  split
  · exact Ensures.pure ⟨hleft, hright⟩
  · refine (promote_has hP hleft).bind ?_
    intro left hleft
    refine (promote_has hP hright).bind ?_
    intro right hright
    exact Ensures.pure ⟨hleft, hright⟩

end Binary

theorem call_has {arguments : List Computation} (intrinsic : Intrinsic) (span : Span)
    (h : ∀ argument ∈ arguments, argument.Has P) :
    Ensures (call intrinsic arguments span) (Has P) := by
  unfold call
  split
  case h_1 | h_2 | h_3 | h_4 | h_5 => exact apply_one hP (h _ (List.mem_singleton_self _)) rfl
  case h_6 a b | h_7 a b =>
      refine (unify_has hP (h a (by simp)) (h b (by simp))).bind ?_
      rintro ⟨left, right, kind⟩ ⟨hleft, hright⟩
      exact apply_has hP (by simpa using ⟨hleft, hright⟩) rfl
  case h_8 condition whenTrue whenFalse =>
      refine (unify_has hP (h whenTrue (by simp)) (h whenFalse (by simp))).bind ?_
      rintro ⟨whenTrue, whenFalse, kind⟩ ⟨htrue, hfalse⟩
      exact apply_has hP (by simpa using ⟨hfalse, htrue, h condition (by simp)⟩) rfl
  case h_9 => exact Ensures.behind fun _ => Ensures.pure (has_invalid P span)

end Inherited

theorem promote_sound {computation : Computation} (h : computation.Sound) :
    Ensures computation.promote Sound := promote_has inherits_leaves h

end Computation

namespace Expr

mutual

/-- The terms that an expression comes to have what every step keeps. -/
theorem compute_has {P : List Term → Prop} (hP : Computation.Inherits P) :
    ∀ expr : Expr, Ensures expr.compute (Computation.Has P)
  | .literal _ _ => Ensures.pure (Computation.has_constant P _ _ _)
  | .register _ source _ => Ensures.pure fun terms hterms => by
      cases hterms
      exact hP.register source
  | .string span _ => Ensures.behind fun _ => Ensures.pure (Computation.has_invalid P span)
  | .codeAddress span _ _ _ =>
      Ensures.behind fun _ => Ensures.pure (Computation.has_invalid P span)
  | .unary span operator operand =>
      Ensures.bind (compute_has hP operand) fun _ h => Computation.unary_has hP operator span h
  | .binary _ operator left right =>
      Ensures.bind (compute_has hP left) fun _ hleft =>
        Ensures.bind (compute_has hP right) fun _ hright =>
          Computation.binary_has hP hleft hright operator
  | .call span intrinsic arguments => by
      have hall := computeAll_has hP arguments
      simp only [compute, computeIn]
      split
      · exact Ensures.behind fun _ => Ensures.pure (Computation.has_invalid P span)
      · refine Ensures.bind hall ?_
        intro values hvalues
        split
        · rename_i values
          exact Computation.call_has hP intrinsic span (hvalues values rfl)
        · exact Ensures.pure (Computation.has_invalid P span)
  | .error span => Ensures.pure (Computation.has_invalid P span)

theorem computeAll_has {P : List Term → Prop} (hP : Computation.Inherits P) :
    ∀ exprs : List Expr, Finds (computeAll exprs) fun values => ∀ value ∈ values, value.Has P
  | [] => finds_some (List.forall_mem_nil _)
  | first :: rest => by
      have hfirst := compute_has hP first
      have hrest := computeAll_has hP rest
      simp only [computeAll, computeAllIn]
      refine hfirst.bind ?_
      intro value hvalue
      split
      · exact finds_none
      · refine Finds.map hrest fun values hvalues => ?_
        simpa using ⟨hvalue, hvalues⟩

end

/-- What an expression comes to is sound. -/
theorem compute_sound (expr : Expr) : Ensures expr.compute Computation.Sound :=
  compute_has Computation.inherits_leaves expr

/-- The terms of an expression are an operand of the machine. -/
theorem toTerms_leaves (expr : Expr) : Finds expr.toTerms Term.Leaves := by
  refine (compute_sound expr).bind ?_
  intro computation hsound
  split
  · rename_i hvalid
    exact finds_some (Computation.leaves_toTerms hsound hvalid)
  · exact finds_none

end Expr

end NovelAsm
