import NovelAsm.Proofs.Expr.Machine

/-!
Constants found while assembling are the values that the machine would leave.

An expression is computed twice here: as it is written, and with the contents of the
registers in place of the registers. The first may leave terms where the second finds a
constant. `Follows` relates the two, and every step of the computation keeps it: where the
second is valid, the first is valid and of its kind, and where the second is a constant, the
terms of the first leave that constant.
-/

namespace NovelAsm

open Reporting

namespace Computation

variable {registers : Register → Int32} {opened closed : Computation}

/-- A computation finds what another one finds in which the registers have their values. -/
structure Agrees (registers : Register → Int32) (opened closed : Computation) : Prop where
  sound : opened.Sound
  isValid : opened.isValid = true
  kind : opened.kind = closed.kind
  constant : ∀ value, opened.outcome = .constant value → closed.outcome = .constant value
  valueIn : ∀ value, closed.outcome = .constant value →
    opened.valueIn registers = some value

/-- A computation agrees with another one if that is valid. -/
def Follows (registers : Register → Int32) (opened closed : Computation) : Prop :=
  closed.isValid = true → opened.Agrees registers closed

theorem follows_of_invalid (h : closed.isValid = false) (opened : Computation) :
    opened.Follows registers closed := by
  intro hvalid
  rw [h] at hvalid
  contradiction

/-- A refused expression asks for nothing. -/
theorem relates_invalid (step : Reporting Computation) (span : Span) :
    Relates (Follows registers) step (pure (invalid span) : Reporting Computation) :=
  Ensures.relates (Ensures.pure (follows_of_invalid rfl))

theorem relates_refused {β : Type} (step : Reporting Computation) (report : Reporting β)
    (span : Span) :
    Relates (Follows registers) step (do let _ ← report; return invalid span) :=
  Ensures.relates (Ensures.behind fun _ => Ensures.pure (follows_of_invalid rfl))

theorem follows_constant (kind : ValueKind) (value : Int32) (place span : Span) :
    Follows registers ⟨kind, .constant value, place⟩ ⟨kind, .constant value, span⟩ := by
  intro _
  constructor
  · intro _ h
    cases h
  · rfl
  · rfl
  · intro _ h
    exact h
  · intro _ h
    cases h
    rfl

theorem isValid_of_constant {value : Int32} (h : closed.outcome = .constant value) :
    closed.isValid = true := by
  rw [isValid, h]
  rfl

/-- Terms agree with terms of their kind, whatever those are. -/
theorem agrees_terms {kind : ValueKind} {terms : List Term} {span : Span}
    (hleaves : Term.Leaves terms) (hkind : kind = closed.kind)
    (hvalue : ∀ value, closed.outcome = .constant value →
      Computation.valueIn registers ⟨kind, .terms terms, span⟩ = some value) :
    Agrees registers ⟨kind, .terms terms, span⟩ closed := by
  constructor
  · intro _ h
    cases h
    exact hleaves
  · rfl
  · exact hkind
  · intro _ h
    cases h
  · exact hvalue

theorem agrees_other_terms {kind : ValueKind} {terms more : List Term} {span place : Span}
    (hleaves : Term.Leaves terms) :
    Agrees registers ⟨kind, .terms terms, span⟩ ⟨kind, .terms more, place⟩ :=
  agrees_terms hleaves rfl fun _ h => by cases h

/-- A promotion keeps a computation and the one that it follows together. -/
theorem promote_follows (h : opened.Follows registers closed) :
    Relates (Follows registers) opened.promote closed.promote := by
  obtain ⟨kind, outcome, span⟩ := closed
  by_cases hinvalid : outcome = .invalid
  case pos =>
    subst hinvalid
    cases kind with
    | real => exact Ensures.relates (Ensures.pure (follows_of_invalid rfl))
    | integer => exact Ensures.relates (Ensures.pure (follows_of_invalid rfl))
  obtain ⟨hsound, hopened, hkind, hconstant, hvalue⟩ := h (by simpa [isValid] using hinvalid)
  obtain ⟨_, found, place⟩ := opened
  cases hkind
  cases kind with
  | real => exact Relates.pure h
  | integer =>
      cases found with
      | invalid => simp [isValid] at hopened
      | constant value =>
          cases hconstant value rfl
          rw [promote_constant, promote_constant]
          split
          · exact Relates.pure (follows_constant .real _ place span)
          · exact relates_refused _ _ span
      | terms terms =>
          rw [promote_terms]
          cases outcome with
          | invalid => contradiction
          | terms more =>
              rw [promote_terms]
              exact Relates.pure fun _ =>
                agrees_other_terms (Term.leaves_scaled (hsound terms rfl) _)
          | constant value =>
              rw [promote_constant]
              split
              · rename_i scaled hfit
                refine Relates.pure fun _ =>
                  agrees_terms (Term.leaves_scaled (hsound terms rfl) _) rfl ?_
                intro _ hscaled
                cases hscaled
                rw [valueIn_scaled (hsound terms rfl), hvalue value rfl, Option.bind_some, hfit]
              · exact relates_refused _ _ span

theorem mapM_constant?_eq_some {operands : List Computation} {values : List Int32} :
    operands.mapM constant? = some values ↔
      List.Forall₂ (fun operand value => operand.outcome = .constant value) operands values := by
  induction operands generalizing values with
  | nil => simp [eq_comm]
  | cons first rest ih =>
      rw [List.mapM_cons, List.forall₂_cons_left_iff]
      simp only [Option.bind_eq_bind, Option.bind_eq_some_iff, constant?_eq_some, ih,
        Option.pure_def, Option.some.injEq]
      constructor
      · rintro ⟨value, hvalue, others, hothers, rfl⟩
        exact ⟨value, others, hvalue, hothers, rfl⟩
      · rintro ⟨value, others, hvalue, hothers, rfl⟩
        exact ⟨value, hvalue, others, hothers, rfl⟩

section Apply

variable {operator : Operator} {operands others : List Computation} {kind : ValueKind}

theorem apply_of_valid (h : operands.all isValid = true) (span : Span) :
    apply operator operands kind span =
      match (operands.mapM constant?).bind operator.fold? with
      | some (.ok value) => pure ⟨kind, .constant value, span⟩
      | some (.error problem) => do
          (ExpressionProblem.ofFold problem).report span
          return ⟨kind, .invalid, span⟩
      | none => pure ⟨kind, .terms (operands.flatMap toTerms ++ [.apply operator]), span⟩ := by
  simp only [apply, h]
  rfl

theorem apply_of_invalid (h : operands.all isValid = false) (span : Span) :
    apply operator operands kind span = pure (invalid span) := by
  simp only [apply, h]
  rfl

/-- Operands that follow others, as far as all those are valid. -/
theorem forall₂_agrees (h : List.Forall₂ (Follows registers) operands others)
    (hvalid : others.all isValid = true) :
    List.Forall₂ (Agrees registers) operands others := by
  induction h with
  | nil => exact .nil
  | cons hfirst _ ih =>
      rw [List.all_cons, Bool.and_eq_true] at hvalid
      exact .cons (hfirst hvalid.1) (ih hvalid.2)

theorem mapM_constant?_agrees (h : List.Forall₂ (Agrees registers) operands others)
    {values : List Int32} (hvalues : operands.mapM constant? = some values) :
    others.mapM constant? = some values := by
  rw [mapM_constant?_eq_some] at hvalues ⊢
  induction h generalizing values with
  | nil => exact hvalues
  | cons hfirst _ ih =>
      cases hvalues with
      | cons hvalue hrest => exact .cons (hfirst.constant _ hvalue) (ih hrest)

theorem mapM_valueIn_agrees (h : List.Forall₂ (Agrees registers) operands others)
    {values : List Int32} (hvalues : others.mapM constant? = some values) :
    operands.mapM (Computation.valueIn registers) = some values := by
  rw [mapM_constant?_eq_some] at hvalues
  induction h generalizing values with
  | nil =>
      cases hvalues
      rfl
  | cons hfirst _ ih =>
      cases hvalues with
      | cons hvalue hrest =>
          rw [List.mapM_cons, hfirst.valueIn _ hvalue, ih hrest]
          rfl

theorem agrees_of_mem (h : List.Forall₂ (Agrees registers) operands others) :
    ∀ operand ∈ operands, operand.Sound ∧ operand.isValid = true := by
  induction h with
  | nil =>
      intro _ hmem
      cases hmem
  | cons hfirst _ ih => simpa using ⟨⟨hfirst.sound, hfirst.isValid⟩, ih⟩

/-- An application to operands that follow others follows the application to those. -/
theorem apply_follows {other : ValueKind} {place span : Span}
    (h : List.Forall₂ (Follows registers) operands others)
    (harity : operator.arity = others.length)
    (hkind : others.all isValid = true → kind = other) :
    Relates (Follows registers) (apply operator operands kind place)
      (apply operator others other span) := by
  cases hvalid : others.all isValid with
  | false =>
      rw [apply_of_invalid hvalid]
      exact relates_invalid _ span
  | true =>
      have hagrees := forall₂_agrees h hvalid
      have hsound := fun operand hoperand => (agrees_of_mem hagrees operand hoperand).1
      have hopened := fun operand hoperand => (agrees_of_mem hagrees operand hoperand).2
      have hlength : operator.arity = operands.length := harity.trans h.length_eq.symm
      have hleaves : Term.Leaves (operands.flatMap toTerms ++ [.apply operator]) :=
        Term.leaves_apply
          (fun operand hoperand =>
            leaves_toTerms (hsound operand hoperand) (hopened operand hoperand))
          hlength
      cases hkind hvalid
      rw [apply_of_valid (List.all_eq_true.mpr hopened), apply_of_valid hvalid]
      cases hoperands : operands.mapM constant? with
      | some values =>
          rw [mapM_constant?_agrees hagrees hoperands, Option.bind_some]
          split
          · exact Relates.pure (follows_constant kind _ place span)
          · exact Ensures.relates (Ensures.behind fun _ => Ensures.pure (follows_of_invalid rfl))
          · exact Relates.pure fun _ => agrees_other_terms hleaves
      | none =>
          cases hfold : (others.mapM constant?).bind operator.fold? with
          | none => exact Relates.pure fun _ => agrees_other_terms hleaves
          | some outcome =>
              cases outcome with
              | error problem =>
                  exact Ensures.relates
                    (Ensures.behind fun _ => Ensures.pure (follows_of_invalid rfl))
              | ok value =>
                  obtain ⟨values, hvalues, hvalue⟩ := Option.bind_eq_some_iff.mp hfold
                  refine Relates.pure fun _ => agrees_terms hleaves rfl ?_
                  intro _ hfound
                  cases hfound
                  rw [valueIn_operands hsound hopened hlength, mapM_valueIn_agrees hagrees hvalues,
                    Option.bind_some, Operator.value?, hvalue]

theorem apply_one_follows {other : ValueKind} {place span : Span}
    (h : opened.Follows registers closed) (harity : operator.arity = 1)
    (hkind : closed.isValid = true → kind = other) :
    Relates (Follows registers) (apply operator [opened] kind place)
      (apply operator [closed] other span) :=
  apply_follows (.cons h .nil) harity (by simpa using hkind)

end Apply

/-- The check for an integer sees the kind alone. -/
theorem requireInteger_relates (spelling : String) (h : opened.kind = closed.kind) :
    Relates Eq (requireInteger spelling opened) (requireInteger spelling closed) := by
  have hreal : opened.isReal = closed.isReal := by rw [isReal, h, isReal]
  simp only [requireInteger, hreal]
  split
  · exact fun _ _ => rfl
  · exact Relates.pure rfl

theorem unary_follows (operator : UnaryOperator) (place span : Span)
    (h : opened.Follows registers closed) :
    Relates (Follows registers) (unary operator opened place) (unary operator closed span) := by
  cases hvalid : closed.isValid with
  | false =>
      simp only [unary, hvalid]
      exact relates_invalid _ span
  | true =>
      have hagrees := h hvalid
      simp only [unary, hvalid, hagrees.isValid]
      cases operator with
      | negate => exact apply_one_follows h rfl fun _ => hagrees.kind
      | logicalNot => exact apply_one_follows h rfl fun _ => rfl
      | bitNot =>
          refine (requireInteger_relates "~" hagrees.kind).bind ?_
          rintro isInteger _ rfl
          split
          · exact apply_one_follows h rfl fun _ => rfl
          · exact relates_invalid _ span

section Binary

variable {left right leftClosed rightClosed : Computation} {operator : Operator}
  {kind other : ValueKind} {place span : Span}

/-- A divisor that is a constant zero stays one when the registers get their values. -/
theorem zeroDivisor_agrees (h : right.Agrees registers rightClosed)
    (hzero : (operator.isDivision && right.constant? == some 0) = true) :
    (operator.isDivision && rightClosed.constant? == some 0) = true := by
  rw [Bool.and_eq_true, beq_iff_eq, constant?_eq_some] at hzero ⊢
  exact ⟨hzero.1, h.constant 0 hzero.2⟩

theorem applyBinary_follows (hleft : left.Follows registers leftClosed)
    (hright : right.Follows registers rightClosed) (harity : operator.arity = 2)
    (hkind : leftClosed.isValid = true → kind = other) :
    Relates (Follows registers) (applyBinary operator left right kind place)
      (applyBinary operator leftClosed rightClosed other span) := by
  simp only [applyBinary]
  by_cases hvalid : (!leftClosed.isValid || !rightClosed.isValid) = true
  case pos =>
    rw [if_pos hvalid]
    exact relates_invalid _ span
  have hvalid : leftClosed.isValid = true ∧ rightClosed.isValid = true := by simpa using hvalid
  have hleftAgrees := hleft hvalid.1
  have hrightAgrees := hright hvalid.2
  simp only [hvalid.1, hvalid.2, hleftAgrees.isValid, hrightAgrees.isValid]
  by_cases hzero : (operator.isDivision && rightClosed.constant? == some 0) = true
  case pos =>
    rw [if_pos hzero]
    exact relates_refused _ _ span
  have hopened : ¬ (operator.isDivision && right.constant? == some 0) = true :=
    fun h => hzero (zeroDivisor_agrees hrightAgrees h)
  rw [if_neg hzero, if_neg hopened]
  exact apply_follows (.cons hleft (.cons hright .nil)) harity fun _ => hkind hvalid.1

theorem applyPromoted_follows (hleft : left.Follows registers leftClosed)
    (hright : right.Follows registers rightClosed) (harity : operator.arity = 2) :
    Relates (Follows registers) (applyPromoted operator left right kind place)
      (applyPromoted operator leftClosed rightClosed kind span) := by
  refine (promote_follows hleft).bind ?_
  intro left leftClosed hleft
  refine (promote_follows hright).bind ?_
  intro right rightClosed hright
  exact applyBinary_follows hleft hright harity fun _ => rfl

theorem isReal_agrees (h : opened.Agrees registers closed) : opened.isReal = closed.isReal := by
  rw [isReal, h.kind, isReal]

variable (hleft : left.Agrees registers leftClosed) (hright : right.Agrees registers rightClosed)

include hleft hright

theorem arithmetic_follows {onReals : Operator} (harity : operator.arity = 2)
    (hreals : onReals.arity = 2) :
    Relates (Follows registers) (arithmetic operator onReals left right place)
      (arithmetic operator onReals leftClosed rightClosed span) := by
  simp only [arithmetic, isReal_agrees hleft, isReal_agrees hright]
  split
  · exact applyPromoted_follows (fun _ => hleft) (fun _ => hright) hreals
  · exact applyBinary_follows (fun _ => hleft) (fun _ => hright) harity fun _ => rfl

theorem requireIntegers_relates (spelling : String) :
    Relates Eq (requireIntegers spelling left right)
      (requireIntegers spelling leftClosed rightClosed) := by
  refine (requireInteger_relates spelling hleft.kind).bind ?_
  rintro isInteger _ rfl
  split
  · exact requireInteger_relates spelling hright.kind
  · exact Relates.pure rfl

theorem integral_follows (spelling : String) (harity : operator.arity = 2) :
    Relates (Follows registers) (integral operator spelling left right place)
      (integral operator spelling leftClosed rightClosed span) := by
  refine (requireIntegers_relates hleft hright spelling).bind ?_
  rintro areIntegers _ rfl
  split
  · exact applyBinary_follows (fun _ => hleft) (fun _ => hright) harity fun _ => rfl
  · exact relates_invalid _ span

theorem elementwise_follows (spelling : String) (harity : operator.arity = 2) :
    Relates (Follows registers) (elementwise operator spelling left right place)
      (elementwise operator spelling leftClosed rightClosed span) := by
  simp only [elementwise, hleft.kind, hright.kind]
  split
  · exact relates_refused _ _ span
  · exact applyBinary_follows (fun _ => hleft) (fun _ => hright) harity fun _ => rfl

theorem comparison_follows (harity : operator.arity = 2) :
    Relates (Follows registers) (comparison operator left right place)
      (comparison operator leftClosed rightClosed span) := by
  simp only [comparison, hleft.kind, hright.kind]
  split
  · exact applyPromoted_follows (fun _ => hleft) (fun _ => hright) harity
  · exact applyBinary_follows (fun _ => hleft) (fun _ => hright) harity fun _ => rfl

end Binary

theorem binary_follows {left right leftClosed rightClosed : Computation}
    (operator : BinaryOperator) (place span : Span) (hleft : left.Follows registers leftClosed)
    (hright : right.Follows registers rightClosed) :
    Relates (Follows registers) (binary operator left right place)
      (binary operator leftClosed rightClosed span) := by
  simp only [binary]
  by_cases hvalid : (!leftClosed.isValid || !rightClosed.isValid) = true
  case pos =>
    rw [if_pos hvalid]
    exact relates_invalid _ span
  have hvalid : leftClosed.isValid = true ∧ rightClosed.isValid = true := by simpa using hvalid
  have hleft := hleft hvalid.1
  have hright := hright hvalid.2
  simp only [hvalid.1, hvalid.2, hleft.isValid, hright.isValid]
  cases operator with
  | add | subtract | modulo | multiply => exact arithmetic_follows hleft hright rfl rfl
  | divide => exact applyPromoted_follows (fun _ => hleft) (fun _ => hright) rfl
  | integerDivide | shiftLeft | shiftRight | bitAnd | bitOr | bitXor | logicalAnd
  | logicalOr => exact integral_follows hleft hright _ rfl
  | multiplyReal | divideReal => exact elementwise_follows hleft hright _ rfl
  | equal | notEqual | less | lessEqual | greater | greaterEqual =>
      exact comparison_follows hleft hright rfl

/-- Two values made of one kind. -/
theorem unify_follows {left right leftClosed rightClosed : Computation}
    (hleft : left.Agrees registers leftClosed) (hright : right.Agrees registers rightClosed) :
    Relates (fun (value : Computation × Computation × ValueKind) found =>
        value.1.Follows registers found.1 ∧ value.2.1.Follows registers found.2.1 ∧
          value.2.2 = found.2.2)
      (unify left right) (unify leftClosed rightClosed) := by
  simp only [unify, hleft.kind, hright.kind]
  split
  · exact Relates.pure ⟨fun _ => hleft, fun _ => hright, rfl⟩
  · refine (promote_follows fun _ => hleft).bind ?_
    intro left leftClosed hleft
    refine (promote_follows fun _ => hright).bind ?_
    intro right rightClosed hright
    exact Relates.pure ⟨hleft, hright, rfl⟩

theorem forall₂_cons_of_length {R : Computation → Computation → Prop}
    {arguments others : List Computation} {n : Nat} (h : List.Forall₂ R arguments others)
    (hlength : others.length = n + 1) :
    ∃ a b rest more, arguments = a :: rest ∧ others = b :: more ∧ R a b ∧
      List.Forall₂ R rest more ∧ more.length = n := by
  cases h with
  | nil => cases hlength
  | cons ha hrest => exact ⟨_, _, _, _, rfl, rfl, ha, hrest, by simpa using hlength⟩

/-- A call with valid arguments. The operands of `select` change places in both. -/
theorem call_follows {arguments others : List Computation} (intrinsic : Intrinsic)
    (place span : Span) (h : List.Forall₂ (Agrees registers) arguments others)
    (hlength : others.length = intrinsic.arity) :
    Relates (Follows registers) (call intrinsic arguments place)
      (call intrinsic others span) := by
  obtain ⟨a, b, rest, more, rfl, rfl, hfirst, hrest, hmore⟩ :=
    forall₂_cons_of_length (n := intrinsic.arity - 1) h (by cases intrinsic <;> exact hlength)
  cases intrinsic with
  | abs =>
      cases List.eq_nil_of_length_eq_zero hmore
      cases hrest
      exact apply_one_follows (fun _ => hfirst) rfl fun _ => hfirst.kind
  | nonzero | sin | cos | tan =>
      cases List.eq_nil_of_length_eq_zero hmore
      cases hrest
      exact apply_one_follows (fun _ => hfirst) rfl fun _ => rfl
  | min | max =>
      obtain ⟨c, d, rest, more, rfl, rfl, hsecond, hrest, hmore⟩ :=
        forall₂_cons_of_length (n := 0) hrest hmore
      cases List.eq_nil_of_length_eq_zero hmore
      cases hrest
      refine (unify_follows hfirst hsecond).bind ?_
      rintro ⟨a, c, kind⟩ ⟨b, d, _⟩ ⟨hfirst, hsecond, rfl⟩
      exact apply_follows (.cons hfirst (.cons hsecond .nil)) rfl fun _ => rfl
  | select =>
      obtain ⟨c, d, rest, more, rfl, rfl, hsecond, hrest, hmore⟩ :=
        forall₂_cons_of_length (n := 1) hrest hmore
      obtain ⟨e, f, rest, more, rfl, rfl, hthird, hrest, hmore⟩ :=
        forall₂_cons_of_length (n := 0) hrest hmore
      cases List.eq_nil_of_length_eq_zero hmore
      cases hrest
      refine (unify_follows hsecond hthird).bind ?_
      rintro ⟨c, e, kind⟩ ⟨d, f, _⟩ ⟨hsecond, hthird, rfl⟩
      exact apply_follows (.cons hthird (.cons hsecond (.cons (fun _ => hfirst) .nil))) rfl
        fun _ => rfl

end Computation

namespace Expr

mutual

/-- An expression with the integers that registers hold in place of the registers. -/
def instantiate (registers : Register → Int32) : Expr → Expr
  | .register span source _ => .literal span ⟨registers source, .integer⟩
  | .unary span operator operand => .unary span operator (instantiate registers operand)
  | .binary span operator left right =>
      .binary span operator (instantiate registers left) (instantiate registers right)
  | .call span intrinsic arguments => .call span intrinsic (instantiateAll registers arguments)
  | .literal span value => .literal span value
  | .string span text => .string span text
  | .codeAddress span name kind parameterCount => .codeAddress span name kind parameterCount
  | .error span => .error span

/-- Expressions with the integers that registers hold in place of the registers. -/
def instantiateAll (registers : Register → Int32) : List Expr → List Expr
  | [] => []
  | first :: rest => instantiate registers first :: instantiateAll registers rest

end

variable {registers : Register → Int32}

@[simp] theorem length_instantiateAll (exprs : List Expr) :
    (instantiateAll registers exprs).length = exprs.length := by
  induction exprs with
  | nil => simp only [instantiateAll]
  | cons first rest ih => simp only [instantiateAll, List.length_cons, ih]

/-- The arguments of a call agree one by one, as far as those of the other call are valid. -/
def AllAgree (registers : Register → Int32) (count : Nat)
    (values found : Option (List Computation)) : Prop :=
  ∀ others, found = some others →
    others.length = count ∧
      ∃ arguments, values = some arguments ∧
        List.Forall₂ (Computation.Agrees registers) arguments others

/-- One argument more. -/
theorem AllAgree.cons {count : Nat} {value first : Computation}
    {values found : Option (List Computation)} (hfirst : value.Agrees registers first)
    (h : AllAgree registers count values found) :
    AllAgree registers (count + 1) (values.map (value :: ·)) (found.map (first :: ·)) := by
  intro others hothers
  obtain ⟨rest, hrest, rfl⟩ := Option.map_eq_some_iff.mp hothers
  obtain ⟨hlength, arguments, rfl, hagree⟩ := h rest hrest
  exact ⟨congrArg (· + 1) hlength, value :: arguments, rfl, .cons hfirst hagree⟩

mutual

/-- What an expression comes to follows what it comes to when the registers are known. -/
theorem compute_follows : ∀ expr : Expr,
    Relates (Computation.Follows registers) expr.compute (expr.instantiate registers).compute
  | .literal span value => by
      simp only [instantiate, compute, computeIn]
      exact Relates.pure (Computation.follows_constant value.kind value.number span span)
  | .register span source _ => by
      simp only [instantiate, compute, computeIn]
      refine Relates.pure fun _ => Computation.agrees_terms (Term.leaves_push _) rfl ?_
      intro _ hvalue
      cases hvalue
      rfl
  | .string span text => by
      simp only [instantiate, compute, computeIn]
      exact Computation.relates_refused _ _ span
  | .codeAddress span name kind parameterCount => by
      simp only [instantiate, compute, computeIn]
      exact Computation.relates_refused _ _ span
  | .unary span operator operand => by
      simp only [instantiate, compute, computeIn]
      exact (compute_follows operand).bind fun _ _ h =>
        Computation.unary_follows operator span span h
  | .binary span operator left right => by
      simp only [instantiate, compute, computeIn]
      refine (compute_follows left).bind fun _ _ hleft => ?_
      exact (compute_follows right).bind fun _ _ hright =>
        Computation.binary_follows operator span span hleft hright
  | .call span intrinsic arguments => by
      simp only [instantiate, compute, computeIn, length_instantiateAll]
      split
      · exact Computation.relates_refused _ _ span
      · rename_i hcount
        have hcount : arguments.length = intrinsic.arity := by simpa using hcount
        refine (computeAll_follows arguments).bind ?_
        intro values found hvalues
        cases found with
        | none => exact Computation.relates_invalid _ span
        | some others =>
            obtain ⟨hlength, arguments, rfl, hagree⟩ := hvalues others rfl
            exact Computation.call_follows intrinsic span span hagree (hlength.trans hcount)
  | .error span => by
      simp only [instantiate, compute, computeIn]
      exact Computation.relates_invalid _ span

/-- The arguments of a call follow those with known registers, one by one. -/
theorem computeAll_follows : ∀ exprs : List Expr,
    Relates (AllAgree registers exprs.length) (computeAll exprs)
      (computeAll (instantiateAll registers exprs))
  | [] => by
      simp only [instantiateAll, computeAll, computeAllIn]
      refine Relates.pure ?_
      intro others hothers
      cases hothers
      exact ⟨rfl, [], rfl, .nil⟩
  | first :: rest => by
      have hrest := computeAll_follows rest
      simp only [instantiateAll, computeAll, computeAllIn]
      refine (compute_follows first).bind ?_
      intro value found hvalue
      cases hvalid : found.isValid with
      | false =>
          exact Ensures.relates (Ensures.pure fun _ _ hothers => by cases hothers)
      | true =>
          have hagrees := hvalue hvalid
          rw [hagrees.isValid]
          refine hrest.bind ?_
          intro values others hothers
          exact Relates.pure (hothers.cons hagrees)

end

/-- An expression that is a constant once the registers have their values computes that
constant on the machine: it is valid and of the constant's kind, and its terms finish on the
empty stack with the constant alone. -/
theorem run_toTerms_of_constant (registers : Register → Int32) (expr : Expr)
    (before after : Diagnostics) (kind : ValueKind) (value : Int32) (span : Span)
    (h : ((expr.instantiate registers).compute before).1 = ⟨kind, .constant value, span⟩) :
    (expr.compute after).1.isValid = true ∧ (expr.compute after).1.kind = kind ∧
      Term.run? registers [] (expr.compute after).1.toTerms = some [value] := by
  have hfollows : Computation.Follows registers (expr.compute after).1
      ((expr.instantiate registers).compute before).1 := compute_follows expr after before
  rw [h] at hfollows
  have hagrees := hfollows rfl
  have hrun : Term.run? registers [] (expr.compute after).1.toTerms = _ :=
    Computation.run?_toTerms hagrees.sound hagrees.isValid []
  rw [hagrees.valueIn value rfl] at hrun
  exact ⟨hagrees.isValid, hagrees.kind, hrun⟩

/-- The expression `select($v0 < 0.5, -$v1, 2.5) * 1.5`, in which a comparison, a choice and a
product each mix an integer with a real, is the real -4.5 with 0 and 3 in the registers. -/
theorem run_toTerms_mixedSelect :
    let expr : Expr :=
      .binary .origin .multiply
        (.call .origin .select
          [.binary .origin .less (.register .origin (.value 0) []) (.literal .origin ⟨500, .real⟩),
            .unary .origin .negate (.register .origin (.value 1) []),
            .literal .origin ⟨2500, .real⟩])
        (.literal .origin ⟨1500, .real⟩)
    let registers : Register → Int32 := fun source => Int32.ofNat (3 * source.index)
    ((expr.instantiate registers).compute []).1 = ⟨.real, .constant (-4500), .origin⟩ ∧
      (expr.compute []).1.isValid = true ∧ (expr.compute []).1.kind = .real ∧
      Term.run? registers [] (expr.compute []).1.toTerms = some [-4500] := by
  intro expr registers
  have hconstant : ((expr.instantiate registers).compute []).1 =
      ⟨.real, .constant (-4500), .origin⟩ := by decide +kernel
  exact ⟨hconstant, run_toTerms_of_constant registers expr [] [] .real (-4500) .origin hconstant⟩

end Expr

end NovelAsm
