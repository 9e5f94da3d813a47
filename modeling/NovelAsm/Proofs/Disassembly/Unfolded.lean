import NovelAsm.Proofs.Disassembly.Reading
import NovelAsm.Proofs.Erasure.Expressions
import NovelAsm.Proofs.Expr.Folding

/-!
Formulas that stay as they are. The assembler folds an operator of constants, makes reals of the
operands of trigonometry and refuses a division by zero; anything else is computed by the
machine, and then the terms of an expression are those of the formula that it was printed from.
-/

namespace NovelAsm

open NovelAsm.Computation

/-- A number that is folded back to itself: not the constant whose negative is out of range. -/
def Number.IsWritable : Number → Prop
  | .constant value => -0x80000000 < value.toInt
  | .register _ => True

namespace Formula

def hasRegister : Formula → Bool
  | .number (.register _) => true
  | .number (.constant _) => false
  | .unary _ _ operand => operand.hasRegister
  | .binary _ _ left right => left.hasRegister || right.hasRegister
  | .select whenFalse whenTrue condition =>
      whenFalse.hasRegister || whenTrue.hasRegister || condition.hasRegister

/-- Whether every operator of a formula is left to the machine: none is trigonometric, none has
constant operands alone, and none divides by a constant zero. -/
def stays : Formula → Bool
  | .number _ => true
  | .unary operator _ operand =>
      !operator.isTrigonometric && operand.hasRegister && operand.stays
  | .binary operator _ left right =>
      !(operator.isDivision && right.terms == [.push (.constant 0)])
        && (left.hasRegister || right.hasRegister) && left.stays && right.stays
  | .select whenFalse whenTrue condition =>
      (whenFalse.hasRegister || whenTrue.hasRegister || condition.hasRegister)
        && whenFalse.stays && whenTrue.stays && condition.stays

/-- What a formula comes to: a constant alone, or the terms of the formula. -/
def outcome : Formula → Outcome
  | .number (.constant value) => .constant value
  | formula => .terms formula.terms

def computation (formula : Formula) : Computation := ⟨.integer, formula.outcome, .origin⟩

variable {formula left right : Formula}

theorem isValid_computation (formula : Formula) : formula.computation.isValid = true := by
  cases formula with
  | number value => cases value <;> rfl
  | _ => rfl

theorem toTerms_computation (formula : Formula) : formula.computation.toTerms = formula.terms := by
  cases formula with
  | number value => cases value <;> rfl
  | _ => rfl

theorem constant?_of_hasRegister (h : formula.hasRegister = true) :
    formula.computation.constant? = none := by
  cases formula with
  | number value =>
      cases value with
      | constant value => cases h
      | register source => rfl
  | _ => rfl

theorem constant?_eq_zero (h : formula.computation.constant? = some 0) :
    formula.terms = [.push (.constant 0)] := by
  cases formula with
  | number value =>
      cases value with
      | constant value => rw [show value = 0 from Option.some.inj h]; rfl
      | register source => cases h
  | _ => cases h

theorem mapM_constant?_of_hasRegister {operands : List Formula}
    (h : operands.any hasRegister = true) :
    (operands.map computation).mapM constant? = none := by
  induction operands with
  | nil => cases h
  | cons first rest ih =>
      rw [List.map_cons, List.mapM_cons]
      rw [List.any_cons, Bool.or_eq_true] at h
      rcases h with h | h
      · rw [constant?_of_hasRegister h]
        rfl
      · rw [ih h]
        cases first.computation.constant? <;> rfl

/-- An operator is left to the machine as soon as a register is among its operands. -/
theorem apply_of_hasRegister (operator : Operator) {operands : List Formula}
    (h : operands.any hasRegister = true) :
    Computation.apply operator (operands.map computation) .integer .origin =
      pure ⟨.integer, .terms (operands.flatMap terms ++ [.apply operator]), .origin⟩ := by
  have hvalid : (operands.map computation).all isValid = true := by
    rw [List.all_map, List.all_eq_true]
    exact fun operand _ => isValid_computation operand
  have hterms : (operands.map computation).flatMap toTerms = operands.flatMap terms := by
    rw [List.flatMap_map]
    exact List.flatMap_congr fun operand _ => toTerms_computation operand
  simp only [Computation.apply, hvalid, mapM_constant?_of_hasRegister h, hterms, Option.bind_none]
  rfl

theorem isReal_computation (formula : Formula) : formula.computation.isReal = false := rfl

theorem requireIntegers_computation (spelling : String) (left right : Formula) :
    requireIntegers spelling left.computation right.computation = pure true := rfl

theorem unify_computation (left right : Formula) :
    unify left.computation right.computation =
      pure (left.computation, right.computation, .integer) := rfl

theorem applyBinary_stays {operator : Operator} {harity : operator.arity = 2}
    (h : (binary operator harity left right).stays = true) :
    applyBinary operator left.computation right.computation .integer .origin =
      pure (binary operator harity left right).computation := by
  simp only [stays, Bool.and_eq_true, Bool.not_eq_true', Bool.and_eq_false_iff] at h
  obtain ⟨⟨⟨hzero, hregister⟩, -⟩, -⟩ := h
  have hdivision : (operator.isDivision && right.computation.constant? == some 0) = false := by
    rw [Bool.and_eq_false_iff]
    refine hzero.imp_right fun hterms => ?_
    rw [beq_eq_false_iff_ne] at hterms ⊢
    exact fun hconstant => hterms (constant?_eq_zero hconstant)
  have happly := @apply_of_hasRegister operator [left, right] (by simpa using hregister)
  simp only [applyBinary, isValid_computation, hdivision]
  change Computation.apply operator [left.computation, right.computation] .integer .origin = _
  simpa [terms, computation, outcome] using happly

/-- An operator between two integers is applied to them. -/
theorem binary_computation {operator : Operator} {written : BinaryOperator} {spelling : String}
    (hspelling : operator.fixity = .between spelling)
    (hwritten : Naming.binaryOperator? operator.tokenKind = some written) (left right : Formula) :
    Computation.binary written left.computation right.computation .origin =
      applyBinary operator left.computation right.computation .integer .origin := by
  cases operator with
  | negate | bitNot | isZero | abs | isNonzero | sin | cos | tan | min | max | select =>
      cases hspelling
  | _ =>
      cases hwritten
      simp only [Computation.binary, isValid_computation, arithmetic, integral, elementwise,
        comparison, isReal_computation, requireIntegers_computation]
      rfl

/-- An operator in front of an integer is applied to it. -/
theorem unary_computation {operator : Operator} {spelling : String}
    (hspelling : operator.fixity = .before spelling) (operand : Formula) :
    Computation.unary (Naming.unaryOperator operator.tokenKind) operand.computation .origin =
      Computation.apply operator [operand.computation] .integer .origin := by
  cases operator with
  | negate | bitNot | isZero =>
      simp only [Operator.tokenKind, Naming.unaryOperator, Computation.unary, isValid_computation]
      rfl
  | _ => cases hspelling

/-- A function of one integer that is no trigonometric one is applied to it. -/
theorem call_computation {operator : Operator} {name : String} {intrinsic : Intrinsic}
    (hname : operator.fixity = .call name) (harity : operator.arity = 1)
    (hplain : operator.isTrigonometric = false)
    (hintrinsic : Intrinsic.ofName? (ascii name) = some intrinsic) (operand : Formula) :
    intrinsic.arity = 1 ∧ Computation.call intrinsic [operand.computation] .origin =
      Computation.apply operator [operand.computation] .integer .origin := by
  cases operator with
  | abs | isNonzero =>
      cases hname
      cases hintrinsic
      exact ⟨rfl, rfl⟩
  | sin | cos | tan => cases hplain
  | min | max | select => cases harity
  | _ => cases hname

theorem call_pair_computation {operator : Operator} {name : String} {intrinsic : Intrinsic}
    (hname : operator.fixity = .call name) (harity : operator.arity = 2)
    (hintrinsic : Intrinsic.ofName? (ascii name) = some intrinsic) (left right : Formula) :
    intrinsic.arity = 2 ∧
      Computation.call intrinsic [left.computation, right.computation] .origin =
        Computation.apply operator [left.computation, right.computation] .integer .origin := by
  cases operator with
  | min | max =>
      cases hname
      cases hintrinsic
      exact ⟨rfl, rfl⟩
  | abs | isNonzero | sin | cos | tan | select => cases harity
  | _ => cases hname

/-- The numbers of a formula can be written. -/
def IsWritable (formula : Formula) : Prop :=
  ∀ value, Term.push value ∈ formula.terms → value.IsWritable

end Formula

namespace Expr

/-! The equations of `compute` and `computeAll`. -/

theorem compute_literal_eq (span : Span) (value : Value) :
    (Expr.literal span value).compute = pure ⟨value.kind, .constant value.number, span⟩ := rfl

theorem compute_unary_eq (span : Span) (operator : UnaryOperator) (operand : Expr) :
    (Expr.unary span operator operand).compute =
      operand.compute >>= fun value => value.unary operator span := rfl

theorem compute_binary_eq (span : Span) (operator : BinaryOperator) (left right : Expr) :
    (Expr.binary span operator left right).compute =
      left.compute >>= fun first => right.compute >>= fun second =>
        Computation.binary operator first second span := rfl

theorem compute_call_eq (span : Span) (intrinsic : Intrinsic) (arguments : List Expr) :
    (Expr.call span intrinsic arguments).compute =
      if arguments.length != intrinsic.arity then do
        (ExpressionProblem.argumentCount intrinsic arguments.length).report span
        return .invalid span
      else do
        match ← computeAll arguments with
        | some values => Computation.call intrinsic values span
        | none => return .invalid span := rfl

theorem computeAll_cons_eq (first : Expr) (rest : List Expr) :
    computeAll (first :: rest) = do
      let value ← first.compute
      if !value.isValid then return none
      return (← computeAll rest).map (value :: ·) := rfl

end Expr

theorem compute_numeral {value : Int32} (h : (Number.constant value).IsWritable) :
    (numeralExpr value.toInt).compute = pure ⟨.integer, .constant value, .origin⟩ := by
  have hback : Int32.ofInt value.toInt = value := Int32.ofInt_toInt value
  cases hvalue : value.toInt with
  | ofNat n =>
      rw [hvalue] at hback
      rw [← hback]
      rfl
  | negSucc n =>
      have hlimit : n + 1 < 0x80000000 := by
        rw [Number.IsWritable, hvalue] at h
        omega
      have hmagnitude : (Int32.ofInt ((n + 1 : Nat) : Int)).toInt = ((n + 1 : Nat) : Int) :=
        Int32.toInt_ofInt_of_le (by omega) (by omega)
      have hfit : Operator.fit? (-((n + 1 : Nat) : Int)) = some value := by
        rw [Operator.fit?, if_pos (by simp only [Bool.and_eq_true, decide_eq_true_eq]; omega),
          ← hback, hvalue]
        rfl
      have hfold : Operator.negate.fold? [Int32.ofInt ((n + 1 : Nat) : Int)] =
          some (.ok value) := by
        simp only [Operator.fold?_eq, Operator.fault?, Operator.exactValue?, hmagnitude,
          Option.map_some, hfit]
      have happly : Computation.apply .negate
          [⟨.integer, .constant (Int32.ofInt ((n + 1 : Nat) : Int)), .origin⟩] .integer .origin =
            pure ⟨.integer, .constant value, .origin⟩ := by
        have hconstants : [(⟨.integer, .constant (Int32.ofInt ((n + 1 : Nat) : Int)), .origin⟩ :
            Computation)].mapM constant? = some [Int32.ofInt ((n + 1 : Nat) : Int)] := rfl
        simp only [Computation.apply, hconstants, Option.bind_some, hfold]
        rfl
      rw [numeralExpr, Expr.compute_unary_eq, Expr.compute_literal_eq, pure_bind]
      exact happly

theorem Number.compute_expr {value : Number} (h : value.IsWritable) :
    value.expr.compute = pure (Formula.number value).computation := by
  cases value with
  | constant value => exact compute_numeral h
  | register source => rfl

namespace Formula

variable {formula : Formula}

theorem IsWritable.of_sublist {part : Formula} (h : formula.IsWritable)
    (hpart : ∀ term ∈ part.terms, term ∈ formula.terms) : part.IsWritable :=
  fun value hvalue => h value (hpart _ hvalue)

theorem computeAll_cons {first : Expr} {rest : List Expr} {formula : Formula}
    (h : first.compute = pure formula.computation) {values : List Computation}
    (hrest : Expr.computeAll rest = pure (some values)) :
    Expr.computeAll (first :: rest) = pure (some (formula.computation :: values)) := by
  rw [Expr.computeAll_cons_eq, h, pure_bind, isValid_computation, hrest]
  rfl

theorem computeAll_nil : Expr.computeAll [] = pure (some []) := rfl

theorem compute_call {intrinsic : Intrinsic} {arguments : List Expr} {values : List Computation}
    (h : Expr.computeAll arguments = pure (some values))
    (harity : arguments.length = intrinsic.arity) :
    (Expr.call .origin intrinsic arguments).compute =
      Computation.call intrinsic values .origin := by
  rw [Expr.compute_call_eq, h, harity, bne_self_eq_false]
  rfl

/-- The expression of a formula that stays as it is comes to the formula. -/
theorem compute_expr (hstays : formula.stays = true) (hwritable : formula.IsWritable) :
    formula.expr.compute = pure formula.computation := by
  induction formula with
  | number value => exact Number.compute_expr (hwritable value (List.mem_singleton_self _))
  | unary operator arity operand ih =>
      have hoperand := ih (by simp_all [stays]) (hwritable.of_sublist fun term hterm =>
        List.mem_append_left _ hterm)
      simp only [stays, Bool.and_eq_true, Bool.not_eq_true'] at hstays
      have happly := @apply_of_hasRegister operator [operand] (by simpa using hstays.1.2)
      have hresult : (unary operator arity operand).computation =
          ⟨.integer, .terms ([operand].flatMap terms ++ [.apply operator]), .origin⟩ := by
        rw [List.flatMap_singleton]
        rfl
      rw [hresult, ← happly]
      rcases operator.fixity_of_arity_one arity with ⟨name, hname⟩ | ⟨spelling, hspelling⟩
      · obtain ⟨intrinsic, hintrinsic⟩ := operator.exists_intrinsic hname
        obtain ⟨harity, hcall⟩ := call_computation hname arity hstays.1.1 hintrinsic operand
        simp only [expr, Operator.exprOf, hname, hintrinsic]
        rw [compute_call (computeAll_cons hoperand computeAll_nil) harity.symm]
        exact hcall
      · simp only [expr, Operator.exprOf, hspelling]
        rw [Expr.compute_unary_eq, hoperand, pure_bind]
        exact unary_computation hspelling operand
  | binary operator arity left right ihLeft ihRight =>
      have hleft := ihLeft (by simp_all [stays]) (hwritable.of_sublist fun term hterm =>
        List.mem_append_left _ (List.mem_append_left _ hterm))
      have hright := ihRight (by simp_all [stays]) (hwritable.of_sublist fun term hterm =>
        List.mem_append_left _ (List.mem_append_right _ hterm))
      rcases operator.fixity_of_arity_two arity with ⟨name, hname⟩ | ⟨spelling, hspelling⟩
      · obtain ⟨intrinsic, hintrinsic⟩ := operator.exists_intrinsic hname
        obtain ⟨harity, hcall⟩ := call_pair_computation hname arity hintrinsic left right
        simp only [stays, Bool.and_eq_true] at hstays
        have happly := @apply_of_hasRegister operator [left, right] (by simpa using hstays.1.1.2)
        simp only [expr, Operator.exprOf, hname, hintrinsic]
        rw [compute_call (computeAll_cons hleft (computeAll_cons hright computeAll_nil))
          harity.symm, hcall]
        exact happly.trans (by simp [computation, outcome, terms])
      · obtain ⟨written, hwritten⟩ := operator.exists_written hspelling
        simp only [expr, Operator.exprOf, hspelling, hwritten]
        rw [Expr.compute_binary_eq, hleft, pure_bind, hright, pure_bind,
          binary_computation hspelling hwritten]
        exact applyBinary_stays hstays
  | select whenFalse whenTrue condition ihFalse ihTrue ihCondition =>
      have hfalse := ihFalse (by simp_all [stays]) (hwritable.of_sublist fun term hterm => by
        simp [terms, hterm])
      have htrue := ihTrue (by simp_all [stays]) (hwritable.of_sublist fun term hterm => by
        simp [terms, hterm])
      have hcondition := ihCondition (by simp_all [stays])
        (hwritable.of_sublist fun term hterm => by
        simp [terms, hterm])
      simp only [stays, Bool.and_eq_true] at hstays
      have happly := @apply_of_hasRegister .select [whenFalse, whenTrue, condition] (by
        simpa [or_assoc] using hstays.1.1.1)
      have hcall : Computation.call .select
          [condition.computation, whenTrue.computation, whenFalse.computation] .origin =
            Computation.apply .select
              [whenFalse.computation, whenTrue.computation, condition.computation] .integer
              .origin := by
        rw [Computation.call, unify_computation]
        rfl
      change (Expr.call .origin .select [condition.expr, whenTrue.expr, whenFalse.expr]).compute = _
      rw [compute_call (computeAll_cons hcondition (computeAll_cons htrue
        (computeAll_cons hfalse computeAll_nil))) rfl, hcall]
      exact happly.trans (by simp [computation, outcome, terms])

end Formula

end NovelAsm
