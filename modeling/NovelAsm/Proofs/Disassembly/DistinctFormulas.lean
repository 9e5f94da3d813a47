import NovelAsm.Proofs.CodeUnit.Forms
import NovelAsm.Proofs.Disassembly.Distinct

/-!
Printed formulas are told apart. The text of a formula is parsed to an expression, which has the
same operators on the same numbers, so two formulas with one text are the same; but for a sign,
since a negative constant is written as the negation of a positive one. An expression that is
lowered never negates a constant on the machine, as that is folded.
-/

namespace NovelAsm

open Lexed Reporting

namespace Expr

/-- The operator that an expression consists of, and its operands. -/
def parts : Expr → Option (UnaryOperator ⊕ BinaryOperator ⊕ Intrinsic) × List Expr
  | .unary _ operator operand => (some (.inl operator), [operand])
  | .binary _ operator left right => (some (.inr (.inl operator)), [left, right])
  | .call _ intrinsic arguments => (some (.inr (.inr intrinsic)), arguments)
  | _ => (none, [])

/-- The number that an expression is written for, if it is one. -/
def writtenNumber? : Expr → Option Number
  | .literal _ value => some (.constant value.number)
  | .unary _ .negate (.literal _ value) => some (.constant (-value.number))
  | .register _ source _ => some (.register source)
  | _ => none

end Expr

theorem Number.writtenNumber?_expr (value : Number) : value.expr.writtenNumber? = some value := by
  cases value with
  | register source => rfl
  | constant value =>
      rw [Number.expr]
      cases hvalue : value.toInt with
      | ofNat n =>
          have hsame : Int32.ofInt (Int.ofNat n) = value := by rw [← hvalue, Int32.ofInt_toInt]
          exact congrArg (fun number => some (Number.constant number)) hsame
      | negSucc n =>
          have hsame : -Int32.ofInt ((n + 1 : Nat) : Int) = value := by
            rw [← Int32.ofInt_toInt value, hvalue, Int.negSucc_eq, Int32.ofInt_neg]
            rfl
          exact congrArg (fun number => some (Number.constant number)) hsame

namespace Operator

/-- What an operator is written as. -/
def written (operator : Operator) : Option (UnaryOperator ⊕ BinaryOperator ⊕ Intrinsic) :=
  (operator.exprOf (List.replicate operator.arity (.error .origin))).parts.1

theorem mem_all (operator : Operator) : operator ∈ all := by cases operator <;> decide

theorem written_isSome (operator : Operator) : operator.written.isSome = true := by
  have hall : ∀ operator ∈ all, operator.written.isSome = true := by decide
  exact hall operator operator.mem_all

theorem written_inj {operator other : Operator} (h : operator.written = other.written) :
    operator = other := by
  have hall : ∀ operator ∈ all, ∀ other ∈ all, operator.written = other.written →
      operator = other := by decide +kernel
  exact hall operator operator.mem_all other other.mem_all h

theorem parts_exprOf_one {operator : Operator} (h : operator.arity = 1) (operand : Expr) :
    (operator.exprOf [operand]).parts = (operator.written, [operand]) := by
  cases operator <;> first | rfl | cases h

theorem parts_exprOf_two {operator : Operator} (h : operator.arity = 2) (left right : Expr) :
    (operator.exprOf [left, right]).parts = (operator.written, [left, right]) := by
  cases operator <;> first | rfl | cases h

end Operator

namespace Formula

/-- The operator of a formula, and its operands as they are written. -/
def parts : Formula → Option Operator × List Formula
  | .number _ => (none, [])
  | .unary operator _ operand => (some operator, [operand])
  | .binary operator _ left right => (some operator, [left, right])
  | .select whenFalse whenTrue condition => (some .select, [condition, whenTrue, whenFalse])

theorem parts_expr {formula : Formula} {operator : Operator} {operands : List Formula}
    (h : formula.parts = (some operator, operands)) :
    formula.expr.parts = (operator.written, operands.map expr) := by
  cases formula with
  | number value => cases h
  | unary operator arity operand =>
      cases h
      exact operator.parts_exprOf_one arity operand.expr
  | binary operator arity left right =>
      cases h
      exact operator.parts_exprOf_two arity left.expr right.expr
  | select whenFalse whenTrue condition =>
      cases h
      rfl

/-- Nothing but a number is written without an operator. -/
theorem exists_number {formula : Formula} (h : formula.expr.parts.1 = none) :
    ∃ value, formula = .number value := by
  cases hparts : formula.parts with
  | mk operator operands =>
      cases operator with
      | some operator =>
          rw [parts_expr hparts] at h
          have hsome := operator.written_isSome
          rw [show operator.written = none from h] at hsome
          cases hsome
      | none =>
          cases formula with
          | number value => exact ⟨value, rfl⟩
          | unary | binary | select => cases hparts

/-- A formula that does not negate a constant. -/
def IsReduced : Formula → Prop
  | .number _ => True
  | .unary operator _ operand => operand.IsReduced ∧
      (operator = .negate → ∀ value, operand ≠ .number (.constant value))
  | .binary _ _ left right => left.IsReduced ∧ right.IsReduced
  | .select whenFalse whenTrue condition =>
      whenFalse.IsReduced ∧ whenTrue.IsReduced ∧ condition.IsReduced

theorem IsReduced.expr_ne_number {formula : Formula} (h : formula.IsReduced) {operator : Operator}
    {operands : List Formula} (hparts : formula.parts = (some operator, operands))
    (value : Number) :
    value.expr ≠ formula.expr := by
  intro hsame
  have hwritten := parts_expr hparts
  rw [← hsame] at hwritten
  have hnone {found : Expr} (hfound : found.parts = (none, [])) : value.expr ≠ found := by
    intro hvalue
    rw [hvalue, hfound] at hwritten
    have hsome := operator.written_isSome
    rw [← (Prod.mk.inj hwritten).1] at hsome
    cases hsome
  cases value with
  | register source => exact hnone rfl rfl
  | constant value =>
      cases hvalue : value.toInt with
      | ofNat n =>
          apply @hnone (numeralExpr (.ofNat n)) rfl
          rw [Number.expr, hvalue]
      | negSucc n =>
          -- the only number with a sign in front, which would have to stand before a constant
          rw [Number.expr, hvalue] at hwritten
          obtain ⟨hoperator, hoperands⟩ := Prod.mk.inj hwritten
          obtain rfl : Operator.negate = operator := Operator.written_inj hoperator
          obtain ⟨operand, rfl⟩ : ∃ operand, operands = [operand] :=
            List.length_eq_one_iff.mp (by simpa using (congrArg List.length hoperands).symm)
          have hliteral := (List.cons.inj hoperands).1
          obtain ⟨number, rfl⟩ := @exists_number operand (by rw [← hliteral]; rfl)
          cases number with
          | register source => cases hliteral
          | constant constant =>
              cases formula with
              | unary operator arity operand =>
                  obtain ⟨hoperator, hoperand⟩ := Prod.mk.inj hparts
                  exact h.2 (Option.some.inj hoperator) constant (List.cons.inj hoperand).1
              | number | binary | select => cases hparts

/-- A formula that is written like one with an operator has that operator. -/
theorem exists_parts {formula other : Formula} {operator : Operator} {operands : List Formula}
    (h : formula.IsReduced) (hparts : formula.parts = (some operator, operands))
    (hsame : formula.expr = other.expr) :
    ∃ others, other.parts = (some operator, others) ∧ operands.map expr = others.map expr := by
  cases hother : other.parts with
  | mk twin others =>
      cases twin with
      | some twin =>
          have hwritten := congrArg Expr.parts hsame
          rw [parts_expr hparts, parts_expr hother] at hwritten
          obtain ⟨hoperator, hoperands⟩ := Prod.mk.inj hwritten
          obtain rfl := Operator.written_inj hoperator
          exact ⟨others, rfl, hoperands⟩
      | none =>
          cases other with
          | number value => exact absurd hsame.symm (h.expr_ne_number hparts value)
          | unary | binary | select => cases hother

/-- Formulas that negate no constant are told apart by their expressions. -/
theorem expr_inj {formula other : Formula} (h : formula.IsReduced) (hother : other.IsReduced)
    (hsame : formula.expr = other.expr) : formula = other := by
  induction formula generalizing other with
  | number value =>
      cases other with
      | number twin =>
          have hnumber := congrArg Expr.writtenNumber? hsame
          change value.expr.writtenNumber? = twin.expr.writtenNumber? at hnumber
          rw [Number.writtenNumber?_expr, Number.writtenNumber?_expr] at hnumber
          rw [Option.some.inj hnumber]
      | unary | binary | select => exact absurd hsame (hother.expr_ne_number rfl value)
  | unary operator arity operand ih =>
      obtain ⟨others, hparts, hoperands⟩ := exists_parts h rfl hsame
      cases other with
      | unary twin _ other =>
          obtain ⟨rfl, rfl⟩ := by simpa [parts] using hparts
          rw [ih h.1 hother.1 (List.cons.inj hoperands).1]
      | number | binary | select =>
          cases hparts
          try cases congrArg List.length hoperands
  | binary operator arity left right ihLeft ihRight =>
      obtain ⟨others, hparts, hoperands⟩ := exists_parts h rfl hsame
      cases other with
      | binary twin _ first second =>
          obtain ⟨rfl, rfl⟩ := by simpa [parts] using hparts
          obtain ⟨hleft, hright⟩ := List.cons.inj hoperands
          rw [ihLeft h.1 hother.1 hleft, ihRight h.2 hother.2 (List.cons.inj hright).1]
      | number | unary | select =>
          cases hparts
          try cases congrArg List.length hoperands
  | select whenFalse whenTrue condition ihFalse ihTrue ihCondition =>
      obtain ⟨others, hparts, hoperands⟩ := exists_parts h rfl hsame
      cases other with
      | select otherFalse otherTrue otherCondition =>
          obtain ⟨-, rfl⟩ := by simpa [parts] using hparts
          simp only [List.map_cons, List.map_nil, List.cons.injEq, and_true] at hoperands
          rw [ihFalse h.1 hother.1 hoperands.2.2, ihTrue h.2.1 hother.2.1 hoperands.2.1,
            ihCondition h.2.2 hother.2.2 hoperands.1]
      | number | unary | binary =>
          cases hparts
          try cases congrArg List.length hoperands

end Formula

/-- A text that goes on with the next operand or ends the line. -/
def Ends (text : Bytes) : Prop := Heads (fun b => b == byte ',' || b == byte '\n') text

theorem ends_comma (rest : Bytes) : Ends (ascii ", " ++ rest) := heads_cons (by decide) _

theorem ends_line (rest : Bytes) : Ends (byte '\n' :: rest) := heads_cons (by decide) _

theorem Ends.breaks {text : Bytes} (h : Ends text) : Breaks text := by
  refine h.mono fun b hb => ?_
  rcases Bool.or_eq_true_iff.mp hb with hcomma | hline
  · exact eq_of_beq hcomma ▸ rfl
  · exact eq_of_beq hline ▸ rfl

theorem Ends.stops {text : Bytes} (h : Ends text) : Heads isStop text := by
  refine h.mono fun b hb => ?_
  rcases Bool.or_eq_true_iff.mp hb with hcomma | hline
  · exact eq_of_beq hcomma ▸ rfl
  · exact eq_of_beq hline ▸ rfl

/-- The token behind an operand closes it. -/
theorem Ends.begins {text : Bytes} (h : Ends text) :
    ∃ kind, Parser.Begins kind 0 (tokensOf text) ∧ Parser.Stops kind := by
  obtain ⟨first, rest, rfl, hfirst⟩ := h
  rcases Bool.or_eq_true_iff.mp hfirst with hcomma | hline
  · obtain rfl := eq_of_beq hcomma
    have htokens := (@tokensOf_of_scan (byte ',') [] rest (.mark .comma) rfl).1
    change tokensOf (byte ',' :: rest) = _ at htokens
    rw [htokens]
    exact ⟨_, ⟨_, _, rfl, rfl, rfl, fun h => by cases h⟩, rfl, by decide⟩
  · obtain rfl := eq_of_beq hline
    have htokens := (@tokensOf_of_scan (byte '\n') [] rest .newline rfl).1
    change tokensOf (byte '\n' :: rest) = _ at htokens
    rw [htokens]
    exact ⟨_, ⟨_, _, rfl, rfl, rfl, fun _ => rfl⟩, rfl, by decide⟩

namespace Formula

variable {formula other : Formula} {rest others : Bytes}

/-- The tree of a formula is read off its text, whatever stands behind it. -/
theorem tree_eq (hrest : Ends rest) (hothers : Ends others)
    (h : formula.fragment.text ++ rest = other.fragment.text ++ others) :
    formula.tree = other.tree := by
  obtain ⟨kind, hkind, hstops⟩ := hrest.begins
  obtain ⟨otherKind, hotherKind, hotherStops⟩ := hothers.begins
  have htokens := (formula.written.prints.cuts rest hrest.stops).1
  have hotherTokens := (other.written.prints.cuts others hothers.stops).1
  let depth := formula.tokens.length + other.tokens.length + 1
  have hparsed := formula.written.entire.parses (show formula.tokens.length < depth by omega)
    hkind hstops
  have hotherParsed := other.written.entire.parses (show other.tokens.length < depth by omega)
    hotherKind hotherStops
  refine List.singleton_inj.mp (hparsed.unique hotherParsed ?_)
  rw [← htokens, h, hotherTokens]

theorem expr_eq (h : formula.tree = other.tree) : formula.expr = other.expr := by
  have hscope : Scope.empty.HasLabelsAlone := ⟨rfl, rfl⟩
  obtain ⟨-, found, hfound, hbare⟩ := formula.reads hscope
  obtain ⟨-, twin, htwin, htwinBare⟩ := other.reads hscope
  rw [h, htwin] at hfound
  have hsame : twin = found := congrArg Prod.fst (congrFun hfound ([] : Diagnostics))
  rw [← hbare, ← htwinBare, hsame]

/-- Formulas that negate no constant are told apart by their texts. -/
theorem told (hformula : formula.IsReduced) (hother : other.IsReduced) (hrest : Ends rest)
    (hothers : Ends others)
    (h : formula.fragment.text ++ rest = other.fragment.text ++ others) :
    formula = other ∧ rest = others := by
  obtain rfl := expr_inj hformula hother (expr_eq (tree_eq hrest hothers h))
  exact ⟨rfl, List.append_cancel_left h⟩

end Formula

namespace Computation

/-- Terms of a formula that negates no constant and is not a constant itself. -/
def Reduced (terms : List Term) : Prop :=
  ∃ formula : Formula, formula.terms = terms ∧ formula.IsReduced ∧
    ∀ value, formula ≠ .number (.constant value)

/-- A computation has a formula; it is a constant only if the computation is one. -/
theorem exists_formula {computation : Computation} (hvalid : computation.isValid = true)
    (h : computation.Has Reduced) :
    ∃ formula : Formula, formula.terms = computation.toTerms ∧ formula.IsReduced ∧
      (computation.constant? = none → ∀ value, formula ≠ .number (.constant value)) := by
  obtain ⟨kind, outcome, span⟩ := computation
  cases outcome with
  | constant value => exact ⟨.number (.constant value), rfl, trivial, fun h => by cases h⟩
  | terms terms =>
      obtain ⟨formula, hterms, hreduced, hconstant⟩ := h terms rfl
      exact ⟨formula, hterms, hreduced, fun _ => hconstant⟩
  | invalid => cases hvalid

/-- What is lowered negates no constant, since that would have been folded. -/
theorem inherits_reduced : Inherits Reduced where
  register source := ⟨.number (.register source), rfl, trivial, fun _ h => by cases h⟩
  scaled := by
    rintro _ ⟨formula, rfl, hreduced, -⟩
    refine ⟨.binary .multiply rfl formula (.number (.constant (Int32.ofInt Operator.scale))),
      ?_, ⟨hreduced, trivial⟩, fun _ h => by cases h⟩
    exact List.append_assoc formula.terms _ _
  apply operator operands harity hoperands hfold := by
    have hone (operand : Computation) (hmem : operand ∈ operands) :=
      exists_formula (hoperands operand hmem).1 (hoperands operand hmem).2
    rcases operands with _ | ⟨first, _ | ⟨second, _ | ⟨third, _ | ⟨fourth, rest⟩⟩⟩⟩
    · cases operator <;> cases harity
    · obtain ⟨formula, hterms, hreduced, hconstant⟩ := hone first (by simp)
      refine ⟨.unary operator harity formula, ?_, ⟨hreduced, ?_⟩, fun _ h => by cases h⟩
      · simp [Formula.terms, hterms]
      · rintro rfl
        apply hconstant
        cases hvalue : first.constant? with
        | none => rfl
        | some value =>
            simp only [List.mapM_cons, List.mapM_nil, hvalue] at hfold
            cases hfold
    · obtain ⟨left, hleft, hleftReduced, -⟩ := hone first (by simp)
      obtain ⟨right, hright, hrightReduced, -⟩ := hone second (by simp)
      refine ⟨.binary operator harity left right, ?_, ⟨hleftReduced, hrightReduced⟩,
        fun _ h => by cases h⟩
      simp [Formula.terms, hleft, hright]
    · obtain ⟨whenFalse, hfalse, hfalseReduced, -⟩ := hone first (by simp)
      obtain ⟨whenTrue, htrue, htrueReduced, -⟩ := hone second (by simp)
      obtain ⟨condition, hcondition, hconditionReduced, -⟩ := hone third (by simp)
      have hselect : operator = .select := by cases operator <;> first | rfl | cases harity
      refine ⟨.select whenFalse whenTrue condition, ?_,
        ⟨hfalseReduced, htrueReduced, hconditionReduced⟩, fun _ h => by cases h⟩
      simp [Formula.terms, hfalse, htrue, hcondition, hselect]
    · cases operator <;> simp [Operator.arity] at harity

end Computation

theorem Expr.toTerms_reduced (expr : Expr) : Finds expr.toTerms fun terms =>
    ∃ formula : Formula, formula.terms = terms ∧ formula.IsReduced := by
  refine (Expr.compute_has Computation.inherits_reduced expr).bind ?_
  intro computation hreduced
  split
  · rename_i hvalid
    obtain ⟨formula, hterms, hformula, -⟩ := Computation.exists_formula hvalid hreduced
    exact finds_some ⟨formula, hterms, hformula⟩
  · exact finds_none

end NovelAsm
