import NovelAsm.Proofs.Disassembly.Instructions
import NovelAsm.Proofs.Disassembly.Script

/-!
The text of an expression, read back. Terms that leave one value are printed as an expression.
If every operator among them is left to the machine, an instruction with that expression is
assembled without a complaint, and its operand comes to the same terms.
-/

namespace NovelAsm

/-- What is known of a value on the stack: whether a register went into it, and whether it is a
zero that was pushed. -/
structure StackMark where
  hasRegister : Bool
  isZero : Bool

namespace Operator

/-- Whether an operator is left to the machine, the mark of its last operand first: it is none of
trigonometry, a register is among its operands, and it does not divide by a pushed zero. -/
def isLeft (operator : Operator) (operands : List StackMark) : Bool :=
  !operator.isTrigonometric && operands.any StackMark.hasRegister
    && !(operator.isDivision && operands.head?.any StackMark.isZero)

end Operator

namespace Term

/-- The mark of a number that is pushed. -/
def pushMark : Number → StackMark
  | .constant value => ⟨false, value == 0⟩
  | .register _ => ⟨true, false⟩

/-- Whether every operator among terms is left to the machine, when they are run on values with
some marks, the topmost one first. -/
def areLeft (stack : List StackMark) : List Term → Bool
  | [] => true
  | .push number :: rest => areLeft (pushMark number :: stack) rest
  | .apply operator :: rest =>
      let operands := stack.take operator.arity
      operator.isLeft operands &&
        areLeft (⟨operands.any StackMark.hasRegister, false⟩ :: stack.drop operator.arity) rest

end Term

namespace Formula

/-- The mark of the value of a formula. -/
def mark (formula : Formula) : StackMark :=
  ⟨formula.hasRegister, formula.terms == [.push (.constant 0)]⟩

@[simp] theorem hasRegister_mark (formula : Formula) :
    formula.mark.hasRegister = formula.hasRegister := rfl

theorem mark_number (value : Number) : (number value).mark = Term.pushMark value := by
  cases value with
  | constant value => simp [mark, Term.pushMark, hasRegister, terms]
  | register source => rfl

/-- Terms that end with an operator are no pushed zero. -/
theorem isZero_apply (before : List Term) (operator : Operator) :
    (before ++ [.apply operator] == [Term.push (.constant 0)]) = false := by
  rw [beq_eq_false_iff_ne]
  intro h
  have hlast := congrArg List.getLast? h
  rw [List.getLast?_concat] at hlast
  cases hlast

theorem isLeft_unary {operator : Operator} (arity : operator.arity = 1) (operand : Formula) :
    operator.isLeft [operand.mark] = (!operator.isTrigonometric && operand.hasRegister) := by
  have hdivision : operator.isDivision = false := by
    cases operator <;> first | cases arity; done | rfl
  simp [Operator.isLeft, hdivision, mark]

theorem isLeft_binary {operator : Operator} (arity : operator.arity = 2) (left right : Formula) :
    operator.isLeft [right.mark, left.mark] =
      (!(operator.isDivision && right.terms == [.push (.constant 0)])
        && (left.hasRegister || right.hasRegister)) := by
  have htrigonometric : operator.isTrigonometric = false := by
    cases operator <;> first | cases arity; done | rfl
  simp only [Operator.isLeft, htrigonometric, mark, List.any_cons, List.any_nil, List.head?_cons,
    Option.any_some, Bool.or_false, Bool.not_false, Bool.true_and]
  rw [Bool.and_comm, Bool.or_comm]

/-- The operators of a formula are left to the machine if it stays as it is. -/
theorem areLeft_terms (formula : Formula) (stack : List StackMark) (rest : List Term) :
    Term.areLeft stack (formula.terms ++ rest) =
      (formula.stays && Term.areLeft (formula.mark :: stack) rest) := by
  induction formula generalizing stack rest with
  | number value =>
      rw [mark_number]
      rfl
  | unary operator arity operand ih =>
      have hmark : (unary operator arity operand).mark = ⟨operand.hasRegister, false⟩ :=
        congrArg (StackMark.mk _) (isZero_apply _ _)
      rw [terms, List.append_assoc, ih, List.singleton_append, Term.areLeft, arity, hmark]
      simp only [List.take_succ_cons, List.take_zero, List.drop_succ_cons, List.drop_zero,
        isLeft_unary arity, stays, List.any_cons, List.any_nil, Bool.or_false, hasRegister_mark]
      ac_rfl
  | binary operator arity left right ihLeft ihRight =>
      have hmark : (binary operator arity left right).mark =
          ⟨left.hasRegister || right.hasRegister, false⟩ :=
        congrArg (StackMark.mk _) (isZero_apply _ _)
      rw [terms, List.append_assoc, List.append_assoc, ihLeft, ihRight, List.singleton_append,
        Term.areLeft, arity, hmark]
      simp only [List.take_succ_cons, List.take_zero, List.drop_succ_cons, List.drop_zero,
        isLeft_binary arity, stays, List.any_cons, List.any_nil, Bool.or_false, hasRegister_mark,
        Bool.or_comm right.hasRegister]
      ac_rfl
  | select whenFalse whenTrue condition ihFalse ihTrue ihCondition =>
      have hmark : (select whenFalse whenTrue condition).mark =
          ⟨whenFalse.hasRegister || whenTrue.hasRegister || condition.hasRegister, false⟩ :=
        congrArg (StackMark.mk _) (isZero_apply _ _)
      have hregisters : (condition.hasRegister || (whenTrue.hasRegister || whenFalse.hasRegister)) =
          (whenFalse.hasRegister || whenTrue.hasRegister || condition.hasRegister) := by ac_rfl
      rw [terms, List.append_assoc, List.append_assoc, List.append_assoc, ihFalse, ihTrue,
        ihCondition, List.singleton_append, Term.areLeft, hmark]
      simp only [Operator.arity, List.take_succ_cons, List.take_zero, List.drop_succ_cons,
        List.drop_zero, Operator.isLeft, Operator.isTrigonometric, Operator.isDivision, stays,
        List.any_cons, List.any_nil, Bool.or_false, hasRegister_mark, hregisters, Bool.not_false,
        Bool.true_and, Bool.false_and, Bool.and_true]
      ac_rfl

end Formula

/-- Wherever the parts of the expression of a formula stand, it comes to the terms of that. -/
theorem Expr.toTerms_of_bare {expr : Expr} {formula : Formula} (hstays : formula.stays = true)
    (hwritable : formula.IsWritable) (h : expr.bare = formula.expr) :
    (expr.compute.run []).2 = [] ∧ (expr.compute.run []).1.toTerms = formula.terms := by
  have hrun := @Expr.compute_erases [] expr []
  rw [h, Formula.compute_expr hstays hwritable] at hrun
  obtain ⟨hvalue, hreports⟩ := Prod.mk.inj hrun
  refine ⟨List.map_eq_nil_iff.mp hreports.symm, ?_⟩
  exact (congrArg Computation.toTerms hvalue).symm.trans formula.toTerms_computation

/-- The row of the instruction that computes an expression. -/
def Form.compute : Form := ⟨⟨0x42⟩, "exp", .plain, 0, [.register, .expression]⟩

theorem Form.compute_mem : compute ∈ table := by decide +kernel

namespace Instruction

/-- The instruction that computes terms into a register. -/
def compute (target : Register) (terms : List Term) : Instruction :=
  ⟨⟨0x42⟩, 0, [⟨.register target, .origin⟩, ⟨.expression terms, .origin⟩], .origin⟩

variable {target : Register} {terms : List Term}

theorem compute_ofForm (h : Term.heightAfter? 0 terms = some 1) :
    (compute target terms).OfForm .compute where
  row := (by decide +kernel : Form.ofOpcode? ⟨0x42⟩ 0 = some Form.compute)
  subtype := rfl
  operands := .cons trivial (.cons h .nil)

theorem operands_of_compute {operands : List PrintedOperand}
    (h : (compute target terms).PrintsAs .compute operands) :
    ∃ formula : Formula, formula.terms = terms ∧
      operands = [.register target, .formula formula] := by
  cases h with
  | conditional hlayout => cases hlayout
  | @positional pieces _ hpieces =>
      cases hpieces with
      | cons hfirst hrest =>
          cases hfirst
          cases hrest with
          | cons hsecond hnone =>
              cases hnone
              cases hsecond with
              | expression formula => exact ⟨formula, rfl, rfl⟩

end Instruction

/-- The operand of an instruction that computes a formula, wherever its parts stand. -/
theorem Statement.exists_of_bare {statements : List Statement} {target : Register}
    {formula : Formula}
    (h : statements.map bare =
      [(PrintedLine.mk .compute [.register target, .formula formula]).statement]) :
    ∃ span destination place expr,
      statements = [.instruction span (ascii "exp") [destination, .expression place expr]] ∧
        expr.bare = formula.expr := by
  obtain ⟨statement, rfl, hstatement⟩ := List.map_eq_singleton_iff.mp h
  cases statement with
  | label => cases hstatement
  | instruction span mnemonic arguments =>
      obtain ⟨-, rfl, harguments⟩ := Statement.instruction.inj hstatement
      obtain ⟨destination, others, rfl, -, hothers⟩ := List.map_eq_cons_iff.mp harguments
      obtain ⟨operand, rfl, hoperand⟩ := List.map_eq_singleton_iff.mp hothers
      cases operand with
      | expression place expr =>
          exact ⟨span, destination, place, expr, rfl, (Argument.expression.inj hoperand).2⟩
      | flag | array | jumpTable => cases hoperand

/-- A line that computes a formula into a register. -/
def PrintedLine.compute (target : Register) (formula : Formula) : PrintedLine :=
  ⟨.compute, [.register target, .formula formula]⟩

namespace PrintedLine

variable {target : Register} {formula : Formula}

theorem shown_compute (target : Register) (formula : Formula) : (compute target formula).shown =
    ascii "exp " ++ target.name ++ ascii ", " ++ formula.fragment.text := by
  simp [compute, shown, mnemonic, lineText, PrintedOperand.shown, commaJoin, Bytes.join,
    Form.compute, ascii]

/-- Terms that stay as they are are printed as a line that is lowered to them. -/
theorem exists_compute (target : Register) {terms : List Term}
    (hvalue : Term.heightAfter? 0 terms = some 1)
    (hstays : ∀ formula : Formula, formula.terms = terms →
      formula.stays = true ∧ formula.IsWritable) :
    ∃ formula : Formula, formula.terms = terms ∧ (compute target formula).IsLegible ∧
      (compute target formula).instructions = [.compute target terms] ∧
      (compute target formula).reports = [] := by
  obtain ⟨formula, hformula⟩ := Formula.exists_terms hvalue
  have hoperands : ∀ operand ∈ (Instruction.compute target terms).operands,
      operand.value.IsWritable :=
    List.forall_mem_cons.mpr ⟨trivial, List.forall_mem_singleton.mpr
      ⟨formula, hformula, hstays formula hformula⟩⟩
  obtain ⟨_, hprints, hmakes⟩ := (Instruction.compute_ofForm hvalue).lowers rfl
    (List.forall_mem_cons.mpr ⟨rfl, List.forall_mem_singleton.mpr rfl⟩) hoperands
  obtain ⟨printed, hprinted, rfl⟩ := Instruction.operands_of_compute hprints
  have hlegible := hprints.isLegible Form.compute_mem
    (List.forall_mem_cons.mpr ⟨trivial, List.forall_mem_singleton.mpr trivial⟩)
  exact ⟨printed, hprinted, hlegible, lowered_eq Form.compute_mem hmakes⟩

theorem compute_sound {name : Bytes} (hname : IsLabelName name)
    (hlegible : (compute target formula).IsLegible) :
    (ScriptText.ofLine name (compute target formula)).IsSound where
  legible := ScriptText.ofLine_legible hname hlegible
  distinct := List.nodup_singleton name
  opened := trivial
  known := ScriptText.ofLine_known
    (List.forall_mem_cons.mpr ⟨trivial, List.forall_mem_singleton.mpr trivial⟩)

end PrintedLine

namespace Term

/-- Terms that are left to the machine are those of a formula that stays as it is. -/
theorem stays_of_areLeft {terms : List Term} (hleft : areLeft [] terms = true)
    (hconstants : ∀ value, push (.constant value) ∈ terms → -0x7fffffff ≤ value.toInt)
    (formula : Formula) (h : formula.terms = terms) :
    formula.stays = true ∧ formula.IsWritable := by
  subst h
  constructor
  · rw [← List.append_nil formula.terms, Formula.areLeft_terms, Bool.and_eq_true] at hleft
    exact hleft.1
  · intro value hmem
    cases value with
    | constant value =>
        have hvalue := hconstants value hmem
        exact show -0x80000000 < value.toInt by omega
    | register => trivial

end Term

namespace Listing

open Session

/-- An expression that is printed for terms is read back. The script that computes it is listed
without a complaint, its operand comes to the terms, and so does its code. -/
theorem ofSource_expression {name : Bytes} (hname : IsLabelName name) (target : Register)
    {terms : List Term} (hvalue : Term.heightAfter? 0 terms = some 1)
    (hconstants : ∀ value, Term.push (.constant value) ∈ terms → -0x7fffffff ≤ value.toInt)
    (hleft : Term.areLeft [] terms = true) :
    ∃ text, Term.expression? terms = some text ∧
      let source := name ++ ascii ":\n    exp " ++ target.name ++ ascii ", " ++ text ++ ascii "\n"
      (ofSource source).diagnostics = [] ∧
      (∃ routine span destination place expr, (wholeRoutines source).1 = [routine] ∧
        routine.statements =
          [.instruction span (ascii "exp") [destination, .expression place expr]] ∧
        (expr.compute.run []).2 = [] ∧ (expr.compute.run []).1.toTerms = terms) ∧
      (ofSource source).units.map CodeUnit.bare =
        [⟨.script, name, [.compute target terms], [⟨name, 0, .origin⟩]⟩] := by
  have hstays := Term.stays_of_areLeft hleft hconstants
  obtain ⟨formula, hformula, hlegible, hinstructions, hreports⟩ :=
    PrintedLine.exists_compute target hvalue hstays
  have hsound := PrintedLine.compute_sound hname hlegible
  have hscripts : (ScriptText.ofLine name (.compute target formula)).scripts none =
      [⟨name, [.compute target formula]⟩] := rfl
  have hsource : (ScriptText.ofLine name (.compute target formula)).shown =
      name ++ ascii ":\n    exp " ++ target.name ++ ascii ", " ++ formula.fragment.text ++
        ascii "\n" := by
    rw [ScriptText.shown_ofLine, PrintedLine.shown_compute]
    simp [ascii]
  refine ⟨formula.fragment.text, hformula ▸ formula.expression?_terms, ?_⟩
  intro source
  rw [show source = _ from hsource.symm]
  refine ⟨?_, ?_, ?_⟩
  · rw [hsound.diagnostics_eq_nil_iff, hscripts]
    exact List.forall_mem_singleton.mpr (List.forall_mem_singleton.mpr hreports)
  · have hroutines := hsound.routines.2.2
    rw [hscripts] at hroutines
    obtain ⟨routine, hroutine, hbare⟩ := List.map_eq_singleton_iff.mp hroutines
    obtain ⟨span, destination, place, expr, hstatement, hexpr⟩ :=
      Statement.exists_of_bare (congrArg Routine.statements hbare)
    obtain ⟨hquiet, hterms⟩ := Expr.toTerms_of_bare (hstays formula hformula).1
      (hstays formula hformula).2 hexpr
    exact ⟨routine, span, destination, place, expr, hroutine, hstatement, hquiet,
      hterms.trans hformula⟩
  · rw [hsound.units_bare, hscripts]
    simp [Script.unit, hinstructions]

/-- The absolute value of a difference, compared with a constant below zero. -/
theorem ofSource_expression_difference :
    let terms : List Term := [.push (.register (.value 1)), .push (.register (.argument 2)),
      .apply .subtract, .apply .abs, .push (.constant (-5)), .apply .lessEqual]
    IsLabelName (ascii "A") ∧ Term.heightAfter? 0 terms = some 1 ∧
      Term.areLeft [] terms = true ∧ ∃ text, Term.expression? terms = some text ∧
        let source := ascii "A" ++ ascii ":\n    exp " ++ Register.name (.value 0) ++ ascii ", " ++
          text ++ ascii "\n"
        (ofSource source).diagnostics = [] ∧ (ofSource source).units.map CodeUnit.bare =
          [⟨.script, ascii "A", [.compute (.value 0) terms], [⟨ascii "A", 0, .origin⟩]⟩] := by
  intro terms
  have hname : IsLabelName (ascii "A") := ⟨by decide, by decide, by decide⟩
  have hvalue : Term.heightAfter? 0 terms = some 1 := rfl
  have hconstants : ∀ value, Term.push (.constant value) ∈ terms → -0x7fffffff ≤ value.toInt := by
    intro value hmem
    obtain rfl : value = -5 := by simpa [terms] using hmem
    decide
  have hleft : Term.areLeft [] terms = true := by decide
  obtain ⟨text, htext, hlisted, -, hunits⟩ :=
    ofSource_expression hname (.value 0) hvalue hconstants hleft
  exact ⟨hname, hvalue, hleft, text, htext, hlisted, hunits⟩

end Listing

end NovelAsm
