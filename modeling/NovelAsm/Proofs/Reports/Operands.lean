import NovelAsm.CodeUnit.Lowering
import NovelAsm.Proofs.Reports.Expressions

/-!
What is said of operands and of routines. An operand points at its own span or at that of an
expression in it, an instruction at the line it was written on or, if it was added, at its
routine.
-/

namespace NovelAsm

variable {allowed : Span → Prop}

/-- The spans of a case of a table jump are allowed. -/
structure TableCase.Within (allowed : Span → Prop) (tableCase : TableCase) : Prop where
  key : tableCase.key.Within allowed
  target : tableCase.target.Within allowed

/-- The spans of an argument and of its parts are allowed. -/
def Argument.Within (allowed : Span → Prop) : Argument → Prop
  | .expression span value => allowed span ∧ value.Within allowed
  | .flag span _ => allowed span
  | .array span elements => allowed span ∧ ∀ element ∈ elements, element.Within allowed
  | .jumpTable span cases => allowed span ∧ ∀ tableCase ∈ cases, tableCase.Within allowed

def Statement.Within (allowed : Span → Prop) : Statement → Prop
  | .label span _ => allowed span
  | .instruction span _ arguments => allowed span ∧ ∀ argument ∈ arguments, argument.Within allowed

structure Routine.Within (allowed : Span → Prop) (routine : Routine) : Prop where
  span : allowed routine.span
  statements : ∀ statement ∈ routine.statements, statement.Within allowed

/-- The span of an operand and those of the places in the code that it names are allowed. -/
structure Operand.Within (allowed : Span → Prop) (operand : Operand) : Prop where
  span : allowed operand.span
  targets : ∀ target ∈ operand.value.targets, allowed target.span

structure Instruction.Within (allowed : Span → Prop) (instruction : Instruction) : Prop where
  span : allowed instruction.span
  operands : ∀ operand ∈ instruction.operands, operand.Within allowed

structure CodeUnit.Within (allowed : Span → Prop) (unit : CodeUnit) : Prop where
  instructions : ∀ instruction ∈ unit.instructions, instruction.Within allowed
  labels : ∀ label ∈ unit.labels, allowed label.span

/-- What is said of operands that all have to be found, with what is known of each. -/
theorem allOf_early {α β : Type} {step : α → Reporting (Option β)} {P : β → Prop} {items : List α}
    (h : ∀ item ∈ items, Says allowed (step item) fun result => ∀ value ∈ result, P value) :
    Says allowed (allOf step items) fun result =>
      ∀ values ∈ result, ∀ value ∈ values, P value := by
  induction items with
  | nil => exact .pure fun _ hvalues => by cases hvalues; nofun
  | cons first rest ih =>
      obtain ⟨hfirst, hrest⟩ := List.forall_mem_cons.mp h
      refine hfirst.bind fun result hresult => (ih hrest).map fun results hresults => ?_
      split
      · intro values hvalues
        cases hvalues
        exact List.forall_mem_cons.mpr ⟨hresult _ rfl, hresults _ rfl⟩
      · nofun

/-- All that is said of numbers, strings and the like, which have no spans. -/
theorem allOf_plain_early {α β : Type} {step : α → Reporting (Option β)} {items : List α}
    (h : ∀ item ∈ items, Says allowed (step item) fun _ => True) :
    Says allowed (allOf step items) fun _ => True :=
  (allOf_early (P := fun _ => True) fun item hitem =>
    (h item hitem).mono fun _ _ _ _ => trivial).mono fun _ _ => trivial

namespace Argument

theorem Within.span {argument : Argument} (h : argument.Within allowed) :
    allowed argument.span := by
  cases argument with
  | flag => exact h
  | _ => exact h.1

variable {argument : Argument} (h : argument.Within allowed)

include h

theorem toExpr_early :
    Says allowed argument.toExpr fun result => ∀ expr ∈ result, expr.Within allowed := by
  cases argument with
  | expression => exact .pure fun _ hexpr => by cases hexpr; exact h.2
  | _ => exact OperandProblem.refuse_early _ h.span nofun

theorem element_early {α : Type} {reader : Expr → Reporting (Option α)}
    (hreader : ∀ expr : Expr, expr.Within allowed → Says allowed (reader expr) fun _ => True) :
    Says allowed (argument.element reader) fun _ => True := by
  refine (toExpr_early h).bind fun expr hexpr => ?_
  split
  · exact .pure trivial
  · exact hreader _ (hexpr _ rfl)

theorem read_early {α : Type} {reader : Expr → Reporting (Option α)} {toValue : α → OperandValue}
    {P : α → Prop}
    (hreader : ∀ expr : Expr, expr.Within allowed →
      Says allowed (reader expr) fun result => ∀ value ∈ result, P value)
    (hvalue : ∀ value, P value → ∀ target ∈ (toValue value).targets, allowed target.span) :
    Says allowed (argument.read reader toValue) fun result =>
      ∀ operand ∈ result, operand.Within allowed := by
  refine (toExpr_early h).bind fun expr hexpr => ?_
  split
  · exact .pure nofun
  · exact (hreader _ (hexpr _ rfl)).mapSome fun value hfound =>
      ⟨(hexpr _ rfl).span, hvalue value hfound⟩

/-- The operand for a value that names no place in the code. -/
theorem read_plain_early {α : Type} {reader : Expr → Reporting (Option α)}
    {toValue : α → OperandValue}
    (hreader : ∀ expr : Expr, expr.Within allowed → Says allowed (reader expr) fun _ => True)
    (hvalue : ∀ value, (toValue value).targets = []) :
    Says allowed (argument.read reader toValue) fun result =>
      ∀ operand ∈ result, operand.Within allowed :=
  read_early h (P := fun _ => True)
    (fun expr hexpr => (hreader expr hexpr).mono fun _ _ _ _ => trivial)
    fun value _ => by rw [hvalue]; nofun

theorem toBitmask_early :
    Says allowed argument.toBitmask fun result => ∀ operand ∈ result, operand.Within allowed := by
  cases argument with
  | array span elements =>
      simp only [toBitmask]
      split
      · exact OperandProblem.refuse_early _ h.1 nofun
      · refine (allOf_plain_early fun element helement =>
          Expr.toNumber_early (h.2 element helement)).map fun result _ operand hoperand => ?_
        obtain ⟨_, -, rfl⟩ := Option.map_eq_some_iff.mp hoperand
        exact ⟨h.1, nofun⟩
  | _ => exact OperandProblem.refuse_early _ h.span nofun

theorem toPaddedTable_early :
    Says allowed argument.toPaddedTable fun result =>
      ∀ operand ∈ result, operand.Within allowed := by
  cases argument with
  | array span elements =>
      refine (allOf_plain_early fun element helement =>
        Expr.toNumber_early (h.2 element helement)).map fun result _ operand hoperand => ?_
      obtain ⟨_, -, rfl⟩ := Option.map_eq_some_iff.mp hoperand
      exact ⟨h.1, nofun⟩
  | _ => exact OperandProblem.refuse_early _ h.span nofun

omit h in
theorem toCase_early {tableCase : TableCase} (h : tableCase.Within allowed) :
    Says allowed (toCase tableCase) fun result => ∀ found ∈ result, allowed found.2.span := by
  refine (Expr.toBounded_early h.key _ _).bind fun key _ =>
    (Expr.toTarget_early h.target).map fun destination hdestination => ?_
  split
  · intro found hfound
    cases hfound
    exact hdestination _ rfl
  · nofun

theorem toTargetTable_early :
    Says allowed argument.toTargetTable fun result =>
      ∀ operand ∈ result, operand.Within allowed := by
  cases argument with
  | jumpTable span cases =>
      refine (allOf_early fun tableCase hcase => toCase_early (h.2 tableCase hcase)).mapSome
        fun cases hcases => ⟨h.1, fun target htarget => ?_⟩
      obtain ⟨tableCase, hcase, rfl⟩ := List.mem_map.mp htarget
      exact hcases tableCase hcase
  | _ => exact OperandProblem.refuse_early _ h.span nofun

theorem toOperand_early (slot : Slot) :
    Says allowed (argument.toOperand slot) fun result =>
      ∀ operand ∈ result, operand.Within allowed := by
  cases slot with
  | bitmask => exact toBitmask_early h
  | targetTable => exact toTargetTable_early h
  | paddedTable => exact toPaddedTable_early h
  | number => exact read_plain_early h (fun _ => Expr.toNumber_early) fun _ => rfl
  | register => exact read_plain_early h (fun _ => Expr.toRegister_early) fun _ => rfl
  | byte => exact read_plain_early h (fun _ hexpr => Expr.toBounded_early hexpr _ _) fun _ => rfl
  | messageId =>
      exact read_plain_early h (fun _ hexpr => Expr.toBounded_early hexpr _ _) fun _ => rfl
  | string => exact read_plain_early h (fun _ => Expr.toText_early) fun _ => rfl
  | target =>
      exact read_early h (fun _ => Expr.toTarget_early) fun _ hspan =>
        List.forall_mem_singleton.mpr hspan
  | expression => exact read_plain_early h (fun _ => Expr.toTerms_early) fun _ => rfl
  | flag | numberList | registerList | byteList => exact .pure nofun

omit h in
theorem toList_early (slot : Slot) {arguments : List Argument} {span : Span}
    (harguments : ∀ argument ∈ arguments, argument.Within allowed) (h : allowed span) :
    Says allowed (toList slot arguments span) fun result =>
      ∀ operand ∈ result, operand.Within allowed := by
  have hall {α : Type} {reader : Expr → Reporting (Option α)} {toValue : List α → OperandValue}
      (hreader : ∀ expr : Expr, expr.Within allowed → Says allowed (reader expr) fun _ => True)
      (hvalue : ∀ values, (toValue values).targets = []) :
      Says allowed (do return (← allOf (element reader) arguments).map fun values =>
        (⟨toValue values, span⟩ : Operand)) fun result =>
          ∀ operand ∈ result, operand.Within allowed := by
    refine (allOf_plain_early fun argument hargument =>
      element_early (harguments argument hargument) hreader).map fun result _ operand hoperand => ?_
    obtain ⟨values, -, rfl⟩ := Option.map_eq_some_iff.mp hoperand
    exact ⟨h, by rw [hvalue]; nofun⟩
  simp only [toList]
  split
  · exact OperandProblem.refuse_early _ h nofun
  · split
    · exact hall (fun _ => Expr.toNumber_early) fun _ => rfl
    · exact hall (fun _ => Expr.toRegister_early) fun _ => rfl
    · exact hall (fun _ hexpr => Expr.toBounded_early hexpr _ _) fun _ => rfl

end Argument

/-- An operand in front of the others. -/
theorem Slot.join_early {first : Option Operand} {others : Reporting (Option (List Operand))}
    (hfirst : ∀ operand ∈ first, operand.Within allowed)
    (hothers : Says allowed others fun result =>
      ∀ operands ∈ result, ∀ operand ∈ operands, operand.Within allowed) :
    Says allowed (do
      let behind ← others
      return match first, behind with
        | some operand, some operands => some (operand :: operands)
        | _, _ => none) fun result =>
          ∀ operands ∈ result, ∀ operand ∈ operands, operand.Within allowed := by
  refine hothers.map fun behind hbehind => ?_
  split
  · intro operands hoperands
    cases hoperands
    exact List.forall_mem_cons.mpr ⟨hfirst _ rfl, hbehind _ rfl⟩
  · nofun

theorem Slot.fill_early (flags : List Flag) {span : Span} (h : allowed span) (slots : List Slot)
    {arguments : List Argument} (harguments : ∀ argument ∈ arguments, argument.Within allowed) :
    Says allowed (Slot.fill flags span slots arguments) fun result =>
      ∀ operands ∈ result, ∀ operand ∈ operands, operand.Within allowed := by
  induction slots generalizing arguments with
  | nil => exact .pure fun _ hoperands => by cases hoperands; nofun
  | cons place rest ih =>
      have hnil : ∀ argument ∈ ([] : List Argument), argument.Within allowed := nofun
      simp only [fill]
      split
      · refine Slot.join_early (fun operand hoperand => ?_) (ih harguments)
        cases hoperand
        exact ⟨h, nofun⟩
      · split
        · exact (Argument.toList_early _ harguments h).bind fun _ hlist =>
            Slot.join_early hlist (ih hnil)
        · split
          · have hnone : ∀ operand ∈ (none : Option Operand), operand.Within allowed := nofun
            exact Slot.join_early hnone (ih hnil)
          · obtain ⟨hargument, hmore⟩ := List.forall_mem_cons.mp harguments
            exact (Argument.toOperand_early hargument _).bind fun _ hfirst =>
              Slot.join_early hfirst (ih hmore)

/-- The expressions that a comparison is made of are parts of the condition. -/
structure Comparison.Within (allowed : Span → Prop) (comparison : Comparison) : Prop where
  left : comparison.left.Within allowed
  right : comparison.right.Within allowed

theorem Comparison.ofBinary?_within {negated : Bool} {operator : BinaryOperator} {left right : Expr}
    {comparison : Comparison} (hleft : left.Within allowed) (hright : right.Within allowed)
    (h : Comparison.ofBinary? negated operator left right = some comparison) :
    comparison.Within allowed := by
  simp only [ofBinary?] at h
  split at h
  · cases h
    exact ⟨hleft, hright⟩
  · split at h
    · rename_i bit hbit
      cases h
      refine ⟨hleft, ?_⟩
      unfold bitOf? at hbit
      split at hbit
      · cases hbit
        exact hright.2.2
      · cases hbit
    · cases h
      exact ⟨hleft, hright⟩
  · cases h

theorem Comparison.ofExpr_early (negated : Bool) {expr : Expr} (h : expr.Within allowed) :
    Says allowed (Comparison.ofExpr negated expr) fun result =>
      ∀ comparison ∈ result, comparison.Within allowed := by
  match expr, h with
  | .error _, _ => exact .pure nofun
  | .unary _ .logicalNot operand, h => exact Comparison.ofExpr_early (!negated) h.2
  | .binary _ operator left right, h =>
      simp only [Comparison.ofExpr]
      split
      · rename_i comparison hcomparison
        refine .pure fun found hfound => ?_
        cases hfound
        exact Comparison.ofBinary?_within h.2.1 h.2.2 hcomparison
      · exact OperandProblem.refuse_early _ h.1 nofun
  | .unary _ .negate _, h | .unary _ .bitNot _, h | .literal _ _, h | .string _ _, h
  | .register _ _ _, h | .codeAddress _ _ _ _, h | .call _ _ _, h =>
      exact OperandProblem.refuse_early _ h.span nofun

theorem Statement.checkFlags_early (form : Form) (mnemonic : Bytes) (seen : List Flag)
    (allRight : Bool) {flags : List (Flag × Span)} (h : ∀ flag ∈ flags, allowed flag.2) :
    Says allowed (Statement.checkFlags form mnemonic seen allRight flags) fun _ => True := by
  induction flags generalizing seen allRight with
  | nil => exact .pure trivial
  | cons first rest ih =>
      obtain ⟨hfirst, hrest⟩ := List.forall_mem_cons.mp h
      simp only [checkFlags]
      split
      · exact ih _ _ hrest
      · exact (OperandProblem.report_early _ hfirst).bind fun _ _ => ih _ _ hrest

theorem Statement.flagsOf_within {arguments : List Argument}
    (h : ∀ argument ∈ arguments, argument.Within allowed) :
    ∀ flag ∈ Statement.flagsOf arguments, allowed flag.2 := by
  intro flag hflag
  obtain ⟨argument, hargument, hfound⟩ := List.mem_filterMap.mp hflag
  cases argument with
  | flag span name =>
      cases hfound
      exact h _ hargument
  | _ => cases hfound

namespace Form

variable {span : Span} (h : allowed span) {positional : List Argument}
  (hpositional : ∀ argument ∈ positional, argument.Within allowed)

/-- What is known of operands that were found. -/
def Found (allowed : Span → Prop) (result : Option (UInt8 × List Operand)) : Prop :=
  ∀ found ∈ result, ∀ operand ∈ found.2, operand.Within allowed

include h hpositional

theorem typedOperands_early (form : Form) (mnemonic : Bytes) :
    Says allowed (form.typedOperands mnemonic span positional) (Found allowed) := by
  simp only [typedOperands]
  split
  · exact (Slot.fill_early _ h _ hpositional).mapSome fun _ hoperands => hoperands
  · split
    · exact (Slot.fill_early _ h _ hpositional).mapSome fun _ hoperands => hoperands
    · exact OperandProblem.refuse_early _ h nofun

theorem conditionalOperands_early (mnemonic : Bytes) :
    Says allowed (conditionalOperands mnemonic span positional) (Found allowed) := by
  simp only [conditionalOperands]
  split
  · rename_i condition target
    obtain ⟨hcondition, htarget⟩ := List.forall_mem_cons.mp hpositional
    refine (Comparison.ofExpr_early _ hcondition.2).bind fun comparison hcomparison => ?_
    split
    · rename_i found
      have hfound := hcomparison _ rfl
      refine (Expr.toNumber_early hfound.left).bind fun _ _ =>
        (Expr.toNumber_early hfound.right).bind fun _ _ =>
          (Argument.toOperand_early (htarget _ (List.mem_singleton_self _)) _).map
            fun operand hoperand => ?_
      split
      · intro result hresult
        cases hresult
        have htargetOperand := hoperand _ rfl
        simp only [List.forall_mem_cons, List.not_mem_nil, false_imp_iff, implies_true, and_true]
        exact ⟨⟨hfound.left.span, nofun⟩, ⟨hfound.right.span, nofun⟩, htargetOperand⟩
      · nofun
    · exact .pure nofun
  · exact OperandProblem.refuse_early _ (hpositional _ (List.mem_cons_self ..)).span nofun
  · exact OperandProblem.refuse_early _ h nofun

theorem operands_early (form : Form) (mnemonic : Bytes) (flags : List Flag) :
    Says allowed (form.operands mnemonic flags span positional) (Found allowed) := by
  simp only [operands]
  split
  · exact typedOperands_early h hpositional ..
  · exact conditionalOperands_early h hpositional ..
  · simp only [plainOperands]
    split
    · exact OperandProblem.refuse_early _ h nofun
    · exact (Slot.fill_early _ h _ hpositional).mapSome fun _ hoperands => hoperands

omit h in
theorem checkCall_early (operands : List Operand) :
    Says allowed (checkCall positional operands) fun _ => True := by
  simp only [checkCall]
  split
  · have haddress := (hpositional _ (List.mem_cons_self ..)).2
    split
    · exact .pure trivial
    · exact (OperandProblem.report_early _ haddress).map fun _ _ => trivial
  · exact .pure trivial

omit hpositional in
theorem instruction?_early (form : Form) (mnemonic : Bytes) {arguments : List Argument}
    (harguments : ∀ argument ∈ arguments, argument.Within allowed) :
    Says allowed (form.instruction? mnemonic span arguments) fun result =>
      ∀ instruction ∈ result, instruction.Within allowed := by
  have hpositional : ∀ argument ∈ Statement.positionalOf arguments, argument.Within allowed :=
    fun argument hargument => harguments argument (List.mem_of_mem_filter hargument)
  refine (Statement.checkFlags_early form mnemonic [] true
    (Statement.flagsOf_within harguments)).bind fun flags _ => ?_
  split
  · exact .pure nofun
  · refine (operands_early h hpositional ..).bind fun taken htaken => ?_
    split
    · exact .pure nofun
    · rename_i subtype operands
      have hresult (fits : Bool) : ∀ instruction ∈
          (if fits then some (⟨form.opcode, subtype, operands, span⟩ : Instruction) else none),
          instruction.Within allowed := by
        cases fits with
        | false => nofun
        | true => exact fun _ hinstruction => by cases hinstruction; exact ⟨h, htaken _ rfl⟩
      split
      · exact (checkCall_early hpositional _).map fun fits _ => hresult fits
      · exact .pure (hresult true)

end Form

namespace Routine

variable {routine : Routine}

theorem returnFrom_within (routine : Routine) {span : Span} (h : allowed span) :
    ∀ instruction ∈ routine.returnFrom span, instruction.Within allowed := by
  have hret : (⟨.ret, 0, [], span⟩ : Instruction).Within allowed := ⟨h, nofun⟩
  have hrestore : (⟨.pop, 0, [⟨.registerList routine.preserved.reverse, span⟩], span⟩ :
      Instruction).Within allowed := ⟨h, List.forall_mem_singleton.mpr ⟨h, nofun⟩⟩
  intro instruction hinstruction
  simp only [returnFrom, List.mem_append, List.mem_singleton] at hinstruction
  rcases hinstruction with hinstruction | rfl
  · split at hinstruction
    · cases hinstruction
    · rw [List.mem_singleton.mp hinstruction]
      exact hrestore
  · exact hret

theorem prologue_within (h : allowed routine.span) :
    ∀ instruction ∈ routine.prologue, instruction.Within allowed := by
  intro instruction hinstruction
  simp only [prologue] at hinstruction
  split at hinstruction
  · rw [List.mem_singleton.mp hinstruction]
    exact ⟨h, List.forall_mem_singleton.mpr ⟨h, nofun⟩⟩
  · cases hinstruction

theorem tail_within (h : allowed routine.span) :
    ∀ instruction ∈ routine.tail, instruction.Within allowed := by
  intro instruction hinstruction
  simp only [tail] at hinstruction
  split at hinstruction
  · cases hinstruction
  · exact routine.returnFrom_within h instruction hinstruction
  · rw [List.mem_singleton.mp hinstruction]
    exact ⟨h, nofun⟩

theorem lowerInstruction_early (routine : Routine) (mnemonic : Bytes) {span : Span}
    (h : allowed span) {arguments : List Argument}
    (harguments : ∀ argument ∈ arguments, argument.Within allowed) :
    Says allowed (routine.lowerInstruction span mnemonic arguments) fun result =>
      ∀ instruction ∈ result.1, instruction.Within allowed := by
  simp only [lowerInstruction]
  split
  · exact (OperandProblem.report_early _ h).map fun _ _ => nofun
  · split
    · exact .pure (routine.returnFrom_within h)
    · refine (Form.instruction?_early h _ _ harguments).map fun result hresult => ?_
      exact fun instruction hinstruction => hresult instruction (Option.mem_toList.mp hinstruction)

end Routine

namespace CodeUnit

theorem empty_within (kind : RoutineKind) (name : Bytes) :
    (CodeUnit.empty kind name).Within allowed := by
  constructor <;> simp [CodeUnit.empty]

theorem Within.append {unit : CodeUnit} (h : unit.Within allowed) {instructions : List Instruction}
    (hmore : ∀ instruction ∈ instructions, instruction.Within allowed) :
    (unit.append instructions).Within allowed :=
  ⟨List.forall_mem_append.mpr ⟨h.instructions, hmore⟩, h.labels⟩

theorem Within.placeLabel {unit : CodeUnit} (h : unit.Within allowed) (name : Bytes) {span : Span}
    (hspan : allowed span) : (unit.placeLabel name span).Within allowed :=
  ⟨h.instructions, List.forall_mem_append.mpr ⟨h.labels, List.forall_mem_singleton.mpr hspan⟩⟩

end CodeUnit

namespace Routine

theorem lowerStatements_early (routine : Routine) {code : CodeUnit} (hcode : code.Within allowed)
    (ended : Bool) {statements : List Statement}
    (h : ∀ statement ∈ statements, statement.Within allowed) :
    Says allowed (routine.lowerStatements code ended statements) fun result =>
      result.1.Within allowed := by
  induction statements generalizing code ended with
  | nil => exact .pure hcode
  | cons first rest ih =>
      obtain ⟨hfirst, hrest⟩ := List.forall_mem_cons.mp h
      cases first with
      | label span name => exact ih (hcode.placeLabel name hfirst) _ hrest
      | instruction span mnemonic arguments =>
          exact (routine.lowerInstruction_early mnemonic hfirst.1 hfirst.2).bind
            fun _ hinstructions => ih (hcode.append hinstructions) _ hrest

/-- What is said when a routine is lowered, and the spans of its code. -/
theorem lower_early {routine : Routine} (h : routine.Within allowed) :
    routine.lower.1.Within allowed ∧ routine.lower.2.AllEarly allowed := by
  have hopening : (((CodeUnit.empty routine.kind routine.name).placeLabel routine.name
      routine.span).append routine.prologue).Within allowed :=
    ((CodeUnit.empty_within _ _).placeLabel _ h.span).append (prologue_within h.span)
  have hrun := (routine.lowerStatements_early hopening false h.statements).run
  simp only [lower]
  generalize StateT.run (routine.lowerStatements _ false routine.statements) [] = run at hrun ⊢
  obtain ⟨⟨code, ended⟩, diagnostics⟩ := run
  refine ⟨?_, hrun.2⟩
  cases ended with
  | true => exact hrun.1
  | false => exact hrun.1.append (tail_within h.span)

end Routine

end NovelAsm
