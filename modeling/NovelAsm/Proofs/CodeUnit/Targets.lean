import NovelAsm.Proofs.CodeUnit.Forms

/-!
The symbols that instructions name. `Expr.Refers` says of an expression that each code address in
it is one of a kind; the targets of an instruction are such addresses of the operands that were
written for it, so what holds of the names in a routine holds of those in its code.
-/

namespace NovelAsm

open Reporting

/-- What is known of a code address: its name, what that stands for, and how many parameters
that takes. -/
abbrev Referring := Bytes → SymbolKind → Nat → Prop

namespace Expr

mutual

/-- Each code address in an expression is one of a kind. -/
def Refers (P : Referring) : Expr → Prop
  | .codeAddress _ name kind count => P name kind count
  | .unary _ _ operand => operand.Refers P
  | .binary _ _ left right => left.Refers P ∧ right.Refers P
  | .call _ _ arguments => AllRefer P arguments
  | .literal _ _ | .string _ _ | .register _ _ _ | .error _ => True

/-- Each code address in some expressions is one of a kind. -/
def AllRefer (P : Referring) : List Expr → Prop
  | [] => True
  | first :: rest => first.Refers P ∧ AllRefer P rest

end

theorem allRefer_iff {P : Referring} {exprs : List Expr} :
    AllRefer P exprs ↔ ∀ expr ∈ exprs, expr.Refers P := by
  induction exprs with
  | nil => simp [AllRefer]
  | cons first rest ih => simp [AllRefer, ih]

end Expr

/-- Each code address in an operand is one of a kind. -/
def Argument.Refers (P : Referring) : Argument → Prop
  | .expression _ value => value.Refers P
  | .flag _ _ => True
  | .array _ elements => ∀ element ∈ elements, element.Refers P
  | .jumpTable _ cases =>
      ∀ tableCase ∈ cases, tableCase.key.Refers P ∧ tableCase.target.Refers P

/-- Each code address in a statement is one of a kind. -/
def Statement.Refers (P : Referring) : Statement → Prop
  | .label _ _ => True
  | .instruction _ _ arguments => ∀ argument ∈ arguments, argument.Refers P

/-- Each code address in a routine is one of a kind. -/
def Routine.Refers (P : Referring) (routine : Routine) : Prop :=
  ∀ statement ∈ routine.statements, statement.Refers P

section Mono

variable {P Q : Referring}

mutual

theorem Expr.Refers.mono (h : ∀ name kind count, P name kind count → Q name kind count)
    (expr : Expr) (hrefers : expr.Refers P) : expr.Refers Q := by
  match expr with
  | .codeAddress _ name kind count => exact h name kind count hrefers
  | .unary _ _ operand => exact Expr.Refers.mono h operand hrefers
  | .binary _ _ left right =>
      exact ⟨Expr.Refers.mono h left hrefers.1, Expr.Refers.mono h right hrefers.2⟩
  | .call _ _ arguments => exact Expr.AllRefer.mono h arguments hrefers
  | .literal _ _ | .string _ _ | .register _ _ _ | .error _ => trivial

theorem Expr.AllRefer.mono (h : ∀ name kind count, P name kind count → Q name kind count)
    (exprs : List Expr) (hrefers : Expr.AllRefer P exprs) : Expr.AllRefer Q exprs := by
  match exprs with
  | [] => trivial
  | first :: rest =>
      exact ⟨Expr.Refers.mono h first hrefers.1, Expr.AllRefer.mono h rest hrefers.2⟩

end

variable (h : ∀ name kind count, P name kind count → Q name kind count)

include h

theorem Argument.Refers.mono {argument : Argument} (hrefers : argument.Refers P) :
    argument.Refers Q := by
  cases argument with
  | expression span value => exact Expr.Refers.mono h value hrefers
  | flag => trivial
  | array span elements =>
      exact fun element hmem => Expr.Refers.mono h element (hrefers element hmem)
  | jumpTable span cases =>
      exact fun tableCase hmem => (hrefers tableCase hmem).imp (Expr.Refers.mono h tableCase.key)
        (Expr.Refers.mono h tableCase.target)

theorem Routine.Refers.mono {routine : Routine} (hrefers : routine.Refers P) :
    routine.Refers Q := by
  intro statement hmem
  have hstatement := hrefers statement hmem
  cases statement with
  | label => trivial
  | instruction span mnemonic arguments =>
      exact fun argument hargument => Argument.Refers.mono h (hstatement argument hargument)

end Mono

/-- A place that is an address, or the name of a code address of a kind. -/
def CodeTarget.Refers (P : Referring) (destination : CodeTarget) : Prop :=
  ∀ name, destination.place = .symbol name → ∃ kind count, P name kind count

/-- An operand whose places are of a kind. -/
def OperandValue.Refers (P : Referring) (value : OperandValue) : Prop :=
  ∀ destination ∈ value.targets, destination.Refers P

/-- Operands whose places are of a kind. -/
def Operand.AllRefer (P : Referring) (operands : List Operand) : Prop :=
  ∀ operand ∈ operands, operand.value.Refers P

variable {P : Referring}

theorem Expr.toTarget_refers {expr : Expr} (h : expr.Refers P) :
    Finds expr.toTarget (CodeTarget.Refers P) := by
  cases expr with
  | codeAddress span name kind count =>
      simp only [toTarget]
      exact finds_some fun other hother => ⟨kind, count, Place.symbol.inj hother ▸ h⟩
  | error => exact finds_none
  | literal span value =>
      obtain ⟨number, kind⟩ := value
      cases kind with
      | integer =>
          simp only [toTarget]
          exact finds_some nofun
      | real => exact OperandProblem.refuse_finds _ _
  | string | register | unary | binary | call => exact OperandProblem.refuse_finds _ _

namespace Argument

/-- An operand of a kind that holds no place. -/
theorem finds_plain {step : Reporting (Option Operand)}
    (h : Finds step fun operand => operand.value.targets = []) :
    Finds step fun operand => operand.value.Refers P :=
  h.mono fun _ hfound operand hoperand destination hmem => by
    rw [hfound operand hoperand] at hmem
    cases hmem

theorem read_plain {α : Type} {reader : Expr → Reporting (Option α)} {toValue : α → OperandValue}
    (argument : Argument) (h : ∀ value, (toValue value).targets = []) :
    Finds (argument.read reader toValue) fun operand => operand.value.targets = [] := by
  refine Ensures.behind fun result => ?_
  split
  · exact finds_none
  · exact Finds.map (finds_true _) fun value _ => h value

theorem toExpr_refers {argument : Argument} (h : argument.Refers P) :
    Finds argument.toExpr (Expr.Refers P) := by
  cases argument with
  | expression span value => exact finds_some h
  | array | flag | jumpTable => exact OperandProblem.refuse_finds _ _

theorem toCase_refers {tableCase : TableCase} (h : tableCase.target.Refers P) :
    Finds (toCase tableCase) fun entry => entry.2.Refers P := by
  refine Ensures.behind fun key => (Expr.toTarget_refers h).bind fun destination hfound => ?_
  split
  · exact finds_some (hfound _ rfl)
  · exact finds_none

theorem toTargetTable_refers {argument : Argument} (h : argument.Refers P) :
    Finds argument.toTargetTable fun operand => operand.value.Refers P := by
  cases argument with
  | jumpTable span cases =>
      refine Finds.map (allOf_finds fun tableCase hcase => toCase_refers (h tableCase hcase).2)
        fun entries hentries destination hmem => ?_
      obtain ⟨entry, hentry, rfl⟩ := List.mem_map.mp hmem
      exact hentries.2 entry hentry
  | expression | flag | array => exact OperandProblem.refuse_finds _ _

theorem toBitmask_plain (argument : Argument) :
    Finds argument.toBitmask fun operand => operand.value.targets = [] := by
  cases argument with
  | array span elements =>
      simp only [toBitmask]
      split
      · exact OperandProblem.refuse_finds _ _
      · exact Finds.map (finds_true _) fun _ _ => rfl
  | expression | flag | jumpTable => exact OperandProblem.refuse_finds _ _

theorem toPaddedTable_plain (argument : Argument) :
    Finds argument.toPaddedTable fun operand => operand.value.targets = [] := by
  cases argument with
  | array span elements => exact Finds.map (finds_true _) fun _ _ => rfl
  | expression | flag | jumpTable => exact OperandProblem.refuse_finds _ _

theorem toOperand_refers (place : Slot) {argument : Argument} (h : argument.Refers P) :
    Finds (argument.toOperand place) fun operand => operand.value.Refers P := by
  cases place with
  | targetTable => exact toTargetTable_refers h
  | target =>
      refine (toExpr_refers h).bind fun result hresult => ?_
      split
      · exact finds_none
      · rename_i expr
        refine Finds.map (Expr.toTarget_refers (hresult expr rfl)) fun destination hfound other
          hmem => ?_
        rw [List.mem_singleton.mp hmem]
        exact hfound
  | bitmask => exact finds_plain argument.toBitmask_plain
  | paddedTable => exact finds_plain argument.toPaddedTable_plain
  | number | register | byte | messageId | string | expression =>
      exact finds_plain (argument.read_plain fun _ => rfl)
  | flag | numberList | registerList | byteList => exact finds_none

theorem toList_refers (place : Slot) (arguments : List Argument) (span : Span) :
    Finds (toList place arguments span) fun operand => operand.value.Refers P := by
  refine finds_plain ?_
  simp only [toList]
  split
  · exact OperandProblem.refuse_finds _ _
  · split <;> exact Finds.map (finds_true _) fun _ _ => rfl

end Argument

namespace Slot

/-- An operand in front of the others. -/
theorem join_refers {first : Option Operand} {others : Reporting (Option (List Operand))} :
    (∀ operand, first = some operand → operand.value.Refers P) →
    Finds others (Operand.AllRefer P) →
    Finds (do
      let behind ← others
      return match first, behind with
        | some operand, some operands => some (operand :: operands)
        | _, _ => none) (Operand.AllRefer P) := by
  intro hfirst hothers
  refine Ensures.bind hothers fun behind hbehind => ?_
  split
  · rename_i operand operands
    exact finds_some (List.forall_mem_cons.mpr ⟨hfirst operand rfl, hbehind operands rfl⟩)
  · exact finds_none

theorem fill_refers (flags : List Flag) (span : Span) (slots : List Slot)
    {arguments : List Argument} (h : ∀ argument ∈ arguments, argument.Refers P) :
    Finds (fill flags span slots arguments) (Operand.AllRefer P) := by
  have hnone : ∀ argument ∈ ([] : List Argument), argument.Refers P := fun _ hmem => by cases hmem
  induction slots generalizing arguments with
  | nil => exact finds_some fun _ hmem => by cases hmem
  | cons place rest ih =>
      simp only [fill]
      split
      · refine join_refers (fun operand hoperand => ?_) (ih h)
        obtain rfl := Option.some.inj hoperand
        exact fun _ hmem => by cases hmem
      · split
        · exact (Argument.toList_refers _ arguments span).bind fun first hfirst =>
            join_refers hfirst (ih hnone)
        · split
          · exact @join_refers P none _ (fun operand hoperand => by cases hoperand) (ih hnone)
          · rename_i argument left
            exact (Argument.toOperand_refers _ (h argument (List.mem_cons_self ..))).bind
              fun first hfirst => join_refers hfirst
                (ih fun other hother => h other (List.mem_cons_of_mem _ hother))

end Slot

namespace Form

/-- A type byte and operands whose places are of a kind. -/
def Refer (P : Referring) (taken : UInt8 × List Operand) : Prop := Operand.AllRefer P taken.2

theorem fillWith_refers (subtype : UInt8) (flags : List Flag) (span : Span) (slots : List Slot)
    {arguments : List Argument} (h : ∀ argument ∈ arguments, argument.Refers P) :
    Finds (do
      let operands ← Slot.fill flags span slots arguments
      return operands.map fun operands => (subtype, operands)) (Refer P) :=
  Finds.map (Slot.fill_refers flags span slots h) fun _ h => h

theorem comparisonOperands_refers (comparison : Comparison) {destination : Argument}
    (h : destination.Refers P) :
    Finds (comparisonOperands comparison destination) (Refer P) := by
  refine Ensures.behind fun left => Ensures.behind fun right => ?_
  refine (Argument.toOperand_refers .target h).bind fun found hfound => ?_
  split
  · refine finds_some fun operand hoperand => ?_
    rcases List.mem_cons.mp hoperand with rfl | hoperand
    · exact nofun
    · rcases List.mem_cons.mp hoperand with rfl | hoperand
      · exact nofun
      · rw [List.mem_singleton.mp hoperand]
        exact hfound _ rfl
  · exact finds_none

theorem operands_refers (form : Form) (mnemonic : Bytes) (flags : List Flag) (span : Span)
    {positional : List Argument} (h : ∀ argument ∈ positional, argument.Refers P) :
    Finds (form.operands mnemonic flags span positional) (Refer P) := by
  simp only [operands]
  split
  · simp only [typedOperands]
    split
    · exact fillWith_refers _ _ _ _ h
    · split
      · exact fillWith_refers _ _ _ _ h
      · exact OperandProblem.refuse_finds _ _
  · simp only [conditionalOperands]
    split
    · rename_i place condition destination
      refine Ensures.behind fun comparison => ?_
      split
      · exact comparisonOperands_refers _ (h destination (by simp))
      · exact finds_none
    · exact OperandProblem.refuse_finds _ _
    · exact OperandProblem.refuse_finds _ _
  · simp only [plainOperands]
    split
    · exact OperandProblem.refuse_finds _ _
    · exact fillWith_refers _ _ _ _ h

/-- The places of an instruction are those that were written for it. -/
theorem instruction?_refers (form : Form) (mnemonic : Bytes) (span : Span)
    {arguments : List Argument} (h : ∀ argument ∈ arguments, argument.Refers P) :
    Finds (form.instruction? mnemonic span arguments) fun instruction =>
      ∀ destination ∈ instruction.targets, destination.Refers P := by
  refine (instruction?_finds fun flags => operands_refers form mnemonic flags span
    fun argument hargument => h argument (List.mem_filter.mp hargument).1).mono ?_
  intro found hfound instruction hinstruction destination hdestination
  obtain ⟨taken, htaken, rfl⟩ := hfound instruction hinstruction
  obtain ⟨operand, hoperand, hmem⟩ := List.mem_flatMap.mp hdestination
  exact htaken operand hoperand destination hmem

end Form

namespace Routine

/-- Instructions whose places are of a kind. -/
def PlacesRefer (P : Referring) (instructions : List Instruction) : Prop :=
  ∀ instruction ∈ instructions, ∀ destination ∈ instruction.targets, destination.Refers P

theorem PlacesRefer.append {front back : List Instruction} (h : PlacesRefer P front)
    (hback : PlacesRefer P back) : PlacesRefer P (front ++ back) := fun instruction hmem =>
  (List.mem_append.mp hmem).elim (h instruction) (hback instruction)

/-- What a routine adds by itself names no place. -/
theorem placesRefer_of_targets {instructions : List Instruction}
    (h : ∀ instruction ∈ instructions, instruction.targets = []) : PlacesRefer P instructions :=
  fun instruction hmem destination hdestination => by
    rw [h instruction hmem] at hdestination
    cases hdestination

theorem returnFrom_targets (routine : Routine) (span : Span) :
    ∀ instruction ∈ routine.returnFrom span, instruction.targets = [] := by
  intro instruction hmem
  simp only [returnFrom, List.mem_append, List.mem_singleton] at hmem
  rcases hmem with hmem | rfl
  · split at hmem
    · cases hmem
    · rw [List.mem_singleton.mp hmem]
      rfl
  · rfl

theorem prologue_targets (routine : Routine) :
    ∀ instruction ∈ routine.prologue, instruction.targets = [] := by
  intro instruction hmem
  simp only [prologue] at hmem
  split at hmem
  · rw [List.mem_singleton.mp hmem]
    rfl
  · cases hmem

theorem tail_targets (routine : Routine) :
    ∀ instruction ∈ routine.tail, instruction.targets = [] := by
  intro instruction hmem
  simp only [tail] at hmem
  split at hmem
  · cases hmem
  · exact returnFrom_targets routine _ instruction hmem
  · rw [List.mem_singleton.mp hmem]
    rfl

theorem lowerInstruction_refers (routine : Routine) (span : Span) (mnemonic : Bytes)
    {arguments : List Argument} (h : ∀ argument ∈ arguments, argument.Refers P) :
    Ensures (routine.lowerInstruction span mnemonic arguments) fun lowered =>
      PlacesRefer P lowered.1 := by
  simp only [lowerInstruction]
  split
  · exact Ensures.behind fun _ => Ensures.pure fun _ hmem => by cases hmem
  · rename_i form hform
    split
    · exact Ensures.pure (placesRefer_of_targets (routine.returnFrom_targets span))
    · refine (form.instruction?_refers mnemonic span h).bind fun result hresult =>
        Ensures.pure fun instruction hinstruction => ?_
      exact hresult instruction (Option.mem_toList.mp hinstruction)

theorem lowerStatements_refers (routine : Routine) {code : CodeUnit} (ended : Bool)
    {statements : List Statement} (h : ∀ statement ∈ statements, statement.Refers P)
    (hcode : PlacesRefer P code.instructions) :
    Ensures (routine.lowerStatements code ended statements) fun lowered =>
      PlacesRefer P lowered.1.instructions := by
  induction statements generalizing code ended with
  | nil => exact Ensures.pure hcode
  | cons first rest ih =>
      have hrest : ∀ statement ∈ rest, statement.Refers P := fun statement hmem =>
        h statement (List.mem_cons_of_mem _ hmem)
      cases first with
      | label span name => exact ih false hrest hcode
      | instruction span mnemonic arguments =>
          exact (routine.lowerInstruction_refers span mnemonic
            (h _ (List.mem_cons_self ..))).bind fun lowered hlowered =>
              ih lowered.2 hrest (hcode.append hlowered)

/-- The places of the code of a routine are those that its statements name. -/
theorem lower_refers {routine : Routine} (h : routine.Refers P) :
    PlacesRefer P routine.lower.1.instructions := by
  have hopening : PlacesRefer P (((CodeUnit.empty routine.kind routine.name).placeLabel
      routine.name routine.span).append routine.prologue).instructions :=
    placesRefer_of_targets routine.prologue_targets
  have hstatements := routine.lowerStatements_refers false h hopening []
  simp only [lower, StateT.run]
  generalize routine.lowerStatements _ false routine.statements [] = lowered at hstatements ⊢
  obtain ⟨⟨code, ended⟩, diagnostics⟩ := lowered
  cases ended with
  | true => exact hstatements
  | false => exact hstatements.append (placesRefer_of_targets routine.tail_targets)

end Routine

end NovelAsm
