import NovelAsm.Proofs.CodeUnit.Preservation
import NovelAsm.Proofs.Resolve.Faultless

/-!
Nothing is left out in silence. A step of the lowering has no result where an operand is an
error, and wherever else it has none, it says why; so an instruction whose operands hold no
error is lowered, or reported (`Form.instruction?_answers`).
-/

namespace NovelAsm

/-- A step that finds something if a condition holds, or says why it does not. -/
def Answers {α : Type} (P : Prop) (step : Reporting (Option α)) : Prop :=
  Silently step fun result => P → result.isSome = true

namespace Answers

variable {α β : Type} {P Q : Prop}

theorem some (value : α) : Answers P (Pure.pure (some value)) := .pure fun _ => rfl

theorem none (h : ¬ P) : Answers P (Pure.pure (none : Option α)) := .pure fun hP => absurd hP h

theorem refuse (problem : OperandProblem) (span : Span) :
    Answers P (problem.refuse span : Reporting (Option α)) := Silently.refuse problem span

theorem mono {step : Reporting (Option α)} (h : Answers P step) (himplies : Q → P) :
    Answers Q step := Silently.mono h fun _ hresult hQ => hresult (himplies hQ)

theorem map {step : Reporting (Option α)} (h : Answers P step) (change : α → β) :
    Answers P (do return (← step).map change) :=
  Silently.follow h fun result => .pure fun hresult hP => by
    rw [Option.isSome_map]
    exact hresult hP

/-- All results of a list. -/
theorem allOf {step : α → Reporting (Option β)} {Good : α → Prop}
    (h : ∀ item, Answers (Good item) (step item)) (items : List α) :
    Answers (∀ item ∈ items, Good item) (NovelAsm.allOf step items) := by
  induction items with
  | nil => exact .some []
  | cons first rest ih =>
      refine Silently.follow (h first) fun result => Silently.follow ih fun results => .pure ?_
      intro hresults hresult hgood
      obtain ⟨hfirst, hrest⟩ := List.forall_mem_cons.mp hgood
      obtain ⟨value, rfl⟩ := Option.isSome_iff_exists.mp (hresult hfirst)
      obtain ⟨values, rfl⟩ := Option.isSome_iff_exists.mp (hresults hrest)
      rfl

end Answers

/-- What is said of expressions is said at all. -/
theorem Computation.loud_said (count : Nat) : Loud (SaidAtLeast count) (SaidMore count) where
  report problem span said hsaid := by
    have hlength : (said ++ [Diagnostic.error problem.code problem.message span]).length =
        said.length + 1 := List.length_append
    unfold SaidAtLeast SaidMore at *
    omega

namespace Expr

open NovelAsm.Computation

theorem compute_silently (expr : Expr) : Silently expr.compute fun computation =>
    expr.Faultless → computation.isValid = true :=
  .of_honest fun count => (loud_said count).compute_holds expr

/-- A step that needs the value of an expression, and checks it. -/
theorem checked_answers {α : Type} (expr : Expr) {next : Computation → Reporting (Option α)}
    (h : ∀ computation, Silently (next computation) (Option.isSome · = true)) :
    Answers expr.Faultless (do
      let computation ← expr.compute
      if !computation.isValid then return none
      next computation) :=
  (compute_silently expr).follow fun computation => by
    split
    · rename_i hinvalid
      exact .pure fun hvalid hfaultless => by simp [hvalid hfaultless] at hinvalid
    · exact (h computation).mono fun _ hresult _ _ => hresult

theorem toNumber_answers (expr : Expr) : Answers expr.Faultless expr.toNumber :=
  checked_answers expr fun computation => by
    split
    · exact .pure rfl
    · exact .refuse _ _

theorem toBounded_answers (limit : Int) (problem : OperandProblem) (expr : Expr) :
    Answers expr.Faultless (expr.toBounded limit problem) :=
  checked_answers expr fun computation => by
    split
    · split
      · exact .pure rfl
      · exact .refuse _ _
    · exact .refuse _ _

theorem toRegister_answers (expr : Expr) : Answers expr.Faultless expr.toRegister := by
  cases expr with
  | register span source kind => exact .some source
  | error => exact .none id
  | literal | string | codeAddress | unary | binary | call => exact .refuse _ _

theorem toText_answers (expr : Expr) : Answers expr.Faultless expr.toText := by
  cases expr with
  | string span text => exact .some text
  | error => exact .none id
  | literal | register | codeAddress | unary | binary | call => exact .refuse _ _

theorem toTarget_answers (expr : Expr) : Answers expr.Faultless expr.toTarget :=
  Silently.mono (Form.toTarget_silently expr) fun found hfound hfaultless => by
    cases found with
    | some destination => rfl
    | none =>
        obtain ⟨place, rfl⟩ := hfound rfl
        exact absurd hfaultless id

theorem toTerms_answers (expr : Expr) : Answers expr.Faultless expr.toTerms :=
  (compute_silently expr).follow fun computation => .pure fun hvalid hfaultless => by
    rw [if_pos (hvalid hfaultless)]
    rfl

end Expr

namespace Argument

theorem toExpr_silently (argument : Argument) : Silently argument.toExpr fun found =>
    argument.Faultless → ∃ expr, found = some expr ∧ expr.Faultless := by
  cases argument with
  | expression span value => exact .pure fun hfaultless => ⟨value, rfl, hfaultless⟩
  | array | flag | jumpTable => exact .refuse _ _

/-- A step on an operand that has to be an expression. -/
theorem behind_toExpr {α : Type} (argument : Argument) {next : Expr → Reporting (Option α)}
    (h : ∀ expr, Answers expr.Faultless (next expr)) :
    Answers argument.Faultless (do
      match ← argument.toExpr with
      | none => return none
      | some expr => next expr) :=
  (toExpr_silently argument).follow fun found => by
    cases found with
    | none =>
        refine .pure fun hfound hfaultless => ?_
        obtain ⟨expr, hexpr, -⟩ := hfound hfaultless
        cases hexpr
    | some expr =>
        refine Silently.mono (h expr) fun result hresult hfound hfaultless => ?_
        obtain ⟨other, hother, hexpr⟩ := hfound hfaultless
        exact hresult (Option.some.inj hother ▸ hexpr)

theorem read_answers {α : Type} (argument : Argument) {reader : Expr → Reporting (Option α)}
    (toValue : α → OperandValue) (h : ∀ expr, Answers expr.Faultless (reader expr)) :
    Answers argument.Faultless (argument.read reader toValue) :=
  behind_toExpr argument fun expr => (h expr).map _

theorem element_answers {α : Type} {reader : Expr → Reporting (Option α)}
    (h : ∀ expr, Answers expr.Faultless (reader expr)) (argument : Argument) :
    Answers argument.Faultless (element reader argument) :=
  behind_toExpr argument h

theorem toBitmask_answers (argument : Argument) :
    Answers argument.Faultless argument.toBitmask := by
  cases argument with
  | array span elements =>
      simp only [toBitmask]
      split
      · exact .refuse _ _
      · exact (Answers.allOf Expr.toNumber_answers elements).map _
  | expression | flag | jumpTable => exact .refuse _ _

theorem toPaddedTable_answers (argument : Argument) :
    Answers argument.Faultless argument.toPaddedTable := by
  cases argument with
  | array span elements => exact (Answers.allOf Expr.toNumber_answers elements).map _
  | expression | flag | jumpTable => exact .refuse _ _

theorem toCase_answers (tableCase : TableCase) :
    Answers (tableCase.key.Faultless ∧ tableCase.target.Faultless) (toCase tableCase) := by
  refine Silently.follow (Expr.toBounded_answers _ _ tableCase.key) fun key =>
    Silently.follow (Expr.toTarget_answers tableCase.target) fun destination => .pure ?_
  intro hdestination hkey hfaultless
  obtain ⟨value, rfl⟩ := Option.isSome_iff_exists.mp (hkey hfaultless.1)
  obtain ⟨place, rfl⟩ := Option.isSome_iff_exists.mp (hdestination hfaultless.2)
  rfl

theorem toTargetTable_answers (argument : Argument) :
    Answers argument.Faultless argument.toTargetTable := by
  cases argument with
  | jumpTable span cases => exact (Answers.allOf toCase_answers cases).map _
  | expression | flag | array => exact .refuse _ _

theorem toOperand_answers {place : Slot} (hflag : place.isFlag = false)
    (hlist : place.isList = false) (argument : Argument) :
    Answers argument.Faultless (argument.toOperand place) := by
  cases place with
  | bitmask => exact argument.toBitmask_answers
  | targetTable => exact argument.toTargetTable_answers
  | paddedTable => exact argument.toPaddedTable_answers
  | number => exact argument.read_answers _ Expr.toNumber_answers
  | register => exact argument.read_answers _ Expr.toRegister_answers
  | byte | messageId => exact argument.read_answers _ (Expr.toBounded_answers _ _)
  | string => exact argument.read_answers _ Expr.toText_answers
  | target => exact argument.read_answers _ Expr.toTarget_answers
  | expression => exact argument.read_answers _ Expr.toTerms_answers
  | flag => cases hflag
  | numberList | registerList | byteList => cases hlist

theorem toList_answers (place : Slot) (arguments : List Argument) (span : Span) :
    Answers (∀ argument ∈ arguments, argument.Faultless) (toList place arguments span) := by
  simp only [toList]
  split
  · exact .refuse _ _
  · split
    · exact (Answers.allOf (element_answers Expr.toNumber_answers) arguments).map _
    · exact (Answers.allOf (element_answers Expr.toRegister_answers) arguments).map _
    · exact (Answers.allOf (element_answers (Expr.toBounded_answers _ _)) arguments).map _

end Argument

namespace Slot

/-- Whether a slot takes an argument of its own. -/
def takesOne (place : Slot) : Bool := !place.isFlag && !place.isList

/-- Slots of which none follows a list. -/
def ListLast (slots : List Slot) : Prop := ∀ place ∈ slots.dropLast, place.isList = false

instance (slots : List Slot) : Decidable (ListLast slots) :=
  inferInstanceAs (Decidable (∀ place ∈ slots.dropLast, place.isList = false))

theorem ListLast.tail {place : Slot} {rest : List Slot} (h : ListLast (place :: rest)) :
    ListLast rest := by
  cases rest with
  | nil => exact fun _ hmem => by cases hmem
  | cons next others => exact fun other hmem => h other (List.mem_cons_of_mem _ hmem)

theorem ListLast.eq_nil {place : Slot} {rest : List Slot} (h : ListLast (place :: rest))
    (hlist : place.isList = true) : rest = [] := by
  cases rest with
  | nil => rfl
  | cons next others =>
      have hnot := h place (List.mem_cons_self ..)
      rw [hlist] at hnot
      cases hnot

/-- An operand in front of the others. -/
theorem join_answers {P : Prop} {first : Option Operand}
    {others : Reporting (Option (List Operand))} (hothers : Answers P others) :
    Answers (first.isSome = true ∧ P) (do
      let behind ← others
      return match first, behind with
        | some operand, some operands => some (operand :: operands)
        | _, _ => none) :=
  Silently.follow hothers fun behind => .pure fun hbehind hboth => by
    obtain ⟨operand, rfl⟩ := Option.isSome_iff_exists.mp hboth.1
    obtain ⟨operands, rfl⟩ := Option.isSome_iff_exists.mp (hbehind hboth.2)
    rfl

/-- Slots are filled by as many arguments as they take, or more. -/
theorem fill_answers (flags : List Flag) (span : Span) {slots : List Slot}
    (hlast : ListLast slots) (arguments : List Argument) :
    Answers (slots.countP takesOne ≤ arguments.length ∧ ∀ argument ∈ arguments, argument.Faultless)
      (fill flags span slots arguments) := by
  induction slots generalizing arguments with
  | nil => exact .some []
  | cons place rest ih =>
      simp only [fill]
      split
      · exact (join_answers (ih hlast.tail arguments)).mono fun hfits => ⟨rfl, hfits⟩
      · rename_i hnotFlag
        have hflag : place.isFlag = false := by
          cases place with
          | flag name normal => exact absurd rfl (hnotFlag name normal)
          | _ => rfl
        split
        · rename_i hlist
          obtain rfl := hlast.eq_nil hlist
          refine Silently.follow (Argument.toList_answers place arguments span) fun first => ?_
          refine Silently.mono (join_answers (ih hlast.tail [])) fun _ hresult hfirst hfits =>
            hresult ⟨hfirst hfits.2, Nat.zero_le _, fun _ hmem => by cases hmem⟩
        · rename_i hlist
          have hcount : (place :: rest).countP takesOne = rest.countP takesOne + 1 :=
            List.countP_cons_of_pos (by simp [takesOne, hflag, hlist])
          rw [hcount]
          cases arguments with
          | nil =>
              exact Silently.mono (@join_answers _ none _ (ih hlast.tail []))
                fun _ _ hfits => absurd hfits.1 (Nat.not_succ_le_zero _)
          | cons argument others =>
              refine Silently.follow (Argument.toOperand_answers hflag (by simpa using hlist)
                argument) fun first => ?_
              refine Silently.mono (join_answers (ih hlast.tail others))
                fun _ hresult hfirst hfits => ?_
              obtain ⟨hlength, hfaultless⟩ := hfits
              obtain ⟨hargument, hothers⟩ := List.forall_mem_cons.mp hfaultless
              exact hresult ⟨hfirst hargument, Nat.le_of_succ_le_succ hlength, hothers⟩

end Slot

namespace Comparison

theorem ofBinary?_faultless {negated : Bool} {operator : BinaryOperator} {left right : Expr}
    {comparison : Comparison} (h : ofBinary? negated operator left right = some comparison)
    (hleft : left.Faultless) (hright : right.Faultless) :
    comparison.left.Faultless ∧ comparison.right.Faultless := by
  simp only [ofBinary?] at h
  split at h
  · obtain rfl := Option.some.inj h
    exact ⟨hleft, hright⟩
  · split at h
    · rename_i bit hbit
      obtain rfl := Option.some.inj h
      refine ⟨hleft, ?_⟩
      unfold bitOf? at hbit
      split at hbit
      · obtain rfl := Option.some.inj hbit
        exact hright.2
      · cases hbit
    · obtain rfl := Option.some.inj h
      exact ⟨hleft, hright⟩
  · cases h

theorem ofExpr_silently (negated : Bool) (expr : Expr) :
    Silently (ofExpr negated expr) fun found => expr.Faultless →
      ∃ comparison, found = some comparison ∧ comparison.left.Faultless ∧
        comparison.right.Faultless := by
  fun_induction ofExpr negated expr with
  | case1 => exact .pure False.elim
  | case2 negated span operand ih => exact ih
  | case3 negated span operator left right comparison hfound =>
      exact .pure fun hfaultless =>
        ⟨comparison, rfl, ofBinary?_faultless hfound hfaultless.1 hfaultless.2⟩
  | case4 => exact .refuse _ _
  | case5 => exact .refuse _ _

end Comparison

namespace Form

open Slot

/-- What the rows of the table have in common: a list stands last, and the second operand of an
operation is one of its own. -/
theorem rows_listLast : ∀ form ∈ table, ListLast form.slots ∧
    (form.layout = .typedOptional → ListLast (form.slots.eraseIdx 1) ∧
      (form.slots.eraseIdx 1).length + 1 = form.slots.length) := by
  decide +kernel

theorem comparisonOperands_answers (comparison : Comparison) (destination : Argument) :
    Answers ((comparison.left.Faultless ∧ comparison.right.Faultless) ∧ destination.Faultless)
      (comparisonOperands comparison destination) := by
  refine Silently.follow (Expr.toNumber_answers comparison.left) fun left =>
    Silently.follow (Expr.toNumber_answers comparison.right) fun right =>
    Silently.follow (@Argument.toOperand_answers .target rfl rfl destination)
      fun found => .pure ?_
  intro hfound hright hleft hfaultless
  obtain ⟨first, rfl⟩ := Option.isSome_iff_exists.mp (hleft hfaultless.1.1)
  obtain ⟨second, rfl⟩ := Option.isSome_iff_exists.mp (hright hfaultless.1.2)
  obtain ⟨place, rfl⟩ := Option.isSome_iff_exists.mp (hfound hfaultless.2)
  rfl

/-- The operands that fill some slots, of which there are enough. -/
theorem fillWith_answers (subtype : UInt8) (flags : List Flag) (span : Span) {slots : List Slot}
    (hlast : ListLast slots) {arguments : List Argument}
    (hcount : slots.countP takesOne ≤ arguments.length) :
    Answers (∀ argument ∈ arguments, argument.Faultless) (do
      let operands ← Slot.fill flags span slots arguments
      return operands.map fun operands => (subtype, operands)) :=
  ((fill_answers flags span hlast arguments).mono fun h => ⟨hcount, h⟩).map _

theorem operands_answers {form : Form} (hmem : form ∈ table) (mnemonic : Bytes)
    (flags : List Flag) (span : Span) (positional : List Argument) :
    Answers (∀ argument ∈ positional, argument.Faultless)
      (form.operands mnemonic flags span positional) := by
  obtain ⟨hlast, htyped⟩ := rows_listLast form hmem
  simp only [operands]
  split
  · rename_i hlayout
    obtain ⟨hshort, hlength⟩ := htyped hlayout
    simp only [typedOperands]
    split
    · rename_i hcount
      exact fillWith_answers _ _ _ hlast (List.countP_le_length.trans (beq_iff_eq.mp hcount).ge)
    · split
      · rename_i hcount
        refine fillWith_answers _ _ _ hshort (List.countP_le_length.trans ?_)
        have hgiven := beq_iff_eq.mp hcount
        omega
      · exact .refuse _ _
  · simp only [conditionalOperands]
    split
    · rename_i place condition destination
      refine Silently.follow (Comparison.ofExpr_silently false condition) fun found => ?_
      cases found with
      | none =>
          refine .pure fun hfound hfaultless => ?_
          obtain ⟨comparison, hcomparison, -⟩ := hfound (hfaultless _ (List.mem_cons_self ..))
          cases hcomparison
      | some comparison =>
          refine Silently.mono (comparisonOperands_answers comparison destination)
            fun _ hresult hfound hfaultless => ?_
          obtain ⟨other, hother, hsides⟩ := hfound (hfaultless _ (List.mem_cons_self ..))
          obtain rfl := Option.some.inj hother
          exact hresult ⟨hsides, hfaultless destination (by simp)⟩
    · exact .refuse _ _
    · exact .refuse _ _
  · simp only [plainOperands]
    split
    · exact .refuse _ _
    · rename_i hcount
      refine fillWith_answers _ _ _ hlast ?_
      simp only [Form.admits, Bool.not_eq_true', Bool.not_eq_false, Bool.and_eq_true,
        decide_eq_true_eq] at hcount
      exact hcount.1

theorem checkCall_silently (positional : List Argument) (operands : List Operand) :
    Silently (checkCall positional operands) (· = true) := by
  simp only [checkCall]
  split
  · split
    · exact .pure rfl
    · exact .behind_report _ (.pure (P := fun _ => True) trivial)
  · exact .pure rfl

/-- An instruction whose operands hold no error is made, or it is reported. -/
theorem instruction?_answers {form : Form} (hmem : form ∈ table) (mnemonic : Bytes) (span : Span)
    (arguments : List Argument) :
    Answers (∀ argument ∈ arguments, argument.Faultless)
      (form.instruction? mnemonic span arguments) := by
  have hpositional (h : ∀ argument ∈ arguments, argument.Faultless) :
      ∀ argument ∈ Statement.positionalOf arguments, argument.Faultless :=
    fun argument hargument => h argument (List.mem_filter.mp hargument).1
  have hjoin (fits : Reporting Bool) (hfits : Silently fits (· = true))
      (instruction : Instruction) :
      Silently (do return if ← fits then some instruction else none) (Option.isSome · = true) :=
    hfits.follow fun _ => .pure fun hfits => by
      rw [if_pos hfits]
      rfl
  simp only [instruction?]
  refine Silently.follow (Statement.checkFlags_silently form mnemonic [] _) fun flags => ?_
  cases flags with
  | none => exact .pure fun h => by cases h
  | some flags =>
      refine Silently.follow (operands_answers hmem mnemonic flags span _) fun taken => ?_
      cases taken with
      | none => exact .pure fun h _ hfaultless => h (hpositional hfaultless)
      | some taken =>
          obtain ⟨subtype, operands⟩ := taken
          simp only
          split
          · exact (hjoin _ (checkCall_silently _ operands) _).mono fun _ hfound _ _ _ => hfound
          · exact (hjoin _ (.pure rfl) _).mono fun _ hfound _ _ _ => hfound

end Form

end NovelAsm
