import NovelAsm.Proofs.CodeUnit.Complete

/-!
No operand is ignored. A row of the table allows some numbers of operands, and each of its flags
once. In a routine that is lowered without a report every instruction has operands that its row
allows, and the instruction that stands for it in the code represents each of them: a slot takes
one operand or all that are left, nothing is left over, and a flag that is written changes the value
at its place (`Slot.Represents`). The one exception is the return of a function, for which no
operand is looked at; there, what is written behind it is allowed if it is nothing
(`Routine.lower_allows`).
-/

namespace NovelAsm

/-- A step may find a value. -/
def Made {α : Type} (step : Reporting (Option α)) (value : α) : Prop :=
  ∃ diagnostics, (step diagnostics).1 = some value

theorem finds_made {α : Type} (step : Reporting (Option α)) : Finds step (Made step) :=
  fun diagnostics _ hvalue => ⟨diagnostics, hvalue⟩

theorem Silently.both {α : Type} {step : Reporting α} {P Q : α → Prop} (h : Silently step P)
    (hboth : Silently step Q) : Silently step fun value => P value ∧ Q value := fun start =>
  ⟨(h start).1, fun hsame => ⟨(h start).2 hsame, (hboth start).2 hsame⟩⟩

/-- A list is made of one element for each item. -/
theorem allOf_made {α β : Type} (step : α → Reporting (Option β)) (items : List α) :
    Finds (allOf step items) fun values =>
      List.Forall₂ (fun item value => Made (step item) value) items values := by
  induction items with
  | nil => exact finds_some .nil
  | cons first rest ih =>
      refine Ensures.bind (finds_made (step first)) fun value hvalue => ?_
      refine Ensures.bind ih fun values hvalues => ?_
      split
      · exact finds_some (.cons (hvalue _ rfl) (hvalues _ rfl))
      · exact finds_none

namespace Statement

/-- The names of the flags among the operands. -/
def flagNames (arguments : List Argument) : List Flag := (flagsOf arguments).map Prod.fst

end Statement

namespace Form

/-- How many operands that are no flags a row allows. A list takes as many as its length can be
written for. -/
def AllowsCount (form : Form) (count : Nat) : Prop :=
  match form.layout with
  | .typedOptional => count = form.slots.length ∨ count + 1 = form.slots.length
  | .conditional => count = 2
  | .plain => form.requiredCount ≤ count ∧
      count ≤ form.requiredCount + if form.hasList then Argument.listLimit else 0

instance (form : Form) (count : Nat) : Decidable (form.AllowsCount count) := by
  unfold AllowsCount
  split <;> infer_instance

/-- Operands that a row allows: as many as it takes, and of its flags each at most once. -/
structure Allows (form : Form) (arguments : List Argument) : Prop where
  count : form.AllowsCount (Statement.positionalOf arguments).length
  flags : ∀ flag ∈ Statement.flagNames arguments, flag ∈ form.slots.filterMap Slot.flag?
  once : (Statement.flagNames arguments).Nodup

end Form

namespace Statement

/-- Flags about which nothing is said are flags of the row, and none of them is repeated. -/
theorem checkFlags_allowed (form : Form) (mnemonic : Bytes) (seen : List Flag)
    (flags : List (Flag × Span)) :
    Silently (checkFlags form mnemonic seen true flags) fun found =>
      found = some (seen ++ flags.map Prod.fst) ∧
        (∀ flag ∈ flags.map Prod.fst, flag ∈ form.slots.filterMap Slot.flag?) ∧
        (seen.Nodup → (seen ++ flags.map Prod.fst).Nodup) := by
  induction flags generalizing seen with
  | nil => exact .pure ⟨by rw [List.map_nil, List.append_nil]; rfl, nofun, by simp⟩
  | cons first rest ih =>
      obtain ⟨flag, span⟩ := first
      simp only [checkFlags]
      split
      · rename_i hright
        obtain ⟨hflag, hnew⟩ : flag ∈ form.slots.filterMap Slot.flag? ∧ flag ∉ seen := by
          unfold flagProblem? at hright
          split at hright
          · cases hright
          · rename_i hflag
            split at hright
            · cases hright
            · rename_i hnew
              exact ⟨by simpa using hflag, by simpa using hnew⟩
        refine (ih (seen ++ [flag])).mono fun found hfound => ?_
        rw [List.append_assoc] at hfound
        refine ⟨hfound.1, List.forall_mem_cons.mpr ⟨hflag, hfound.2.1⟩, fun hseen => ?_⟩
        exact hfound.2.2 (List.nodup_append.mpr ⟨hseen, List.nodup_singleton _, by
          rintro other hother _ (_ | ⟨_, ⟨⟩⟩) rfl
          exact hnew hother⟩)
      · rename_i problem _
        refine (Silently.report (P := fun _ => False) _).bind (fun _ => ?_) fun _ => False.elim
        exact .of_erases fun _ => checkFlags_erases form mnemonic seen false rest

end Statement

namespace Slot

/-- The operand of a list, with one element for each argument. -/
inductive Lists (span : Span) (arguments : List Argument) : Slot → Operand → Prop where
  | numbers {values : List Number}
      (h : List.Forall₂ (fun argument => Made (argument.element Expr.toNumber)) arguments values) :
      Lists span arguments .numberList ⟨.numberList values, span⟩
  | registers {values : List Register}
      (h : List.Forall₂ (fun argument => Made (argument.element Expr.toRegister)) arguments
        values) :
      Lists span arguments .registerList ⟨.registerList values, span⟩
  | bytes {values : List Int32}
      (h : List.Forall₂ (fun argument => Made (argument.element Expr.toByte)) arguments values) :
      Lists span arguments .byteList
        ⟨.byteList (values.map fun value => value.toUInt32.toUInt8), span⟩

/-- Operands of an instruction that represent arguments and flags: one for each slot, and none of
the arguments is left over. -/
inductive Represents (flags : List Flag) (span : Span) :
    List Slot → List Argument → List Operand → Prop where
  | nil : Represents flags span [] [] []
  | flag {name : Flag} {normal : UInt8} {slots : List Slot} {arguments : List Argument}
      {operands : List Operand} (hrest : Represents flags span slots arguments operands) :
      Represents flags span (.flag name normal :: slots) arguments
        (⟨.flag (flagValue normal (flags.contains name)).toUInt32, span⟩ :: operands)
  | single {place : Slot} {slots : List Slot} {argument : Argument} {arguments : List Argument}
      {operand : Operand} {operands : List Operand} (hone : place.takesOne = true)
      (hfirst : Made (argument.toOperand place) operand)
      (hrest : Represents flags span slots arguments operands) :
      Represents flags span (place :: slots) (argument :: arguments) (operand :: operands)
  | list {place : Slot} {arguments : List Argument} {operand : Operand}
      (h : Lists span arguments place operand) :
      Represents flags span [place] arguments [operand]

/-- Slots take a number of arguments, no more and no less. -/
def Suffice (slots : List Slot) (count : Nat) : Prop :=
  slots.countP takesOne ≤ count ∧ (slots.any isList = false → count ≤ slots.countP takesOne)

theorem toList_lists {place : Slot} (hlist : place.isList = true) (arguments : List Argument)
    (span : Span) : Finds (Argument.toList place arguments span) (Lists span arguments place) := by
  simp only [Argument.toList]
  split
  · exact OperandProblem.refuse_finds _ _
  · cases place with
    | numberList => exact Finds.map (allOf_made _ arguments) fun _ h => .numbers h
    | registerList => exact Finds.map (allOf_made _ arguments) fun _ h => .registers h
    | byteList => exact Finds.map (allOf_made _ arguments) fun _ h => .bytes h
    | _ => cases hlist

theorem isFlag_eq_false {place : Slot} (h : ∀ name normal, place ≠ .flag name normal) :
    place.isFlag = false := by
  cases place with
  | flag name normal => exact absurd rfl (h name normal)
  | _ => rfl

/-- An operand in front of the others. -/
theorem join_finds {P Q : List Operand → Prop} {first : Option Operand}
    {others : Reporting (Option (List Operand))} (hothers : Finds others P)
    (h : ∀ operand operands, first = some operand → P operands → Q (operand :: operands)) :
    Finds (do
      let behind ← others
      return match first, behind with
        | some operand, some operands => some (operand :: operands)
        | _, _ => none) Q := by
  refine Ensures.bind hothers fun behind hbehind => ?_
  split
  · rename_i operand operands
    exact finds_some (h operand operands rfl (hbehind operands rfl))
  · exact finds_none

/-- The operands that fill slots represent all arguments, if the slots take as many. -/
theorem fill_represents (flags : List Flag) (span : Span) {slots : List Slot}
    (hlast : ListLast slots) (arguments : List Argument)
    (hsuffice : Suffice slots arguments.length) :
    Finds (fill flags span slots arguments) (Represents flags span slots arguments) := by
  induction slots generalizing arguments with
  | nil =>
      obtain rfl := List.length_eq_zero_iff.mp (Nat.le_zero.mp (hsuffice.2 rfl))
      exact finds_some .nil
  | cons place rest ih =>
      simp only [fill]
      split
      · refine join_finds (ih hlast.tail arguments hsuffice) fun operand operands hfirst hrest => ?_
        obtain rfl := Option.some.inj hfirst
        exact .flag hrest
      · rename_i hnotFlag
        have hflag := isFlag_eq_false hnotFlag
        split
        · rename_i hlist
          obtain rfl := hlast.eq_nil hlist
          refine Ensures.bind (toList_lists hlist arguments span) fun first hfirst => ?_
          refine join_finds (finds_some (P := ([] = ·)) rfl) fun operand operands hfound hrest => ?_
          obtain rfl : [] = operands := hrest
          exact .list (hfirst operand hfound)
        · rename_i hlist
          have hlist : place.isList = false := by simpa using hlist
          have hone : place.takesOne = true := by simp [takesOne, hflag, hlist]
          rw [Suffice, List.countP_cons_of_pos hone, List.any_cons, hlist,
            Bool.false_or] at hsuffice
          cases arguments with
          | nil => exact absurd hsuffice.1 (Nat.not_succ_le_zero _)
          | cons argument others =>
              refine Ensures.bind (finds_made (argument.toOperand place)) fun first hfirst => ?_
              refine join_finds (ih hlast.tail others ⟨?_, fun hnone => ?_⟩)
                fun operand operands hfound hrest => .single hone (hfirst operand hfound) hrest
              · exact Nat.le_of_succ_le_succ hsuffice.1
              · exact Nat.le_of_succ_le_succ (hsuffice.2 hnone)

theorem toList_silently (place : Slot) (arguments : List Argument) (span : Span) :
    Silently (Argument.toList place arguments span) fun _ =>
      arguments.length ≤ Argument.listLimit := by
  by_cases hlong : Argument.listLimit < arguments.length
  · simp only [Argument.toList, if_pos hlong]
    exact .refuse _ _
  · exact Silently.mono (Argument.toList_answers place arguments span)
      fun _ _ => Nat.le_of_not_lt hlong

/-- A list about which nothing is said is no longer than its length can be written for. -/
theorem fill_silently (flags : List Flag) (span : Span) {slots : List Slot}
    (hlast : ListLast slots) (arguments : List Argument) :
    Silently (fill flags span slots arguments) fun _ => slots.any isList = true →
      arguments.length ≤ slots.countP takesOne + Argument.listLimit := by
  have hjoin (first : Option Operand) {others : Reporting (Option (List Operand))} {P : Prop}
      (hothers : Silently others fun _ => P) :
      Silently (do
        let behind ← others
        return match first, behind with
          | some operand, some operands => some (operand :: operands)
          | _, _ => none) fun _ => P :=
    hothers.follow fun behind => .pure id
  induction slots generalizing arguments with
  | nil => exact .pure nofun
  | cons place rest ih =>
      simp only [fill]
      split
      · exact hjoin _ (ih hlast.tail arguments)
      · rename_i hnotFlag
        have hflag := isFlag_eq_false hnotFlag
        split
        · rename_i hlist
          obtain rfl := hlast.eq_nil hlist
          exact (toList_silently place arguments span).follow fun first =>
            (hjoin first (.pure trivial)).mono
              fun _ _ hshort _ => hshort.trans (Nat.le_add_left _ _)
        · rename_i hlist
          have hlist : place.isList = false := by simpa using hlist
          have hone : place.takesOne = true := by simp [takesOne, hflag, hlist]
          rw [List.countP_cons_of_pos hone, List.any_cons, hlist, Bool.false_or]
          cases arguments with
          | nil => exact (hjoin none (ih hlast.tail [])).mono fun _ _ _ => Nat.zero_le _
          | cons argument others =>
              refine Silently.follow (Argument.toOperand_answers hflag hlist argument)
                fun first => (hjoin first (ih hlast.tail others)).mono fun _ hshort _ hlists => ?_
              have hothers := hshort hlists
              rw [List.length_cons]
              omega

end Slot

namespace Form

open Slot

/-- A type byte and operands that represent all operands of an instruction. For an operation the
type byte tells whether its second operand is written; for a conditional jump it is the condition,
and the operands are the sides of that and the target. -/
def Represents (form : Form) (flags : List Flag) (span : Span) (positional : List Argument)
    (taken : UInt8 × List Operand) : Prop :=
  match form.layout with
  | .typedOptional =>
      taken.1 = form.subtype ||| Instruction.explicitBit ∧
          Slot.Represents [] span form.slots positional taken.2 ∨
        taken.1 = form.subtype ∧
          Slot.Represents [] span (form.slots.eraseIdx 1) positional taken.2
  | .conditional =>
      ∃ place condition destination comparison left right target,
        positional = [.expression place condition, destination] ∧
          Made (Comparison.ofExpr false condition) comparison ∧ taken.1 = comparison.subtype ∧
          Made comparison.left.toNumber left ∧ Made comparison.right.toNumber right ∧
          Made (destination.toOperand .target) target ∧
          taken.2 = [⟨.number left, comparison.left.span⟩,
            ⟨.number right, comparison.right.span⟩, target]
  | .plain => taken.1 = form.subtype ∧ Slot.Represents flags span form.slots positional taken.2

/-- The slots of an operation take one operand each. -/
theorem rows_takesOne : ∀ form ∈ table, form.layout = .typedOptional →
    ∀ place ∈ form.slots, place.takesOne = true := by
  decide +kernel

theorem suffice_of_takesOne {slots : List Slot} (h : ∀ place ∈ slots, place.takesOne = true) :
    Suffice slots slots.length := by
  rw [Suffice, List.countP_eq_length.mpr h]
  exact ⟨le_rfl, fun _ => le_rfl⟩

theorem typedOperands_represent {form : Form} (hmem : form ∈ table)
    (hlayout : form.layout = .typedOptional) (mnemonic : Bytes) (flags : List Flag) (span : Span)
    (positional : List Argument) :
    Finds (form.typedOperands mnemonic span positional)
      (form.Represents flags span positional) := by
  obtain ⟨hlast, hshort⟩ := rows_listLast form hmem
  have hone := rows_takesOne form hmem hlayout
  simp only [typedOperands]
  split
  · rename_i hcount
    refine Finds.map (fill_represents [] span hlast positional ?_) fun operands h => ?_
    · rw [beq_iff_eq.mp hcount]
      exact suffice_of_takesOne hone
    · simp only [Represents, hlayout]
      exact .inl ⟨trivial, h⟩
  · split
    · rename_i hcount
      refine Finds.map (fill_represents [] span (hshort hlayout).1 positional ?_)
        fun operands h => ?_
      · rw [Nat.succ_inj.mp ((beq_iff_eq.mp hcount).trans (hshort hlayout).2.symm)]
        exact suffice_of_takesOne fun place hplace => hone place (List.mem_of_mem_eraseIdx hplace)
      · simp only [Represents, hlayout]
        exact .inr ⟨trivial, h⟩
    · exact OperandProblem.refuse_finds _ _

theorem conditionalOperands_represent {form : Form} (hlayout : form.layout = .conditional)
    (mnemonic : Bytes) (flags : List Flag) (span : Span) (positional : List Argument) :
    Finds (conditionalOperands mnemonic span positional)
      (form.Represents flags span positional) := by
  simp only [conditionalOperands]
  split
  · rename_i place condition destination
    refine Ensures.bind (finds_made _) fun found hfound => ?_
    split
    · rename_i comparison
      refine Ensures.bind (finds_made _) fun left hleft => Ensures.bind (finds_made _)
        fun right hright => Ensures.bind (finds_made _) fun target htarget => ?_
      split
      · simp only [Represents, hlayout]
        exact finds_some ⟨place, condition, destination, comparison, _, _, _, rfl, hfound _ rfl,
          rfl, hleft _ rfl, hright _ rfl, htarget _ rfl, rfl⟩
      · exact finds_none
    · exact finds_none
  · exact OperandProblem.refuse_finds _ _
  · exact OperandProblem.refuse_finds _ _

theorem plainOperands_represent {form : Form} (hmem : form ∈ table) (hlayout : form.layout = .plain)
    (mnemonic : Bytes) (flags : List Flag) (span : Span) (positional : List Argument) :
    Finds (form.plainOperands mnemonic flags span positional)
      (form.Represents flags span positional) := by
  simp only [plainOperands]
  split
  · exact OperandProblem.refuse_finds _ _
  · rename_i hadmits
    simp only [admits, Bool.not_eq_true', Bool.not_eq_false, Bool.and_eq_true, Bool.or_eq_true,
      decide_eq_true_eq] at hadmits
    refine Finds.map (fill_represents flags span (rows_listLast form hmem).1 positional
      ⟨hadmits.1, fun hnone => hadmits.2.resolve_left ?_⟩) fun operands h => ?_
    · rw [hasList, hnone]
      exact Bool.false_ne_true
    · simp only [Represents, hlayout]
      exact ⟨trivial, h⟩

theorem operands_represent {form : Form} (hmem : form ∈ table) (mnemonic : Bytes)
    (flags : List Flag) (span : Span) (positional : List Argument) :
    Finds (form.operands mnemonic flags span positional)
      (form.Represents flags span positional) := by
  simp only [operands]
  split
  · rename_i hlayout
    exact typedOperands_represent hmem hlayout mnemonic flags span positional
  · rename_i hlayout
    exact conditionalOperands_represent hlayout mnemonic flags span positional
  · rename_i hlayout
    exact plainOperands_represent hmem hlayout mnemonic flags span positional

/-- Operands about which nothing is said are as many as the row allows. -/
theorem operands_allowed {form : Form} (hmem : form ∈ table) (mnemonic : Bytes)
    (flags : List Flag) (span : Span) (positional : List Argument) :
    Silently (form.operands mnemonic flags span positional) fun _ =>
      form.AllowsCount positional.length := by
  have hgrows := operands_answers hmem mnemonic flags span positional
  unfold operands AllowsCount at *
  cases hlayout : form.layout with
  | typedOptional =>
      simp only [hlayout] at hgrows ⊢
      by_cases hcount : positional.length = form.slots.length ∨
          positional.length + 1 = form.slots.length
      · exact Silently.mono hgrows fun _ _ => hcount
      · simp only [typedOperands, beq_iff_eq, if_neg (not_or.mp hcount).1,
          if_neg (not_or.mp hcount).2]
        exact .refuse _ _
  | conditional =>
      simp only [hlayout] at hgrows ⊢
      by_cases hcount : positional.length = 2
      · exact Silently.mono hgrows fun _ _ => hcount
      · unfold conditionalOperands
        split
        · exact absurd rfl hcount
        · exact absurd rfl hcount
        · exact .refuse _ _
  | plain =>
      simp only [plainOperands]
      split
      · exact .refuse _ _
      · rename_i hadmits
        simp only [admits, Bool.not_eq_true', Bool.not_eq_false, Bool.and_eq_true, Bool.or_eq_true,
          decide_eq_true_eq] at hadmits
        refine (fill_silently flags span (rows_listLast form hmem).1 positional).follow
          fun found => .pure fun hlists => ⟨hadmits.1, ?_⟩
        split
        · rename_i hlist
          exact hlists hlist
        · rename_i hnone
          exact hadmits.2.resolve_left hnone

/-- An instruction that represents the operands it is written with, flags included. -/
def Writes (form : Form) (span : Span) (arguments : List Argument) (instruction : Instruction) :
    Prop :=
  instruction.opcode = form.opcode ∧ instruction.span = span ∧
    form.Represents (Statement.flagNames arguments) span (Statement.positionalOf arguments)
      (instruction.subtype, instruction.operands)

/-- What an instruction is made of is allowed, if nothing is said, and represented. -/
theorem instruction?_allowed {form : Form} (hmem : form ∈ table) (mnemonic : Bytes) (span : Span)
    (arguments : List Argument) :
    Silently (form.instruction? mnemonic span arguments) fun found =>
      form.Allows arguments ∧ ∀ instruction, found = some instruction →
        form.Writes span arguments instruction := by
  simp only [instruction?]
  have hmake (fits : Reporting Bool) (hgrows : Silently fits (· = true))
      (instruction : Instruction) :
      Silently (do return if ← fits then some instruction else none) (· = some instruction) :=
    hgrows.follow fun _ => .pure fun hfits => if_pos hfits
  refine Silently.follow (Statement.checkFlags_allowed form mnemonic [] _) fun found => ?_
  cases found with
  | none => exact .pure fun h => by cases h.1
  | some flags =>
      refine Silently.follow ((operands_allowed hmem mnemonic flags span _).and
        (operands_represent hmem mnemonic flags span _)) fun taken => ?_
      cases taken with
      | none =>
          exact .pure fun hcount hflags =>
            ⟨⟨hcount.1, hflags.2.1, hflags.2.2 .nil⟩, fun _ hmade => by cases hmade⟩
      | some taken =>
          obtain ⟨subtype, operands⟩ := taken
          simp only
          have hone (instruction : Instruction) : Silently
              (do
                let fits ← if form.opcode == .call then
                    checkCall (Statement.positionalOf arguments) operands else pure true
                return if fits then some instruction else none)
              (· = some instruction) := by
            split
            · exact hmake _ (checkCall_silently _ operands) _
            · exact hmake _ (.pure rfl) _
          refine (hone ⟨form.opcode, subtype, operands, span⟩).mono ?_
          rintro _ rfl ⟨hcount, hrepresent⟩ ⟨hnames, hflags, honce⟩
          refine ⟨⟨hcount, hflags, honce .nil⟩, ?_⟩
          rintro _ ⟨⟩
          obtain rfl : flags = Statement.flagNames arguments := Option.some.inj hnames
          exact ⟨rfl, rfl, hrepresent _ rfl⟩

/-- What a row without operands allows. -/
theorem allows_none_iff {form : Form} (hreturn : form.opcode = .ret) (hmem : form ∈ table)
    (arguments : List Argument) : form.Allows arguments ↔ arguments = [] := by
  obtain rfl | rfl | rfl := ends_rows form hmem (by rw [hreturn]; rfl)
  · cases hreturn
  · cases hreturn
  constructor
  · intro h
    match arguments with
    | [] => rfl
    | .flag _ name :: _ => exact absurd (h.flags name (List.mem_cons_self ..)) List.not_mem_nil
    | .expression _ _ :: _ | .array _ _ :: _ | .jumpTable _ _ :: _ =>
        exact absurd h.count.2 (Nat.not_succ_le_zero _)
  · rintro rfl
    exact ⟨by decide, nofun, .nil⟩

end Form

namespace Routine

/-- An instruction with operands that its row allows, and that some instruction of the code
represents unless they hold an error. The return of a function is left out if operands are
written for it. -/
def Settles (routine : Routine) (code : List Instruction) : Statement → Prop
  | .label _ _ => True
  | .instruction span mnemonic arguments =>
      ∀ form, Form.ofMnemonic? mnemonic = some form →
        (form.opcode = .ret → routine.kind = .function → arguments = []) →
          form.Allows arguments ∧ ((∀ argument ∈ arguments, argument.Faultless) →
            ∃ instruction ∈ code, form.Writes span arguments instruction)

variable {routine : Routine}

theorem Settles.mono {code more : List Instruction} {statement : Statement}
    (h : routine.Settles code statement) (hmore : code ⊆ more) :
    routine.Settles more statement := by
  cases statement with
  | label span name => trivial
  | instruction span mnemonic arguments =>
      intro form hform hlooked
      obtain ⟨hallows, hwrites⟩ := h form hform hlooked
      refine ⟨hallows, fun hfaultless => ?_⟩
      obtain ⟨instruction, hmem, hinstruction⟩ := hwrites hfaultless
      exact ⟨instruction, hmore hmem, hinstruction⟩

theorem lowerInstruction_settles (routine : Routine) (span : Span) (mnemonic : Bytes)
    (arguments : List Argument) :
    Silently (routine.lowerInstruction span mnemonic arguments) fun lowered =>
      routine.Settles lowered.1 (.instruction span mnemonic arguments) := by
  simp only [lowerInstruction]
  split
  · exact .behind_report _ (.pure (P := fun _ => True) trivial)
  · rename_i form hform
    have hmem := Form.mem_of_ofMnemonic? hform
    split
    · rename_i hreturn
      obtain ⟨hopcode, hkind⟩ : form.opcode = .ret ∧ routine.kind = .function := by
        simpa using hreturn
      refine .pure fun other hother hlooked => ?_
      obtain rfl := Option.some.inj (hform.symm.trans hother)
      obtain rfl := hlooked hopcode hkind
      refine ⟨(Form.allows_none_iff hopcode hmem []).mpr rfl, fun _ => ?_⟩
      refine ⟨⟨.ret, 0, [], span⟩, by simp [returnFrom], hopcode.symm, rfl, ?_⟩
      obtain rfl | rfl | rfl := Form.ends_rows form hmem (by rw [hopcode]; rfl)
      · cases hopcode
      · cases hopcode
      · exact ⟨rfl, .nil⟩
    · refine ((Form.instruction?_allowed hmem mnemonic span arguments).both
        (Form.instruction?_answers hmem mnemonic span arguments)).follow fun found => .pure ?_
      rintro ⟨⟨hallows, hwrites⟩, hanswers⟩ other hother -
      obtain rfl := Option.some.inj (hform.symm.trans hother)
      refine ⟨hallows, fun hfaultless => ?_⟩
      obtain ⟨instruction, rfl⟩ := Option.isSome_iff_exists.mp (hanswers hfaultless)
      exact ⟨instruction, by simp, hwrites instruction rfl⟩

/-- Statements about which nothing is said are settled by the code that they come to. -/
theorem lowerStatements_settle (routine : Routine) (statements : List Statement) (code : CodeUnit)
    (ended : Bool) :
    Silently (routine.lowerStatements code ended statements) fun lowered =>
      code.instructions ⊆ lowered.1.instructions ∧
        ∀ statement ∈ statements, routine.Settles lowered.1.instructions statement := by
  induction statements generalizing code ended with
  | nil => exact .pure ⟨List.Subset.refl _, nofun⟩
  | cons first rest ih =>
      cases first with
      | label span name =>
          exact (ih (code.placeLabel name span) false).mono fun _ hrest =>
            ⟨hrest.1, List.forall_mem_cons.mpr ⟨trivial, hrest.2⟩⟩
      | instruction span mnemonic arguments =>
          refine (lowerInstruction_settles routine span mnemonic arguments).follow fun lowered =>
            (ih (code.append lowered.1) lowered.2).mono fun result hrest hlowered => ?_
          obtain ⟨hcode, hmade⟩ := List.append_subset.mp hrest.1
          exact ⟨hcode, List.forall_mem_cons.mpr ⟨hlowered.mono hmade, hrest.2⟩⟩

/-- No operand is ignored. In a routine that is lowered without a report, the operands of every
instruction are as many as its row allows and its flags are flags of the row, each written once;
and some instruction of the code represents all of them, unless one is an error. The exception is
the return of a function, for which this holds if nothing is written behind it, and only then. -/
theorem lower_allows (hclean : routine.lower.2 = []) {span : Span} {mnemonic : Bytes}
    {arguments : List Argument} (hmem : .instruction span mnemonic arguments ∈ routine.statements)
    {form : Form} (hform : Form.ofMnemonic? mnemonic = some form) :
    (form.Allows arguments ↔
        (form.opcode = .ret → routine.kind = .function → arguments = [])) ∧
      (form.Allows arguments → (∀ argument ∈ arguments, argument.Faultless) →
        ∃ instruction ∈ routine.lower.1.instructions, form.Writes span arguments instruction) := by
  rw [lower_eq] at hclean
  have hsettled := ((lowerStatements_settle routine routine.statements routine.opening false []).2
    (congrArg List.length hclean)).2 _ hmem
  have hallows : form.Allows arguments ↔
      (form.opcode = .ret → routine.kind = .function → arguments = []) := by
    refine ⟨fun h hreturn _ => ?_, fun hlooked => (hsettled form hform hlooked).1⟩
    exact (Form.allows_none_iff hreturn (Form.mem_of_ofMnemonic? hform) arguments).mp h
  refine ⟨hallows, fun h hfaultless => ?_⟩
  obtain ⟨instruction, hcode, hwrites⟩ := (hsettled form hform (hallows.mp h)).2 hfaultless
  refine ⟨instruction, ?_, hwrites⟩
  rw [lower_eq]
  dsimp only
  split
  · exact hcode
  · exact List.mem_append_left _ hcode

/-- A script that waits, with a flag. -/
def waiting : Routine :=
  { kind := .script, name := ascii "A", parameterCount := 0, preserved := [], span := .origin,
    statements := [.instruction .origin (ascii "wait")
      [.expression .origin (.literal .origin ⟨5, .integer⟩), .flag .origin .interruptable]] }

/-- The number and the flag are both in the code. -/
theorem lower_allows_waiting :
    waiting.lower.2 = [] ∧
      ∃ form arguments, .instruction .origin (ascii "wait") arguments ∈ waiting.statements ∧
        Form.ofMnemonic? (ascii "wait") = some form ∧ form.Allows arguments ∧
        ∃ instruction ∈ waiting.lower.1.instructions,
          form.Writes .origin arguments instruction := by
  have hclean : waiting.lower.2 = [] := by decide +kernel
  have hform : Form.ofMnemonic? (ascii "wait") =
      some ⟨⟨0x83⟩, "WAIT", .plain, 0, [.flag .interruptable 0, .number]⟩ := by decide +kernel
  have hmem := List.mem_singleton_self (Statement.instruction .origin (ascii "wait")
    [.expression .origin (.literal .origin ⟨5, .integer⟩), .flag .origin .interruptable])
  obtain ⟨hallows, hwrites⟩ := lower_allows hclean hmem hform
  have hall := hallows.mpr fun hreturn => by cases hreturn
  refine ⟨hclean, _, _, hmem, hform, hall, hwrites hall ?_⟩
  rintro argument (_ | ⟨_, _ | ⟨_, ⟨⟩⟩⟩) <;> trivial

/-- A function that is written to return a number. -/
def returning : Routine :=
  { kind := .function, name := ascii "F", parameterCount := 0, preserved := [], span := .origin,
    statements := [.instruction .origin (ascii "return")
      [.expression .origin (.literal .origin ⟨1, .integer⟩)]] }

/-- The number is ignored, although the row of the return takes no operand. -/
theorem lower_ignores_returned :
    returning.lower.2 = [] ∧
      ∃ form arguments, .instruction .origin (ascii "return") arguments ∈ returning.statements ∧
        Form.ofMnemonic? (ascii "return") = some form ∧ ¬ form.Allows arguments := by
  have hform : Form.ofMnemonic? (ascii "return") = some ⟨.ret, "return", .plain, 0, []⟩ := by
    decide +kernel
  refine ⟨by decide +kernel, _, _, List.mem_singleton_self _, hform, fun hallows => ?_⟩
  exact absurd hallows.count.2 (by decide)

end Routine

end NovelAsm
