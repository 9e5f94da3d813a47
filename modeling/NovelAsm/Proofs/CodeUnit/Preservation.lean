import NovelAsm.Proofs.CodeUnit.Forms
import NovelAsm.Proofs.Erasure.Lowering
import NovelAsm.Proofs.Silence

/-!
The registers that a function preserves are restored wherever it returns. A list of
instructions restores them if each return in it stands behind their restoration; this holds of
what is made of every statement, and so of the code behind every label, which a jump may enter.

The other statements are about routines that are lowered without a complaint.
-/

namespace NovelAsm

namespace Statement

/-- The row of the table that an instruction is written for. -/
def form? : Statement → Option Form
  | .label _ _ => none
  | .instruction _ mnemonic _ => Form.ofMnemonic? mnemonic

/-- The place of a statement that returns. -/
def returnSpan? : Statement → Option Span
  | .label _ _ => none
  | .instruction span mnemonic _ =>
      if (Form.ofMnemonic? mnemonic).any (·.opcode == .ret) then some span else none

/-- A jump to what was refused before. It is left out without another complaint, and control
still counts as ended behind it. -/
def isLostJump : Statement → Bool
  | .label _ _ => false
  | .instruction _ mnemonic arguments =>
      (Form.ofMnemonic? mnemonic).any (·.opcode == .jump) && arguments.any fun
        | .expression _ (.error _) => true
        | _ => false

theorem checkFlags_silently (form : Form) (mnemonic : Bytes) (seen : List Flag)
    (flags : List (Flag × Span)) :
    Silently (checkFlags form mnemonic seen true flags) fun found => found.isSome := by
  have hgrows (seen : List Flag) (allRight : Bool) (flags : List (Flag × Span)) :
      Silently (checkFlags form mnemonic seen allRight flags) fun _ => True :=
    .of_erases fun _ => checkFlags_erases form mnemonic seen allRight flags
  induction flags generalizing seen with
  | nil => exact .pure rfl
  | cons first rest ih =>
      obtain ⟨flag, span⟩ := first
      simp only [checkFlags]
      split
      · exact ih _
      · exact (Silently.report (P := fun _ => False) _).bind (fun _ => hgrows _ _ _)
          fun _ => False.elim

end Statement

namespace Form

/-- The rows behind which control does not go on. -/
theorem ends_rows : ∀ form ∈ table, form.opcode.endsControlFlow = true →
    form = ⟨.jump, "j", .plain, 0, [.target]⟩ ∨ form = ⟨.retsub, "retsub", .plain, 0, []⟩ ∨
      form = ⟨.ret, "return", .plain, 0, []⟩ := by
  decide +kernel

theorem toTarget_silently (expr : Expr) :
    Silently expr.toTarget fun found => found = none → ∃ place, expr = .error place := by
  cases expr with
  | codeAddress | error =>
      simp only [Expr.toTarget]
      exact .pure (by simp)
  | literal span value =>
      obtain ⟨number, kind⟩ := value
      cases kind with
      | integer =>
          simp only [Expr.toTarget]
          exact .pure (by simp)
      | real => exact .refuse _ _
  | string | register | unary | binary | call => exact .refuse _ _

/-- A place in the code that is written is found, unless it is an error. -/
theorem toOperand_silently (argument : Argument) :
    Silently (argument.toOperand .target) fun found => found = none →
      ∃ span place, argument = .expression span (.error place) := by
  have hgrows (expr : Expr) : Silently (do
      return (← expr.toTarget).map fun destination =>
        (⟨.target [destination], expr.span⟩ : Operand))
      fun found => found = none → ∃ place, expr = .error place :=
    (toTarget_silently expr).bind (fun _ => .pure trivial) fun found hfound => .pure (by simpa)
  cases argument with
  | expression span expr =>
      exact (hgrows expr).mono fun found hfound hnone => by
        obtain ⟨place, rfl⟩ := hfound hnone
        exact ⟨span, place, rfl⟩
  | flag | array | jumpTable =>
      exact (Silently.refuse (P := fun _ => False) _ _).bind
        (fun found => by
          cases found with
          | none => exact .pure trivial
          | some expr => exact (hgrows expr).mono fun _ _ => trivial)
        fun _ => False.elim

theorem fill_target_silently (flags : List Flag) (span : Span) (argument : Argument)
    (rest : List Argument) :
    Silently (Slot.fill flags span [.target] (argument :: rest)) fun found => found = none →
      ∃ span place, argument = .expression span (.error place) := by
  simp only [Slot.fill, show Slot.target.isList = false from rfl, Bool.false_eq_true, if_false]
  refine (toOperand_silently argument).bind (fun _ => .pure trivial) fun found hfound => .pure ?_
  cases found with
  | none => exact fun _ => hfound rfl
  | some operand => exact fun hnone => by cases hnone

/-- Nothing is left out of an instruction behind which control does not go on, unless that is a
jump to an error. -/
theorem operands_silently {form : Form} (hmem : form ∈ table)
    (hends : form.opcode.endsControlFlow = true) (mnemonic : Bytes) (flags : List Flag)
    (span : Span) (positional : List Argument) :
    Silently (form.operands mnemonic flags span positional) fun found => found = none →
      form.opcode = .jump ∧ ∃ span place, .expression span (.error place) ∈ positional := by
  have hempty (opcode : Opcode) (spelling : String)
      {P : Option (UInt8 × List Operand) → Prop} (h : P (some (0, []))) :
      Silently ((⟨opcode, spelling, .plain, 0, []⟩ : Form).operands mnemonic flags span
        positional) P := by
    simp only [operands, plainOperands]
    split
    · exact .refuse _ _
    · exact .pure h
  rcases ends_rows form hmem hends with rfl | rfl | rfl
  · simp only [operands, plainOperands]
    split
    · exact .refuse _ _
    · rename_i hcount
      cases positional with
      | nil => exact absurd rfl hcount
      | cons argument rest =>
          refine (fill_target_silently flags span argument rest).bind (fun _ => .pure trivial)
            fun found hfound => .pure fun hnone => ?_
          obtain ⟨place, wrong, rfl⟩ := hfound (Option.map_eq_none_iff.mp hnone)
          exact ⟨trivial, place, wrong, List.mem_cons_self ..⟩
  · exact hempty .retsub _ fun hnone => by cases hnone
  · exact hempty .ret _ fun hnone => by cases hnone

/-- The instruction of operands that were found. -/
theorem found_silently {form : Form} {taken : Reporting (Option (UInt8 × List Operand))}
    {P : Prop} (h : Silently taken fun found => found = none → P) (span : Span) : Silently (do
      match ← taken with
      | none => return none
      | some (subtype, operands) => return some ⟨form.opcode, subtype, operands, span⟩ :
        Reporting (Option Instruction)) fun found => found = none → P := by
  refine h.bind (fun found => ?_) fun found hfound => ?_
  · cases found <;> exact .pure trivial
  · cases found with
    | none => exact .pure fun _ => hfound rfl
    | some _ => exact .pure fun hnone => by cases hnone

theorem instruction?_silently {form : Form} (hmem : form ∈ table)
    (hends : form.opcode.endsControlFlow = true) (mnemonic : Bytes) (span : Span)
    (arguments : List Argument) :
    Silently (form.instruction? mnemonic span arguments) fun found => found = none →
      form.opcode = .jump ∧ ∃ span place, .expression span (.error place) ∈ arguments := by
  have hcall : (form.opcode == .call) = false := by
    rcases ends_rows form hmem hends with rfl | rfl | rfl <;> rfl
  have hbehind (flags : List Flag) :
      Silently (form.operands mnemonic flags span (Statement.positionalOf arguments)) fun found =>
        found = none →
          form.opcode = .jump ∧ ∃ span place, .expression span (.error place) ∈ arguments := by
    refine (operands_silently hmem hends mnemonic flags span _).mono fun found hfound hnone => ?_
    obtain ⟨hjump, place, wrong, hmem⟩ := hfound hnone
    exact ⟨hjump, place, wrong, (List.mem_filter.mp hmem).1⟩
  have hjoin (flags : List Flag) := @found_silently form _ _ (hbehind flags) span
  simp only [instruction?, hcall, Bool.false_eq_true, if_false, pure_bind, if_true]
  refine (Statement.checkFlags_silently form mnemonic [] _).bind (fun found => ?_)
    fun found hfound => ?_
  · cases found with
    | none => exact .pure trivial
    | some flags => exact (hjoin flags).mono fun _ _ => trivial
  · cases found with
    | none => cases hfound
    | some flags => exact hjoin flags

end Form

namespace Routine

/-- What a function saves at its beginning. -/
def save (routine : Routine) : Instruction :=
  ⟨.push, 0, [⟨.numberList (routine.preserved.map .register), routine.span⟩], routine.span⟩

/-- What a function restores in front of a return. -/
def restore (routine : Routine) (span : Span) : Instruction :=
  ⟨.pop, 0, [⟨.registerList routine.preserved.reverse, span⟩], span⟩

/-- Each return among some instructions stands behind one that restores the preserved
registers. -/
def Restores (routine : Routine) (instructions : List Instruction) : Prop :=
  ∀ front last back, instructions = front ++ last :: back → last.opcode = .ret →
    ∃ before span, front = before ++ [routine.restore span]

variable {routine : Routine}

theorem Restores.append {instructions more : List Instruction}
    (h : routine.Restores instructions) (hmore : routine.Restores more) :
    routine.Restores (instructions ++ more) := by
  intro front last back hsplit hreturn
  rcases List.append_eq_append_iff.mp hsplit with ⟨inner, rfl, hinner⟩ | ⟨inner, hfront, hinner⟩
  · obtain ⟨before, span, rfl⟩ := hmore inner last back hinner hreturn
    exact ⟨instructions ++ before, span, by rw [List.append_assoc]⟩
  · cases inner with
    | nil =>
        obtain ⟨before, span, hnone⟩ := hmore [] last back hinner.symm hreturn
        simp at hnone
    | cons first others =>
        obtain ⟨rfl, -⟩ := List.cons.inj hinner
        exact h front last others hfront hreturn

theorem restores_of_opcode_ne {instructions : List Instruction}
    (h : ∀ instruction ∈ instructions, instruction.opcode ≠ .ret) :
    routine.Restores instructions := by
  rintro front last back rfl hreturn
  exact absurd hreturn (h last (by simp))

theorem returnFrom_eq (hsaves : routine.preserved ≠ []) (span : Span) :
    routine.returnFrom span = [routine.restore span, ⟨.ret, 0, [], span⟩] := by
  simp [returnFrom, restore, hsaves]

theorem returnFrom_restores (hsaves : routine.preserved ≠ []) (span : Span) :
    routine.Restores (routine.returnFrom span) := by
  rw [returnFrom_eq hsaves]
  intro front last back hsplit hreturn
  match front with
  | [] =>
      obtain ⟨rfl, -⟩ := List.cons.inj hsplit
      cases hreturn
  | [first] =>
      obtain ⟨rfl, -⟩ := List.cons.inj hsplit
      exact ⟨[], span, rfl⟩
  | _ :: _ :: _ => simp at hsplit

/-- What an instruction that was written comes to, and whether control ends there, if nothing
is wrong with it. -/
inductive Lowers (routine : Routine) : Statement → List Instruction → Bool → Prop where
  /-- A return of a function. -/
  | restored {span : Span} {mnemonic : Bytes} {arguments : List Argument} {form : Form}
      (hform : Form.ofMnemonic? mnemonic = some form) (hreturn : form.opcode = .ret)
      (hkind : routine.kind = .function) :
      Lowers routine (.instruction span mnemonic arguments) (routine.returnFrom span) true
  /-- An instruction as it was written. -/
  | written {span : Span} {mnemonic : Bytes} {arguments : List Argument} {form : Form}
      {instruction : Instruction} (hform : Form.ofMnemonic? mnemonic = some form)
      (hreturn : form.opcode = .ret → routine.kind ≠ .function)
      (hinstruction : instruction.OfForm form) (hopcode : instruction.opcode = form.opcode)
      (hspan : instruction.span = span) :
      Lowers routine (.instruction span mnemonic arguments) [instruction]
        form.opcode.endsControlFlow
  /-- Nothing, since there was something wrong with it before. -/
  | lost {span : Span} {mnemonic : Bytes} {arguments : List Argument} {form : Form}
      (hform : Form.ofMnemonic? mnemonic = some form)
      (hends : form.opcode.endsControlFlow = true →
        (Statement.instruction span mnemonic arguments).isLostJump = true) :
      Lowers routine (.instruction span mnemonic arguments) [] form.opcode.endsControlFlow

theorem instruction?_finds_form {form : Form} (hmem : form ∈ Form.table) (mnemonic : Bytes)
    (span : Span) (arguments : List Argument) :
    Finds (form.instruction? mnemonic span arguments) fun instruction =>
      instruction.OfForm form ∧ instruction.opcode = form.opcode ∧ instruction.span = span := by
  refine (Form.instruction?_finds fun flags =>
    Form.operands_takes Slot.established_holds hmem mnemonic flags span _).mono ?_
  intro found hfound instruction hinstruction
  obtain ⟨taken, htaken, rfl⟩ := hfound instruction hinstruction
  exact ⟨(htaken span).ofForm, rfl, rfl⟩

theorem lowerInstruction_silently (routine : Routine) (span : Span) (mnemonic : Bytes)
    (arguments : List Argument) :
    Silently (routine.lowerInstruction span mnemonic arguments) fun lowered =>
      routine.Lowers (.instruction span mnemonic arguments) lowered.1 lowered.2 := by
  simp only [lowerInstruction]
  split
  · exact (Silently.report (P := fun _ => False) _).bind (fun _ => .pure trivial)
      fun _ => False.elim
  · rename_i form hform
    have hmem := Form.mem_of_ofMnemonic? hform
    split
    · rename_i hreturn
      obtain ⟨hopcode, hkind⟩ : form.opcode = .ret ∧ routine.kind = .function := by
        simpa using hreturn
      exact .pure (.restored hform hopcode hkind)
    · rename_i hreturn
      have hgrows : Silently (form.instruction? mnemonic span arguments) fun found =>
          found = none → form.opcode.endsControlFlow = true → form.opcode = .jump ∧
            ∃ place wrong, .expression place (.error wrong) ∈ arguments := by
        by_cases hends : form.opcode.endsControlFlow = true
        · exact (Form.instruction?_silently hmem hends mnemonic span arguments).mono
            fun found hfound hnone _ => hfound hnone
        · exact (Silently.of_erases fun _ => Form.instruction?_erases form mnemonic span
            arguments).mono fun _ _ _ h => absurd h hends
      refine (hgrows.and (instruction?_finds_form hmem mnemonic span arguments)).bind
        (fun _ => .pure trivial) fun found hfound => .pure ?_
      cases found with
      | none =>
          refine .lost hform fun hends => ?_
          obtain ⟨hjump, place, wrong, herror⟩ := hfound.1 rfl hends
          simp only [Statement.isLostJump, hform, Option.any_some, hjump, beq_self_eq_true,
            Bool.true_and, List.any_eq_true]
          exact ⟨_, herror, rfl⟩
      | some instruction =>
          obtain ⟨hinstruction, hopcode, hspan⟩ := hfound.2 instruction rfl
          exact .written hform (fun hopcode hkind => hreturn (by simp [hopcode, hkind]))
            hinstruction hopcode hspan

/-- What each statement preserves of the code in front of it, all of them do. -/
theorem lowerStatements_silently {Holds : List Statement → CodeUnit → Bool → Prop}
    (hlabel : ∀ done code ended span name, Holds done code ended →
      Holds (done ++ [.label span name]) (code.placeLabel name span) false)
    (hinstruction : ∀ done code ended statement instructions ends, Holds done code ended →
      routine.Lowers statement instructions ends →
      Holds (done ++ [statement]) (code.append instructions) ends)
    {done : List Statement} {code : CodeUnit} {ended : Bool} (h : Holds done code ended)
    (statements : List Statement) :
    Silently (routine.lowerStatements code ended statements) fun lowered =>
      Holds (done ++ statements) lowered.1 lowered.2 := by
  induction statements generalizing done code ended with
  | nil =>
      rw [List.append_nil]
      exact .pure h
  | cons first rest ih =>
      rw [List.append_cons]
      cases first with
      | label span name => exact ih (hlabel done code ended span name h)
      | instruction span mnemonic arguments =>
          refine (routine.lowerInstruction_silently span mnemonic arguments).bind
            (fun lowered => ?_) fun lowered hlowered => ?_
          · exact .of_erases fun _ => lowerStatements_erases routine _ _ rest
          · exact ih (hinstruction done code ended _ _ _ h hlowered)

/-- The beginning of a code unit. -/
def opening (routine : Routine) : CodeUnit :=
  ((CodeUnit.empty routine.kind routine.name).placeLabel routine.name routine.span).append
    routine.prologue

theorem lower_eq (routine : Routine) : routine.lower =
    let lowered := routine.lowerStatements routine.opening false routine.statements []
    (if lowered.1.2 then lowered.1.1 else lowered.1.1.append routine.tail, lowered.2) := rfl

theorem holds_lower (Holds : List Statement → CodeUnit → Bool → Prop)
    (hclean : routine.lower.2 = []) (hopening : Holds [] routine.opening false)
    (hlabel : ∀ done code ended span name, Holds done code ended →
      Holds (done ++ [.label span name]) (code.placeLabel name span) false)
    (hinstruction : ∀ done code ended statement instructions ends, Holds done code ended →
      routine.Lowers statement instructions ends →
      Holds (done ++ [statement]) (code.append instructions) ends) :
    ∃ code ended, Holds routine.statements code ended ∧
      routine.lower.1 = if ended then code else code.append routine.tail := by
  have hrun := (lowerStatements_silently hlabel hinstruction hopening routine.statements []).2
  rw [lower_eq] at hclean ⊢
  exact ⟨_, _, hrun (congrArg List.length hclean), rfl⟩

/-- Code of a function that saves its preserved registers and restores them wherever it
returns, also behind a label. -/
structure Preserves (routine : Routine) (code : CodeUnit) : Prop where
  saves : code.instructions.head? = some routine.save
  restores : routine.Restores code.instructions
  labels : ∃ marks, code.labels = ⟨routine.name, 0, routine.span⟩ :: marks ∧
    ∀ mark ∈ marks, 0 < mark.index
  entered : ∀ mark ∈ code.labels, mark.index ≤ code.instructions.length ∧
    routine.Restores (code.instructions.drop mark.index)

theorem Preserves.append {code : CodeUnit} {instructions : List Instruction}
    (h : routine.Preserves code) (hinstructions : routine.Restores instructions) :
    routine.Preserves (code.append instructions) where
  saves := by rw [CodeUnit.append, List.head?_append, h.saves, Option.some_or]
  restores := h.restores.append hinstructions
  labels := h.labels
  entered mark hmark := by
    obtain ⟨hindex, hrestores⟩ := h.entered mark hmark
    refine ⟨by simp only [CodeUnit.append, List.length_append]; omega, ?_⟩
    simp only [CodeUnit.append, List.drop_append_of_le_length hindex]
    exact hrestores.append hinstructions

theorem Preserves.placeLabel {code : CodeUnit} (h : routine.Preserves code) (name : Bytes)
    (span : Span) : routine.Preserves (code.placeLabel name span) where
  saves := h.saves
  restores := h.restores
  labels := by
    obtain ⟨marks, hmarks, hbehind⟩ := h.labels
    have hlength : code.instructions.length ≠ 0 := fun hempty => by
      have hsaves := h.saves
      rw [List.length_eq_zero_iff.mp hempty] at hsaves
      cases hsaves
    refine ⟨marks ++ [⟨name, code.instructions.length, span⟩], ?_, fun mark hmark => ?_⟩
    · rw [CodeUnit.placeLabel, hmarks, List.cons_append]
    · rcases List.mem_append.mp hmark with hmark | hmark
      · exact hbehind mark hmark
      · rw [List.mem_singleton.mp hmark]
        exact Nat.pos_of_ne_zero hlength
  entered mark hmark := by
    rcases List.mem_append.mp hmark with hmark | hmark
    · exact h.entered mark hmark
    · rw [List.mem_singleton.mp hmark]
      refine ⟨le_rfl, ?_⟩
      change routine.Restores (code.instructions.drop code.instructions.length)
      rw [List.drop_length]
      exact restores_of_opcode_ne fun _ hmem => by cases hmem

theorem Lowers.restores {statement : Statement} {instructions : List Instruction} {ends : Bool}
    (h : routine.Lowers statement instructions ends) (hkind : routine.kind = .function)
    (hsaves : routine.preserved ≠ []) : routine.Restores instructions := by
  cases h with
  | restored => exact returnFrom_restores hsaves _
  | written hform hreturn hinstruction hopcode hspan =>
      refine restores_of_opcode_ne fun other hother hret => ?_
      rw [List.mem_singleton.mp hother, hopcode] at hret
      exact hreturn hret hkind
  | lost => exact restores_of_opcode_ne nofun

theorem lower_preserves (hclean : routine.lower.2 = []) (hkind : routine.kind = .function)
    (hsaves : routine.preserved ≠ []) : routine.Preserves routine.lower.1 := by
  have hprologue : routine.prologue = [routine.save] := by
    simp [prologue, save, hkind, hsaves]
  have hopening : routine.Preserves routine.opening := by
    have hrestores : routine.Restores [routine.save] :=
      restores_of_opcode_ne (by simp [save]; decide)
    constructor
    · simp [opening, CodeUnit.append, CodeUnit.placeLabel, CodeUnit.empty, hprologue]
    · simpa [opening, CodeUnit.append, CodeUnit.placeLabel, CodeUnit.empty, hprologue]
    · exact ⟨[], rfl, fun _ hmem => by cases hmem⟩
    · intro mark hmark
      rw [List.mem_singleton.mp hmark]
      simpa [opening, CodeUnit.append, CodeUnit.placeLabel, CodeUnit.empty, hprologue]
  obtain ⟨code, ended, hcode, hlower⟩ := holds_lower (fun _ code _ =>
    routine.Preserves code) hclean hopening (fun _ _ _ span name h => h.placeLabel name span)
    (fun _ _ _ _ _ _ h hlowers => h.append (hlowers.restores hkind hsaves))
  rw [hlower]
  split
  · exact hcode
  · rw [tail, hkind]
    exact hcode.append (returnFrom_restores hsaves _)

theorem getLast?_returnFrom (instructions : List Instruction) (span : Span) :
    (instructions ++ routine.returnFrom span).getLast? = some ⟨.ret, 0, [], span⟩ := by
  rw [returnFrom, ← List.append_assoc, List.getLast?_concat]

/-- Where control ends with some statements, it ends with the last of their instructions, unless
that one is lost. -/
def Ends (done : List Statement) (code : CodeUnit) (ended : Bool) : Prop :=
  ended = true → (∃ last, done.getLast? = some last ∧ last.isLostJump = true) ∨
    ∃ last, code.instructions.getLast? = some last ∧ last.opcode.endsControlFlow = true

theorem Lowers.ends {statement : Statement} {instructions : List Instruction} {ends : Bool}
    (h : routine.Lowers statement instructions ends) (done : List Statement) (code : CodeUnit) :
    Ends (done ++ [statement]) (code.append instructions) ends := by
  intro hends
  cases h with
  | restored => exact .inr ⟨_, getLast?_returnFrom _ _, rfl⟩
  | written hform hreturn hinstruction hopcode hspan =>
      exact .inr ⟨_, List.getLast?_concat .., hopcode ▸ hends⟩
  | lost hform hlost => exact .inl ⟨_, List.getLast?_concat .., hlost hends⟩

theorem lower_ends (hclean : routine.lower.2 = []) (hkind : routine.kind ≠ .script)
    (hlost : ∀ last, routine.statements.getLast? = some last → last.isLostJump = false) :
    ∃ last, routine.lower.1.instructions.getLast? = some last ∧
      last.opcode.endsControlFlow = true := by
  obtain ⟨code, ended, hcode, hlower⟩ := holds_lower Ends hclean nofun
    (fun _ _ _ _ _ _ => nofun) (fun done code _ _ _ _ _ hlowers => hlowers.ends done code)
  rw [hlower]
  cases ended with
  | true =>
      rcases hcode rfl with ⟨last, hlast, hjump⟩ | hlast
      · rw [hlost last hlast] at hjump
        cases hjump
      · exact hlast
  | false =>
      cases hroutine : routine.kind with
      | script => exact absurd hroutine hkind
      | function =>
          rw [tail, hroutine]
          exact ⟨_, getLast?_returnFrom _ _, rfl⟩
      | subroutine =>
          rw [tail, hroutine]
          exact ⟨_, List.getLast?_concat .., rfl⟩

/-- The opcodes of the instructions that were written. -/
def writtenOpcodes (statements : List Statement) : List Opcode :=
  statements.filterMap fun statement => statement.form?.map Form.opcode

/-- Code of a routine that saves nothing. Nothing stands between the instructions that were
written, and no return is left out. -/
structure Plain (done : List Statement) (code : CodeUnit) : Prop where
  opcodes : (code.instructions.map Instruction.opcode).Sublist (writtenOpcodes done)
  returns : code.instructions.filter (·.opcode == .ret) =
    (done.filterMap Statement.returnSpan?).map fun span => ⟨.ret, 0, [], span⟩

theorem Plain.append {done : List Statement} {code : CodeUnit} (h : Plain done code)
    {statement : Statement} {instructions : List Instruction}
    (hopcodes : (instructions.map Instruction.opcode).Sublist
      (statement.form?.map Form.opcode).toList)
    (hreturns : instructions.filter (·.opcode == .ret) =
      statement.returnSpan?.toList.map fun span => ⟨.ret, 0, [], span⟩) :
    Plain (done ++ [statement]) (code.append instructions) where
  opcodes := by
    have hwritten : writtenOpcodes [statement] = (statement.form?.map Form.opcode).toList := by
      cases hform : statement.form? <;> simp [writtenOpcodes, hform]
    have hsplit : writtenOpcodes (done ++ [statement]) =
        writtenOpcodes done ++ writtenOpcodes [statement] := List.filterMap_append
    rw [CodeUnit.append, List.map_append, hsplit, hwritten]
    exact h.opcodes.append hopcodes
  returns := by
    have hwritten : [statement].filterMap Statement.returnSpan? =
        statement.returnSpan?.toList := by
      cases hspan : statement.returnSpan? <;> simp [hspan]
    rw [CodeUnit.append, List.filter_append, h.returns, hreturns, List.filterMap_append,
      hwritten, List.map_append]

theorem Lowers.plain {statement : Statement} {instructions : List Instruction} {ends : Bool}
    (h : routine.Lowers statement instructions ends)
    (hempty : routine.kind = .function → routine.preserved = [])
    {done : List Statement} {code : CodeUnit} (hcode : Plain done code) :
    Plain (done ++ [statement]) (code.append instructions) := by
  cases h with
  | restored hform hreturn hkind =>
      refine hcode.append ?_ ?_ <;>
        simp [returnFrom, hempty hkind, Statement.form?, Statement.returnSpan?, hform, hreturn]
  | @written span mnemonic arguments form instruction hform hreturn hinstruction hopcode hspan =>
      refine hcode.append (by simp [Statement.form?, hform, hopcode]) ?_
      by_cases hret : form.opcode = .ret
      · have hends : form.opcode.endsControlFlow = true := hret ▸ rfl
        obtain rfl : form = ⟨.ret, "return", .plain, 0, []⟩ := by
          rcases Form.ends_rows form (Form.mem_of_ofMnemonic? hform) hends with rfl | rfl | rfl
          · cases hret
          · cases hret
          · rfl
        obtain ⟨opcode, subtype, operands, place⟩ := instruction
        obtain ⟨-, hsubtype, hoperands⟩ := hinstruction
        obtain rfl : operands = [] := List.forall₂_nil_left_iff.mp hoperands
        obtain rfl : subtype = 0 := hsubtype
        obtain rfl : opcode = .ret := hopcode
        obtain rfl : place = span := hspan
        simp [Statement.returnSpan?, hform]
      · simp [Statement.returnSpan?, hform, hopcode, hret]
  | lost hform hlost =>
      refine hcode.append (by simp) ?_
      simp only [List.filter_nil, Statement.returnSpan?, hform, Option.any_some, beq_iff_eq]
      split
      · rename_i hret
        have hjump := hlost (hret ▸ rfl)
        simp [Statement.isLostJump, hform, hret, Opcode.ret, Opcode.jump] at hjump
      · rfl

/-- The opcode that is added where the statements of a routine run out. -/
def closing (routine : Routine) : List Opcode :=
  match routine.kind with
  | .script => []
  | .function => [.ret]
  | .subroutine => [.retsub]

theorem lower_plain (hclean : routine.lower.2 = [])
    (hempty : routine.kind = .function → routine.preserved = []) :
    (routine.lower.1.instructions.map Instruction.opcode).Sublist
        (writtenOpcodes routine.statements ++ routine.closing) ∧
      (routine.kind ≠ .function → routine.lower.1.instructions.filter (·.opcode == .ret) =
        (routine.statements.filterMap Statement.returnSpan?).map fun span =>
          ⟨.ret, 0, [], span⟩) := by
  have hprologue : routine.prologue = [] := by
    simpa [prologue] using hempty
  have hopening : Plain [] routine.opening := by
    constructor <;>
      simp [opening, CodeUnit.append, CodeUnit.placeLabel, CodeUnit.empty, hprologue]
  obtain ⟨code, ended, hcode, hlower⟩ := holds_lower (fun done code _ => Plain done code)
    hclean hopening
    (fun done code _ span name h => by
      have hlabel : Plain (done ++ [.label span name]) (code.append []) := h.append (by simp) rfl
      rw [CodeUnit.append, List.append_nil] at hlabel
      exact ⟨hlabel.opcodes, hlabel.returns⟩)
    (fun _ _ _ _ _ _ h hlowers => hlowers.plain hempty h)
  have htail : routine.tail.map Instruction.opcode = routine.closing := by
    rw [tail, closing]
    cases hkind : routine.kind with
    | script | subroutine => rfl
    | function => simp [returnFrom, hempty hkind]
  rw [hlower]
  cases ended with
  | true => exact ⟨hcode.opcodes.trans (List.sublist_append_left ..), fun _ => hcode.returns⟩
  | false =>
      refine ⟨?_, fun hkind => ?_⟩
      · simp only [Bool.false_eq_true, if_false, CodeUnit.append, List.map_append, htail]
        exact hcode.opcodes.append (List.Sublist.refl _)
      · have hnone : routine.tail.filter (·.opcode == .ret) = [] := by
          rw [tail]
          cases hroutine : routine.kind with
          | script | subroutine => rfl
          | function => exact absurd hroutine hkind
        simp only [Bool.false_eq_true, if_false, CodeUnit.append, List.filter_append, hnone,
          List.append_nil, hcode.returns]

theorem Restores.getElem? {instructions : List Instruction} (h : routine.Restores instructions)
    {index : Nat} {instruction : Instruction} (hindex : instructions[index]? = some instruction)
    (hreturn : instruction.opcode = .ret) :
    ∃ before span, index = before + 1 ∧ instructions[before]? = some (routine.restore span) := by
  obtain ⟨hlt, rfl⟩ := List.getElem?_eq_some_iff.mp hindex
  have hsplit := List.take_append_drop index instructions
  rw [List.drop_eq_getElem_cons hlt] at hsplit
  obtain ⟨before, span, hbefore⟩ := h _ _ _ hsplit.symm hreturn
  have hlength := congrArg List.length hbefore
  rw [List.length_take, Nat.min_eq_left hlt.le, List.length_append, List.length_singleton]
    at hlength
  refine ⟨before.length, span, hlength, ?_⟩
  rw [← hsplit, hbefore, List.append_assoc, List.getElem?_append_right le_rfl, Nat.sub_self]
  rfl

/-- Preserved registers are restored on every return. What a function saves is its first
instruction, behind its own name alone; each of its returns stands directly behind an
instruction that restores the same registers in reverse, and no label stands between the two. A
function or subroutine ends with a return or a jump, unless its last statement is a jump that
is lost. A routine that preserves nothing has the instructions that were written, and the
returns of a script or subroutine stay as they are. -/
theorem lower_returns (routine : Routine) (hclean : routine.lower.2 = []) :
    (routine.kind = .function → routine.preserved ≠ [] →
      routine.lower.1.instructions[0]? = some routine.save ∧
      (∀ index instruction, routine.lower.1.instructions[index]? = some instruction →
        instruction.opcode = .ret → ∃ before span, index = before + 1 ∧
          routine.lower.1.instructions[before]? = some (routine.restore span)) ∧
      (∃ marks, routine.lower.1.labels = ⟨routine.name, 0, routine.span⟩ :: marks ∧
        ∀ mark ∈ marks, 0 < mark.index) ∧
      ∀ mark ∈ routine.lower.1.labels, ∀ instruction,
        routine.lower.1.instructions[mark.index]? = some instruction →
          instruction.opcode ≠ .ret) ∧
    (routine.kind ≠ .script →
      (∀ last, routine.statements.getLast? = some last → last.isLostJump = false) →
      ∃ last, routine.lower.1.instructions.getLast? = some last ∧
        (last.opcode = .ret ∨ last.opcode = .retsub ∨ last.opcode = .jump)) ∧
    ((routine.kind = .function → routine.preserved = []) →
      (routine.lower.1.instructions.map Instruction.opcode).Sublist
        (writtenOpcodes routine.statements ++ routine.closing) ∧
      (routine.kind ≠ .function → routine.lower.1.instructions.filter (·.opcode == .ret) =
        (routine.statements.filterMap Statement.returnSpan?).map fun span =>
          ⟨.ret, 0, [], span⟩)) := by
  refine ⟨fun hkind hsaves => ?_, fun hkind hlost => ?_, lower_plain hclean⟩
  · have hpreserves := lower_preserves hclean hkind hsaves
    refine ⟨?_, fun _ _ => hpreserves.restores.getElem?, hpreserves.labels,
      fun mark hmark instruction hinstruction hreturn => ?_⟩
    · rw [← List.head?_eq_getElem?]
      exact hpreserves.saves
    · have hfirst : (routine.lower.1.instructions.drop mark.index)[0]? = some instruction := by
        rwa [List.getElem?_drop, Nat.add_zero]
      obtain ⟨before, span, hindex, -⟩ := (hpreserves.entered mark hmark).2.getElem? hfirst hreturn
      cases hindex
  · obtain ⟨last, hlast, hends⟩ := lower_ends hclean hkind hlost
    refine ⟨last, hlast, ?_⟩
    simp only [Opcode.endsControlFlow, List.contains_eq_mem, List.mem_cons, List.not_mem_nil,
      or_false, decide_eq_true_eq] at hends
    rcases hends with hends | hends | hends
    · exact .inr (.inr hends)
    · exact .inl hends
    · exact .inr (.inl hends)

/-- A function with two ways out, one of them behind a label at its end. -/
def twoExits : Routine where
  kind := .function
  name := ascii "F"
  parameterCount := 0
  preserved := valueRange 0 1
  statements :=
    [.label .origin (ascii "A"), .instruction .origin (ascii "return") [],
      .label .origin (ascii "B")]
  span := .origin

theorem lower_returns_two_exits :
    twoExits.lower.2 = [] ∧
      twoExits.lower.1.instructions = [twoExits.save, twoExits.restore .origin,
        ⟨.ret, 0, [], .origin⟩, twoExits.restore .origin, ⟨.ret, 0, [], .origin⟩] ∧
      ∃ last, twoExits.lower.1.instructions.getLast? = some last ∧
        (last.opcode = .ret ∨ last.opcode = .retsub ∨ last.opcode = .jump) := by
  have hclean : twoExits.lower.2 = [] := by decide +kernel
  refine ⟨hclean, by decide +kernel, (lower_returns twoExits hclean).2.1 (by decide) ?_⟩
  intro last hlast
  obtain rfl := Option.some.inj hlast
  rfl

/-- A function that ends with a jump to a name that was refused when it was read. -/
def lostExit : Routine where
  kind := .function
  name := ascii "F"
  parameterCount := 0
  preserved := valueRange 0 0
  statements :=
    [.instruction .origin (ascii "j") [.expression .origin (.error .origin)]]
  span := .origin

/-- Control falls off the end of a function that ends with a lost jump. -/
theorem lower_lost_exit :
    lostExit.kind = .function ∧ lostExit.preserved ≠ [] ∧ lostExit.lower.2 = [] ∧
      ¬ ∃ last, lostExit.lower.1.instructions.getLast? = some last ∧
        (last.opcode = .ret ∨ last.opcode = .retsub ∨ last.opcode = .jump) := by
  have hlower : lostExit.lower.1.instructions = [lostExit.save] := by decide +kernel
  refine ⟨rfl, by decide, by decide +kernel, ?_⟩
  rw [hlower]
  decide

end Routine

end NovelAsm
