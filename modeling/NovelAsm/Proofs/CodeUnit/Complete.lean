import NovelAsm.Proofs.CodeUnit.Faultless
import NovelAsm.Proofs.Layout.Listing
import NovelAsm.Proofs.SyntaxTree.Grammar

/-!
A text that is listed without a complaint is listed as a whole. Its tree is well formed and its
routines hold no error, so each instruction of the tree is one instruction of a unit, in the
order of the text; all else in a unit is what a function saves, restores and returns with.
-/

namespace NovelAsm

open SyntaxTree

namespace Statement

/-- Whether control ends with a statement. -/
def ends (statement : Statement) : Bool := statement.form?.any (·.opcode.endsControlFlow)

theorem getLast?_ends (ended : Bool) (first : Statement) (rest : List Statement) :
    (first :: rest).getLast?.elim ended ends = rest.getLast?.elim first.ends ends := by
  rw [List.getLast?_cons]
  cases rest.getLast? <;> rfl

theorem StandFor.of_label {span : Span} {name : Bytes} {rest : List Statement}
    {trees : List SyntaxTree} (h : StandFor trees (.label span name :: rest)) :
    StandFor trees rest where
  faultless := (List.forall_mem_cons.mp h.faultless).2
  instructions := h.instructions

theorem StandFor.of_instruction {span : Span} {mnemonic : Bytes} {arguments : List Argument}
    {rest : List Statement} {trees : List SyntaxTree}
    (h : StandFor trees (.instruction span mnemonic arguments :: rest)) :
    ∃ tree others, trees = tree :: others ∧ span = tree.span ∧ mnemonic = tree.firstText ∧
      (∀ argument ∈ arguments, argument.Faultless) ∧ StandFor others rest := by
  have hall := h.instructions
  rw [List.filter_cons_of_pos rfl] at hall
  obtain ⟨tree, others, ⟨found, hfound, hfaultless⟩, hrest, rfl⟩ :=
    List.forall₂_cons_right_iff.mp hall
  cases hfound
  exact ⟨tree, others, rfl, rfl, rfl, hfaultless, (List.forall_mem_cons.mp h.faultless).2, hrest⟩

end Statement

namespace Routine

/-- What an instruction with a span and a mnemonic comes to in a routine. -/
inductive Contributes (routine : Routine) (span : Span) (mnemonic : Bytes) :
    List Instruction → Prop where
  /-- A return of a function that has registers to restore. -/
  | restored {form : Form} (hform : Form.ofMnemonic? mnemonic = some form)
      (hreturn : form.opcode = .ret) (hkind : routine.kind = .function)
      (hsaves : routine.preserved ≠ []) :
      Contributes routine span mnemonic [routine.restore span, ⟨.ret, 0, [], span⟩]
  /-- One instruction, of the row that it is written for. -/
  | written {form : Form} {instruction : Instruction}
      (hform : Form.ofMnemonic? mnemonic = some form)
      (hreturn : form.opcode = .ret → routine.kind = .function → routine.preserved = [])
      (hinstruction : instruction.OfForm form) (hopcode : instruction.opcode = form.opcode)
      (hspan : instruction.span = span) : Contributes routine span mnemonic [instruction]

variable {routine : Routine}

theorem contributes_return {span : Span} {mnemonic : Bytes} {form : Form}
    (hform : Form.ofMnemonic? mnemonic = some form) (hreturn : form.opcode = .ret)
    (hkind : routine.kind = .function) :
    Contributes routine span mnemonic (routine.returnFrom span) := by
  by_cases hsaves : routine.preserved = []
  · have halone : routine.returnFrom span = [⟨.ret, 0, [], span⟩] := by
      simp [returnFrom, hsaves]
    obtain rfl | rfl | rfl := Form.ends_rows form (Form.mem_of_ofMnemonic? hform)
      (by rw [hreturn]; rfl)
    · cases hreturn
    · cases hreturn
    · rw [halone]
      exact .written hform (fun _ _ => hsaves) ⟨rfl, rfl, .nil⟩ rfl rfl
  · rw [returnFrom_eq hsaves]
    exact .restored hform hreturn hkind hsaves

theorem lowerInstruction_contributes (span : Span) (mnemonic : Bytes)
    (arguments : List Argument) :
    Silently (routine.lowerInstruction span mnemonic arguments) fun lowered =>
      (∀ argument ∈ arguments, argument.Faultless) →
        routine.Contributes span mnemonic lowered.1 ∧
          lowered.2 = (Statement.instruction span mnemonic arguments).ends := by
  simp only [lowerInstruction]
  split
  · exact .behind_report _ (.pure (P := fun _ => True) trivial)
  · rename_i form hform
    have hends : (Statement.instruction span mnemonic arguments).ends =
        form.opcode.endsControlFlow := by
      simp only [Statement.ends, Statement.form?, hform, Option.any_some]
    rw [hends]
    split
    · rename_i hreturn
      obtain ⟨hopcode, hkind⟩ : form.opcode = .ret ∧ routine.kind = .function := by
        simpa using hreturn
      exact .pure fun _ => ⟨contributes_return hform hopcode hkind, by rw [hopcode]; rfl⟩
    · rename_i hreturn
      have hmem := Form.mem_of_ofMnemonic? hform
      refine Silently.follow ((Form.instruction?_answers hmem mnemonic span arguments).and
        (instruction?_finds_form hmem mnemonic span arguments)) fun found => .pure ?_
      rintro ⟨hanswered, hfound⟩ hfaultless
      obtain ⟨instruction, rfl⟩ := Option.isSome_iff_exists.mp (hanswered hfaultless)
      obtain ⟨hinstruction, hopcode, hspan⟩ := hfound instruction rfl
      exact ⟨.written hform (fun hret hkind => absurd (by simp [hret, hkind]) hreturn) hinstruction
        hopcode hspan, rfl⟩

/-- What the instructions of some trees come to, each by itself. -/
def ContributeAll (routine : Routine) (trees : List SyntaxTree)
    (parts : List (List Instruction)) : Prop :=
  List.Forall₂ (fun tree part => routine.Contributes tree.span tree.firstText part) trees parts

/-- What statements without errors come to, one behind another. -/
theorem lowerStatements_contribute (statements : List Statement) (code : CodeUnit)
    (ended : Bool) :
    Silently (routine.lowerStatements code ended statements) fun lowered =>
      ∀ trees, Statement.StandFor trees statements →
        ∃ parts, routine.ContributeAll trees parts ∧
          lowered.1.instructions = code.instructions ++ parts.flatten ∧
          lowered.2 = statements.getLast?.elim ended Statement.ends := by
  induction statements generalizing code ended with
  | nil =>
      refine .pure fun trees htrees => ⟨[], ?_, by simp, rfl⟩
      obtain rfl := List.forall₂_nil_right_iff.mp htrees.instructions
      exact .nil
  | cons first rest ih =>
      simp only [Statement.getLast?_ends]
      cases first with
      | label span name =>
          exact (ih (code.placeLabel name span) false).mono fun _ hrest trees htrees =>
            hrest trees htrees.of_label
      | instruction span mnemonic arguments =>
          refine (lowerInstruction_contributes span mnemonic arguments).follow fun lowered =>
            (ih (code.append lowered.1) lowered.2).mono fun result hrest hlowered trees htrees => ?_
          obtain ⟨tree, others, rfl, rfl, rfl, hfaultless, hothers⟩ := htrees.of_instruction
          obtain ⟨hpart, hends⟩ := hlowered hfaultless
          obtain ⟨parts, hparts, hinstructions, hended⟩ := hrest others hothers
          refine ⟨lowered.1 :: parts, .cons hpart hparts, ?_, by rw [hended, hends]⟩
          rw [hinstructions, List.flatten_cons, ← List.append_assoc]
          rfl

/-- The code unit of a routine that holds the instructions of some trees: what each comes to,
between what the routine saves and, unless its last statement ends it, an implicit return. -/
def Holds (routine : Routine) (trees : List SyntaxTree) : Prop :=
  ∃ parts, routine.ContributeAll trees parts ∧
    routine.lower.1.instructions = routine.prologue ++ parts.flatten ++
      if routine.statements.getLast?.any Statement.ends then [] else routine.tail

theorem holds_of_standFor {trees : List SyntaxTree} (hclean : routine.lower.2 = [])
    (h : Statement.StandFor trees routine.statements) : routine.Holds trees := by
  rw [lower_eq] at hclean
  obtain ⟨parts, hparts, hinstructions, hended⟩ :=
    (lowerStatements_contribute routine.statements routine.opening false []).2
      (congrArg List.length hclean) trees h
  refine ⟨parts, hparts, ?_⟩
  have hany : routine.statements.getLast?.any Statement.ends =
      routine.statements.getLast?.elim false Statement.ends := by
    cases routine.statements.getLast? <;> rfl
  rw [lower_eq, hany, ← hended]
  dsimp only
  split
  · rw [hinstructions, List.append_nil]
    rfl
  · rw [CodeUnit.append, hinstructions]
    rfl

end Routine

namespace Listing

open Session

/-- A text that is listed without a complaint: its tree holds no errors, its routines hold none,
and each instruction of the tree belongs to one unit and is lowered there. -/
theorem ofSource_complete (source : Bytes) (hclean : (ofSource source).diagnostics = []) :
    nodesOf .error (ParsedSource.read source .origin).tree = [] ∧
      (∀ routine ∈ (wholeRoutines source).1, routine.Faultless) ∧
      (ofSource source).units = (wholeRoutines source).1.map (·.lower.1) ∧
      ∃ shares : List (List SyntaxTree),
        shares.flatten = nodesOf .instruction (ParsedSource.read source .origin).tree ∧
        List.Forall₂ Routine.Holds (wholeRoutines source).1 shares := by
  obtain ⟨hparsed, -, hresolved, hlowered⟩ := (diagnostics_eq_nil_iff source).mp hclean
  have hformed := ParsedSource.read_formed hparsed
  have hsound : nodesOf .error (ParsedSource.read source .origin).tree = [] :=
    hformed.1.nodesOf_error fun herror => by
      have hkind := hformed.2
      rw [herror] at hkind
      cases hkind
  obtain ⟨shares, hshares, hstand⟩ := Routine.resolve_shares _ hformed hresolved
  have hstand : List.Forall₂ (fun routine share =>
      routine.Faultless ∧ Statement.StandFor share routine.statements)
      (wholeRoutines source).1 shares :=
    .flip (hstand.imp fun _ _ h => ⟨h.faultless, h⟩)
  obtain ⟨hfaultless, hstand⟩ := (List.forall₂_and_left _ _).mp hstand
  have hclean := List.flatMap_eq_nil_iff.mp hlowered
  refine ⟨hsound, hfaultless, List.map_map, shares, hshares, ?_⟩
  exact ((List.forall₂_and_left _ _).mpr ⟨hclean, hstand⟩).imp fun _ _ h =>
    Routine.holds_of_standFor h.1 h.2

/-- A script that calls a function with two registers to save. -/
def calling : Bytes :=
  ascii "A:\n    call F, 1\nfunction F($a), [$v0-$v1]\n    mov $v0, $a\n    return\nendfun\n"

/-- Of the three instructions that are written, the last one comes to two. -/
theorem ofSource_complete_calling :
    (ofSource calling).diagnostics = [] ∧
      (nodesOf .instruction (ParsedSource.read calling .origin).tree).length = 3 ∧
      (ofSource calling).units.map (fun unit => unit.instructions.map (·.opcode)) =
        [[.call], [.push, .binary, .pop, .ret]] ∧
      ∃ shares : List (List SyntaxTree),
        shares.flatten = nodesOf .instruction (ParsedSource.read calling .origin).tree ∧
        List.Forall₂ Routine.Holds (wholeRoutines calling).1 shares := by
  have hclean : (ofSource calling).diagnostics = [] := by decide +kernel
  exact ⟨hclean, by decide +kernel, by decide +kernel, (ofSource_complete calling hclean).2.2.2⟩

end Listing

end NovelAsm
