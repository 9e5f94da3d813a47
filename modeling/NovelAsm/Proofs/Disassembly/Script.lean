import NovelAsm.Disassembly
import NovelAsm.Proofs.Disassembly.Rows
import NovelAsm.Proofs.Layout.Listing

/-!
Texts of scripts. A disassembly consists of remarks, labels and instructions, each in a line of
its own. Such a text is parsed to its lines; it declares its labels, and every label opens a
script with the instructions behind it. Each of these is lowered on its own, so the code of the
text is put together from that of its lines.
-/

namespace NovelAsm

open Lexed NovelAsm.Parser

def lineFeed : Token := leaf .newline (ascii "\n")

def colonToken : Token := leaf (.mark .colon) (ascii ":")

/-- What stands in front of an instruction in its line. -/
def indent : Bytes := ascii "    "

theorem cuts_indent : Cuts isInk indent [] := by
  intro behind hbehind
  exact tokensOf_gaps (List.all_eq_true.mp rfl) (ink_endsBlanks hbehind)

theorem begins_lineFeed (rest : List Token) : Begins .newline 0 (lineFeed :: rest) :=
  ⟨lineFeed, rest, rfl, rfl, rfl, fun _ => rfl⟩

/-- A line feed ends a text. -/
theorem cuts_lineFeed : tokensOf (ascii "\n") = [lineFeed] ∧ Flawless 0 (ascii "\n") :=
  ⟨rfl, rfl, trivial⟩

/-- A remark is no token. -/
theorem cuts_remark {text : Bytes} (h : ∀ b ∈ text, Lexeme.notLineEnd b = true) :
    Cuts (· == byte '\n') (ascii "//" ++ text) [] := by
  rintro _ ⟨_, behind, rfl, hline⟩
  obtain rfl := beq_iff_eq.mp hline
  have hrun : Lexeme.run Lexeme.notLineEnd (text ++ byte '\n' :: behind) = text.length :=
    run_append_stop h (by decide)
  have hscan : Lexeme.scan (byte '/') (byte '/' :: text ++ byte '\n' :: behind) =
      Lexeme.clean (.trivia .lineComment) (byte '/' :: text).length := by
    change Lexeme.clean _ (Lexeme.run Lexeme.notLineEnd (text ++ byte '\n' :: behind) + 1) = _
    rw [hrun]
    rfl
  exact tokensOf_of_scan hscan

/-- A line of the text of a script. -/
inductive ScriptLine where
  | comment (text : Bytes)
  | label (name : Bytes)
  | instruction (line : PrintedLine) (remark : Bytes)

namespace ScriptLine

/-- A line with its line feed. -/
def shown : ScriptLine → Bytes
  | .comment text => ascii "//" ++ text ++ ascii "\n"
  | .label name => name ++ ascii ":\n"
  | .instruction line remark =>
      indent ++ line.shown ++ DisassemblyLine.remarkText remark ++ ascii "\n"

def tokens : ScriptLine → List Token
  | .comment _ => [lineFeed]
  | .label name => [leaf .identifier name, colonToken, lineFeed]
  | .instruction line _ => line.tokens ++ [lineFeed]

def labelTree (name : Bytes) : SyntaxTree :=
  .node .label [.token (leaf .identifier name), .token colonToken]

def trees : ScriptLine → List SyntaxTree
  | .comment _ => [.token lineFeed]
  | .label name => [labelTree name, .token lineFeed]
  | .instruction line _ => [line.tree, .token lineFeed]

/-- A line that can be read: what it says stays in it. -/
def IsLegible : ScriptLine → Prop
  | .comment text => ∀ b ∈ text, Lexeme.notLineEnd b = true
  | .label name => IsLabelName name
  | .instruction line remark => line.IsLegible ∧ ∀ b ∈ remark, Lexeme.notLineEnd b = true

/-- The label that a line declares. -/
def label? : ScriptLine → Option Bytes
  | .label name => some name
  | _ => none

/-- The operands of a line. -/
def operands : ScriptLine → List PrintedOperand
  | .instruction line _ => line.operands
  | _ => []

variable {line : ScriptLine}

theorem endsLine (line : ScriptLine) : Lexeme.EndsLine line.shown := by
  have hlast (text : Bytes) : Lexeme.EndsLine (text ++ ascii "\n") := by
    rw [Lexeme.EndsLine, List.getLast?_append]
    rfl
  cases line with
  | comment text => exact hlast _
  | label name =>
      have hname := hlast (name ++ ascii ":")
      rwa [List.append_assoc] at hname
  | instruction line remark => exact hlast _

theorem remarkText_cuts {remark : Bytes} (h : ∀ b ∈ remark, Lexeme.notLineEnd b = true) :
    tokensOf (DisassemblyLine.remarkText remark ++ ascii "\n") = [lineFeed] ∧
      Flawless 0 (DisassemblyLine.remarkText remark ++ ascii "\n") ∧
      Heads isStop (DisassemblyLine.remarkText remark ++ ascii "\n") := by
  rw [DisassemblyLine.remarkText]
  split
  · exact ⟨cuts_lineFeed.1, cuts_lineFeed.2, heads_cons (by decide) _⟩
  · have hremark : ∀ b ∈ ascii " " ++ remark, Lexeme.notLineEnd b = true :=
      List.forall_mem_append.mpr ⟨List.forall_mem_singleton.mpr (by decide), h⟩
    have hcuts := cuts_blank.append (cuts_remark hremark) (heads_cons (by decide) _)
    obtain ⟨htokens, hflawless⟩ := hcuts (ascii "\n") (heads_cons (by decide) _)
    rw [cuts_lineFeed.1] at htokens
    exact ⟨htokens, hflawless.mpr cuts_lineFeed.2, heads_cons (by decide) _⟩

/-- A line that can be read is cut into its tokens. -/
theorem tokensOf_shown (h : line.IsLegible) :
    tokensOf line.shown = line.tokens ∧ Flawless 0 line.shown := by
  cases line with
  | comment text =>
      obtain ⟨htokens, hflawless⟩ := cuts_remark h (ascii "\n") (heads_cons (by decide) _)
      rw [cuts_lineFeed.1] at htokens
      exact ⟨htokens, hflawless.mpr cuts_lineFeed.2⟩
  | label name =>
      have hword := h.word
      cases name with
      | nil => cases hword
      | cons first more =>
          rw [isWord, Bool.and_eq_true, List.all_eq_true] at hword
          have hcolon : ∀ b ∈ (ascii ":\n").head?, Byte.isNamePart b = false :=
            fun b hb => Option.some.inj hb ▸ rfl
          obtain ⟨htokens, hflawless⟩ :=
            @tokensOf_word first more (ascii ":\n") hword.1 hword.2 hcolon
          have hend : tokensOf (ascii ":\n") = [colonToken, lineFeed] ∧ Flawless 0 (ascii ":\n") :=
            ⟨rfl, rfl, rfl, trivial⟩
          rw [hend.1, h.kind] at htokens
          exact ⟨htokens, hflawless.mpr hend.2⟩
  | instruction line remark =>
      obtain ⟨hend, hclean, hstop⟩ := remarkText_cuts h.2
      have hprints := PrintedLine.prints h.1
      obtain ⟨htokens, hflawless⟩ := (cuts_indent.append hprints.cuts
        (hprints.heads.mono fun _ => ink_of_solid)) _ hstop
      rw [hend] at htokens
      rw [shown, List.append_assoc]
      exact ⟨htokens, hflawless.mpr hclean⟩

end ScriptLine

/-- The lines of a text of scripts. -/
abbrev ScriptText := List ScriptLine

namespace ScriptText

def shown (text : ScriptText) : Bytes := text.flatMap ScriptLine.shown

def trees (text : ScriptText) : List SyntaxTree := text.flatMap ScriptLine.trees

/-- The labels of a text. -/
def labels (text : ScriptText) : List Bytes := text.filterMap ScriptLine.label?

def IsLegible (text : ScriptText) : Prop := ∀ line ∈ text, line.IsLegible

variable {text : ScriptText}

/-- A text that can be read is parsed to its lines. -/
theorem items (h : text.IsLegible) :
    Flawless 0 text.shown ∧ Items (tokensOf text.shown) text.trees := by
  induction text with
  | nil => exact ⟨trivial, .nil⟩
  | cons first rest ih =>
      obtain ⟨hfirst, hrest⟩ := List.forall_mem_cons.mp h
      obtain ⟨hclean, hitems⟩ := ih hrest
      obtain ⟨htokens, hflawless⟩ := first.tokensOf_shown hfirst
      have hwhole := (flawless_append (.inr first.endsLine) hflawless (shown rest)).mpr hclean
      have hall := tokensOf_append (.inr first.endsLine) hflawless (shown rest)
      have hproper := ParsedSource.tokensOf_proper hwhole
      refine ⟨hwhole, ?_⟩
      change Items (tokensOf (first.shown ++ shown rest)) (first.trees ++ trees rest)
      rw [hall, htokens] at hproper ⊢
      cases first with
      | comment text => exact .newline rfl hitems
      | label name =>
          exact @Items.item [leaf .identifier name, colonToken] (lineFeed :: tokensOf (shown rest))
            _ _ (label_takes rfl rfl _) (.newline rfl hitems)
      | instruction line remark =>
          rw [ScriptLine.tokens, List.append_assoc] at hproper ⊢
          exact .item (PrintedLine.takesItem hfirst.1 (begins_lineFeed _) hproper)
            (.newline rfl hitems)

theorem clean (h : text.IsLegible) : (ParsedSource.read text.shown .origin).diagnostics = [] :=
  (ParsedSource.diagnostics_eq_nil_iff _ _).mpr ⟨(items h).1, _, (items h).2⟩

theorem coreAll_children (h : text.IsLegible) :
    SyntaxTree.coreAll (ParsedSource.read text.shown .origin).tree.children = text.trees :=
  Items.unique (ParsedSource.items_of_diagnostics (clean h)) (items h).2
    (ParsedSource.tokensOf_proper (items h).1)

end ScriptText

namespace PrintedLine

theorem kind_tree (line : PrintedLine) : line.tree.kind? = some .instruction := by
  rcases tree_cases line with ⟨htree, -⟩ | htree <;> rw [htree] <;> rfl

end PrintedLine

/-- The symbol of a label. -/
def Symbol.ofLabel (name : Bytes) : Symbol := ⟨name, .label, 0, .origin⟩

/-- A scope of labels. -/
def Scope.ofLabels (names : List Bytes) : Scope := ⟨names.map .ofLabel, .empty, .empty⟩

theorem Scope.findSymbol?_ofLabels (names : List Bytes) (name : Bytes) :
    (ofLabels names).findSymbol? name = (names.find? (· == name)).map .ofLabel :=
  List.find?_map ..

theorem Scope.labelsAlone_ofLabels (names : List Bytes) : (ofLabels names).HasLabelsAlone :=
  ⟨rfl, rfl⟩

namespace Declarations

/-- What was found when there was nothing but labels. -/
def ofLabels (names : List Bytes) : Declarations := ⟨.ofLabels names, [], []⟩

/-- A label that is new is declared behind the others. -/
theorem declare_ofLabels {names : List Bytes} {name : Bytes} (h : name ∉ names) :
    (ofLabels names).declare (.ofLabel name) = ofLabels (names ++ [name]) := by
  have hnew : (Scope.ofLabels names).findSymbol? name = none := by
    rw [Scope.findSymbol?_ofLabels, Option.map_eq_none_iff, List.find?_eq_none]
    intro other hother heq
    exact h (beq_iff_eq.mp heq ▸ hother)
  have hscope : (Scope.ofLabels names).declare (.ofLabel name) =
      (Scope.ofLabels (names ++ [name]), none) := by
    simp only [Scope.declare, Symbol.ofLabel, hnew]
    rw [Scope.ofLabels, Scope.ofLabels, List.map_append]
    rfl
  simp only [declare, ofLabels, hscope]

end Declarations

namespace ScriptText

variable {text : ScriptText}

theorem addItem_trees (found : Declarations) (line : ScriptLine) :
    line.trees.foldl (fun found item => found.addItem .origin item) found =
      line.label?.elim found fun name => found.declare (.ofLabel name) := by
  cases line with
  | comment text => rfl
  | label name =>
      have hname : (ScriptLine.labelTree name).firstToken? .identifier =
          some (leaf .identifier name) := rfl
      have hitem : found.addItem .origin (ScriptLine.labelTree name) =
          found.declareTree .label 0 .origin (ScriptLine.labelTree name) := rfl
      rw [Declarations.declareTree, hname] at hitem
      change found.addItem .origin (ScriptLine.labelTree name) = _
      rw [hitem]
      simp only [leaf, Span.rebase_origin]
      rfl
  | instruction line remark =>
      simp only [ScriptLine.trees, List.foldl_cons, List.foldl_nil, Declarations.addItem,
        line.kind_tree]
      rfl

/-- Labels that are declared behind one another, no two of them alike. -/
theorem foldl_addItem (before : List Bytes) (h : (before ++ text.labels).Nodup) :
    text.trees.foldl (fun (found : Declarations) item => found.addItem .origin item)
        (.ofLabels before) = .ofLabels (before ++ text.labels) := by
  induction text generalizing before with
  | nil => exact congrArg Declarations.ofLabels (List.append_nil before).symm
  | cons first rest ih =>
      change (first.trees ++ trees rest).foldl _ _ = _
      rw [List.foldl_append, addItem_trees]
      have hlabels : labels (first :: rest) = first.label?.toList ++ labels rest := by
        rw [labels, List.filterMap_cons]
        cases first.label? <;> rfl
      rw [hlabels] at h ⊢
      cases hlabel : first.label? with
      | none =>
          rw [hlabel] at h
          exact ih before h
      | some name =>
          rw [hlabel, Option.toList_some, ← List.append_assoc] at h
          have hnew : name ∉ before := fun hmem =>
            (List.nodup_append'.mp (List.nodup_append'.mp h).1).2.2 hmem
              (List.mem_singleton_self name)
          rw [Option.elim_some, Declarations.declare_ofLabels hnew, ih _ h,
            Option.toList_some, List.append_assoc]

/-- A text of scripts declares its labels, and that is all. -/
theorem collect_shown (h : text.IsLegible) (hlabels : text.labels.Nodup) :
    let found := Declarations.collect [⟨(ParsedSource.read text.shown .origin).tree, .origin⟩]
    found.1.bare = .ofLabels text.labels ∧ found.2 = [] := by
  intro found
  have hbare := Declarations.collect_bare [⟨(ParsedSource.read text.shown .origin).tree, .origin⟩]
  have hempty : Declarations.empty = .ofLabels [] := rfl
  rw [List.flatMap_singleton, coreAll_children h, Declarations.ofItems, hempty,
    foldl_addItem [] hlabels] at hbare
  obtain ⟨hscope, hreports⟩ := Prod.mk.inj hbare
  exact ⟨hscope, List.map_eq_nil_iff.mp hreports⟩

end ScriptText

/-- A scope without its places knows the same labels. -/
theorem Place.isKnown_bare {scope : Scope} {place : Place} :
    place.IsKnown scope.bare ↔ place.IsKnown scope := by
  have hbare : Symbol.bare ∘ Symbol.bare = Symbol.bare := rfl
  simp only [IsKnown, Scope.findSymbol?_bare, Option.map_map, hbare]

theorem PrintedOperand.isKnown_bare {scope : Scope} {operand : PrintedOperand} :
    operand.IsKnown scope.bare ↔ operand.IsKnown scope := by
  cases operand <;> simp only [IsKnown, Place.isKnown_bare]

theorem Scope.labelsAlone_bare {scope : Scope} :
    scope.bare.HasLabelsAlone ↔ scope.HasLabelsAlone :=
  ⟨fun h => ⟨h.values, h.registers⟩, fun h => ⟨h.values, h.registers⟩⟩

/-- A label with the instructions behind it. -/
structure Script where
  name : Bytes
  lines : List PrintedLine

namespace Script

def routine (script : Script) : Routine :=
  ⟨.script, script.name, 0, [], script.lines.map PrintedLine.statement, .origin⟩

def extend (script : Script) (line : PrintedLine) : Script :=
  { script with lines := script.lines ++ [line] }

theorem extend_routine (script : Script) {routine : Routine} {line : PrintedLine}
    {statement : Statement} (h : routine.bare = script.routine)
    (hstatement : statement.bare = line.statement) (span : Span) :
    (routine.extend statement span).bare = (script.extend line).routine := by
  have hsplit : (routine.extend statement span).bare =
      { routine.bare with statements := routine.bare.statements ++ [statement.bare] } := by
    simp [Routine.bare, Routine.extend]
  rw [hsplit, h, hstatement, Script.routine, Script.routine, extend, List.map_append]
  rfl

end Script

namespace ScriptText

/-- The scripts of a text behind one that is open before it. -/
def scripts (current : Option Script) : ScriptText → List Script
  | [] => current.toList
  | .comment _ :: rest => scripts current rest
  | .label name :: rest => current.toList ++ scripts (some ⟨name, []⟩) rest
  | .instruction line _ :: rest => scripts (current.map (·.extend line)) rest

/-- Whether a label stands in front of all instructions. -/
def IsOpened : ScriptText → Prop
  | [] | .label _ :: _ => True
  | .comment _ :: rest => IsOpened rest
  | .instruction .. :: _ => False

/-- All names in the operands of a text are those of labels in a scope. -/
def IsKnown (scope : Scope) (text : ScriptText) : Prop :=
  ∀ line ∈ text, ∀ operand ∈ line.operands, operand.IsKnown scope

variable {text : ScriptText} {scope : Scope}

/-- The trees of a text are read as its scripts. -/
theorem readItems_trees (hscope : scope.HasLabelsAlone) (h : text.IsLegible)
    (hknown : text.IsKnown scope) {current : Option Routine} {script : Option Script}
    (hcurrent : current.map Routine.bare = script.map Script.routine)
    (hopened : script.isSome ∨ text.IsOpened) :
    ∃ routines, Routine.readItems scope current text.trees = pure routines ∧
      routines.map Routine.bare = (text.scripts script).map Script.routine := by
  have hlist {current : Option Routine} {script : Option Script}
      (h : current.map Routine.bare = script.map Script.routine) :
      current.toList.map Routine.bare = script.toList.map Script.routine := by
    rw [← Option.toList_map, h, Option.toList_map]
  induction text generalizing current script with
  | nil => exact ⟨current.toList, rfl, hlist hcurrent⟩
  | cons first rest ih =>
      obtain ⟨hfirst, hrest⟩ := List.forall_mem_cons.mp h
      obtain ⟨hnames, hothers⟩ := List.forall_mem_cons.mp hknown
      cases first with
      | comment => exact ih hrest hothers hcurrent hopened
      | label name =>
          obtain ⟨routines, hread, hbare⟩ := @ih hrest hothers
            (some (.openScript (ScriptLine.labelTree name))) (some ⟨name, []⟩) rfl (.inl rfl)
          refine ⟨current.toList ++ routines, ?_, ?_⟩
          · exact congrArg (fun step => step >>= fun found => pure (current.toList ++ found)) hread
          · rw [List.map_append, hbare, scripts, List.map_append, hlist hcurrent]
      | instruction line remark =>
          obtain ⟨opened, rfl⟩ := Option.isSome_iff_exists.mp (hopened.resolve_right id)
          obtain ⟨routine, rfl, hroutine⟩ := Option.map_eq_some_iff.mp hcurrent
          obtain ⟨found, hfound, hstatement⟩ :=
            PrintedLine.readsInstruction hscope hfirst.1.row hnames
          have hextend := opened.extend_routine hroutine hstatement line.tree.span
          obtain ⟨routines, hread, hbare⟩ := @ih hrest hothers
            (some (routine.extend found line.tree.span)) (some (opened.extend line))
            (congrArg some hextend) (.inl rfl)
          refine ⟨routines, ?_, hbare⟩
          change Routine.readItems scope (some routine)
            (line.tree :: .token lineFeed :: trees rest) = _
          rw [Routine.readItems]
          simp only [line.kind_tree, hfound, pure_bind]
          exact hread

theorem isKnown_bare : text.IsKnown scope.bare ↔ text.IsKnown scope := by
  simp only [IsKnown, PrintedOperand.isKnown_bare]

/-- A text is read as its scripts without a complaint. -/
theorem resolve_shown (hscope : scope.HasLabelsAlone) (h : text.IsLegible)
    (hknown : text.IsKnown scope) (hopened : text.IsOpened) :
    let resolved := Routine.resolve scope (ParsedSource.read text.shown .origin).tree
    resolved.1.map Routine.bare = (text.scripts none).map Script.routine ∧ resolved.2 = [] := by
  intro resolved
  have hcore := Routine.readItems_core scope [] (ParsedSource.read text.shown .origin).tree
  obtain ⟨routines, hread, hbare⟩ := @readItems_trees text scope.bare
    (Scope.labelsAlone_bare.mpr hscope) h (isKnown_bare.mpr hknown) none none rfl (.inr hopened)
  rw [coreAll_children h, hread] at hcore
  obtain ⟨hroutines, hreports⟩ := Prod.mk.inj hcore
  refine ⟨?_, List.map_eq_nil_iff.mp hreports.symm⟩
  have hagain := congrArg (List.map Routine.bare) hroutines
  rw [hbare, List.map_map] at hagain
  exact (List.map_congr_left fun routine _ => (Routine.bare_bare routine).symm).trans hagain.symm

end ScriptText

namespace PrintedLine

/-- What a line is lowered to, and what is reported about that. -/
def lowered (line : PrintedLine) : (List Instruction × Bool) × Diagnostics :=
  (Script.routine ⟨[], []⟩).lowerInstruction .origin line.mnemonic
    (line.operands.map PrintedOperand.argument) []

/-- The instructions that a line is lowered to. -/
def instructions (line : PrintedLine) : List Instruction := line.lowered.1.1

/-- What is reported about the operands of a line. -/
def reports (line : PrintedLine) : Diagnostics := line.lowered.2

variable {line : PrintedLine} {scope : Scope}

/-- Every line of a script is lowered by itself. -/
theorem lowerInstruction_script (hscope : scope.HasLabelsAlone) (hrow : line.form ∈ Form.table)
    (hknown : ∀ operand ∈ line.operands, operand.IsKnown scope) (script : Script)
    (front : Diagnostics) :
    script.routine.lowerInstruction .origin line.mnemonic
      (line.operands.map PrintedOperand.argument) front =
        (line.lowered.1, front ++ line.reports) := by
  obtain ⟨found, -, hbare⟩ := readsInstruction hscope hrow hknown
  have harguments : (line.operands.map PrintedOperand.argument).map Argument.bare =
      line.operands.map PrintedOperand.argument := by
    have htwice := congrArg Statement.bare hbare
    rw [Statement.bare_bare, hbare, statement, Statement.bare] at htwice
    exact (Statement.instruction.inj htwice).2.2.symm
  have hkind : script.routine.lowerInstruction .origin line.mnemonic
      (line.operands.map PrintedOperand.argument) =
        (Script.routine ⟨[], []⟩).lowerInstruction .origin line.mnemonic
          (line.operands.map PrintedOperand.argument) := by
    simp only [Routine.lowerInstruction, Script.routine]
    rfl
  have herases (front : Diagnostics) : (Script.routine ⟨[], []⟩).lowerInstruction .origin
      line.mnemonic (line.operands.map PrintedOperand.argument) front =
        (Routine.bareLowered line.lowered.1, front ++ Diagnostics.bare line.reports) := by
    have hrun := @Routine.lowerInstruction_erases front (Script.routine ⟨[], []⟩) .origin
      line.mnemonic (line.operands.map PrintedOperand.argument) []
    rw [harguments, Diagnostics.bareBehind, Diagnostics.bare_nil, List.append_nil] at hrun
    exact hrun
  -- Behind nothing, the line is lowered to what is without places already.
  obtain ⟨hcode, hreports⟩ :=
    Prod.mk.inj (show (line.lowered.1, line.lowered.2) = _ from herases [])
  rw [hkind, herases, ← hcode]
  exact congrArg (fun reports => (line.lowered.1, front ++ reports)) hreports.symm

/-- A line that makes an instruction is lowered to that. -/
theorem lowered_eq {instruction : Instruction} (hrow : line.form ∈ Form.table)
    (hmakes : line.form.instruction? line.mnemonic .origin
      (line.operands.map PrintedOperand.argument) = pure (some instruction)) :
    line.instructions = [instruction] ∧ line.reports = [] := by
  have hlower : (Script.routine ⟨[], []⟩).lowerInstruction .origin line.mnemonic
      (line.operands.map PrintedOperand.argument) =
        pure ([instruction], line.form.opcode.endsControlFlow) := by
    have hkind : (line.form.opcode == .ret && (Script.routine ⟨[], []⟩).kind == .function) =
        false :=
      Bool.and_false _
    rw [Routine.lowerInstruction, mnemonic, Form.ofMnemonic?_mnemonic _ hrow]
    simp only [hkind]
    rw [← mnemonic, hmakes]
    rfl
  rw [instructions, reports, lowered, hlower]
  exact ⟨rfl, rfl⟩

/-- What the lines of a script are lowered to, one behind another. -/
theorem lowerStatements_script (hscope : scope.HasLabelsAlone) (script : Script)
    {lines : List PrintedLine} (hrows : ∀ line ∈ lines, line.form ∈ Form.table)
    (hknown : ∀ line ∈ lines, ∀ operand ∈ line.operands, operand.IsKnown scope)
    (code : CodeUnit) (ended : Bool) (front : Diagnostics) :
    ∃ finished, script.routine.lowerStatements code ended (lines.map statement) front =
      ((code.append (lines.flatMap instructions), finished), front ++ lines.flatMap reports) := by
  induction lines generalizing code ended front with
  | nil => exact ⟨ended, by simp [Routine.lowerStatements, CodeUnit.append]; rfl⟩
  | cons line rest ih =>
      obtain ⟨hrow, hrows⟩ := List.forall_mem_cons.mp hrows
      obtain ⟨hfirst, hothers⟩ := List.forall_mem_cons.mp hknown
      obtain ⟨finished, hrest⟩ := ih hrows hothers (code.append line.instructions)
        line.lowered.1.2 (front ++ line.reports)
      refine ⟨finished, ?_⟩
      have hline := lowerInstruction_script hscope hrow hfirst script front
      rw [List.map_cons, statement, Routine.lowerStatements]
      refine ((bind_run hline).trans hrest).trans ?_
      simp [CodeUnit.append]

end PrintedLine

namespace Script

/-- The code of a script. -/
def unit (script : Script) : CodeUnit :=
  ⟨.script, script.name, script.lines.flatMap PrintedLine.instructions,
    [⟨script.name, 0, .origin⟩]⟩

/-- A script is lowered to the code of its lines. -/
theorem lower_routine {scope : Scope} (hscope : scope.HasLabelsAlone) (script : Script)
    (hrows : ∀ line ∈ script.lines, line.form ∈ Form.table)
    (hknown : ∀ line ∈ script.lines, ∀ operand ∈ line.operands, operand.IsKnown scope) :
    script.routine.lower = (script.unit, script.lines.flatMap PrintedLine.reports) := by
  obtain ⟨finished, hlower⟩ := PrintedLine.lowerStatements_script hscope script hrows hknown
    ⟨.script, script.name, [], [⟨script.name, 0, .origin⟩]⟩ false []
  have hbody : script.routine.lowerStatements
      (((CodeUnit.empty script.routine.kind script.routine.name).placeLabel script.routine.name
        script.routine.span).append script.routine.prologue) false script.routine.statements [] =
          _ := hlower
  rw [Routine.lower, StateT.run, hbody]
  cases finished with
  | true => rfl
  | false => simp [CodeUnit.append, Routine.tail, routine, unit]

end Script

namespace ScriptText

variable {text : ScriptText} {scope : Scope}

/-- The lines of the scripts of a text are its instructions. -/
theorem mem_scripts {current : Option Script} {script : Script} {line : PrintedLine}
    (h : script ∈ text.scripts current) (hline : line ∈ script.lines) :
    (∃ opened ∈ current, line ∈ opened.lines) ∨
      ∃ remark, ScriptLine.instruction line remark ∈ text := by
  induction text generalizing current with
  | nil => exact .inl ⟨script, Option.mem_toList.mp h, hline⟩
  | cons first rest ih =>
      have hlater (h : ∃ remark, ScriptLine.instruction line remark ∈ rest) :
          ∃ remark, ScriptLine.instruction line remark ∈ first :: rest :=
        h.imp fun _ => List.mem_cons_of_mem _
      cases first with
      | comment => exact (ih h).imp_right hlater
      | label name =>
          rcases List.mem_append.mp h with h | h
          · exact .inl ⟨script, Option.mem_toList.mp h, hline⟩
          · refine .inr (hlater ((ih h).resolve_left ?_))
            rintro ⟨opened, hopened, hmem⟩
            cases hopened
            cases hmem
      | instruction other remark =>
          rcases ih h with ⟨_, hopened, hmem⟩ | h
          · obtain ⟨opened, rfl, rfl⟩ := Option.map_eq_some_iff.mp hopened
            rcases List.mem_append.mp hmem with hmem | hmem
            · exact .inl ⟨opened, rfl, hmem⟩
            · obtain rfl := List.mem_singleton.mp hmem
              exact .inr ⟨remark, List.mem_cons_self ..⟩
          · exact .inr (hlater h)

/-- The lines of the scripts of a text are rows of the table, and their names are known. -/
theorem scripts_known (h : text.IsLegible) (hknown : text.IsKnown scope) :
    ∀ script ∈ text.scripts none, ∀ line ∈ script.lines, line.form ∈ Form.table ∧
      ∀ operand ∈ line.operands, operand.IsKnown scope := by
  intro script hscript line hline
  obtain ⟨remark, hmem⟩ := (mem_scripts hscript hline).resolve_left (by rintro ⟨_, ⟨⟩, _⟩)
  exact ⟨(h _ hmem).1.row, hknown _ hmem⟩

/-- The scripts of a text are lowered to their code, whatever is reported about their lines. -/
theorem lower_scripts (hscope : scope.HasLabelsAlone) (h : text.IsLegible)
    (hknown : text.IsKnown scope) :
    ((text.scripts none).map Script.routine).map Routine.lower =
      (text.scripts none).map fun script =>
        (script.unit, script.lines.flatMap PrintedLine.reports) := by
  rw [List.map_map]
  refine List.map_congr_left fun script hscript => ?_
  have hlines := scripts_known h hknown script hscript
  exact script.lower_routine hscope (fun line hline => (hlines line hline).1)
    fun line hline => (hlines line hline).2

/-- What can be said of a text of scripts whose names are those of its labels. -/
structure IsSound (text : ScriptText) : Prop where
  legible : text.IsLegible
  distinct : text.labels.Nodup
  opened : text.IsOpened
  known : text.IsKnown (.ofLabels text.labels)

open Session

/-- The routines of a sound text are its scripts, and nothing is reported before they are
lowered. -/
theorem IsSound.routines (h : text.IsSound) :
    (wholeDeclarations text.shown).2 = [] ∧ (wholeRoutines text.shown).2 = [] ∧
      (wholeRoutines text.shown).1.map Routine.bare =
        (text.scripts none).map Script.routine := by
  obtain ⟨hscope, hdeclared⟩ := collect_shown h.legible h.distinct
  obtain ⟨hroutines, hresolved⟩ := @resolve_shown text (wholeDeclarations text.shown).1
    (Scope.labelsAlone_bare.mp (hscope ▸ Scope.labelsAlone_ofLabels _)) h.legible
    (isKnown_bare.mp (hscope ▸ h.known)) h.opened
  exact ⟨hdeclared, hresolved, hroutines⟩

theorem IsSound.lowered (h : text.IsSound) :
    ((wholeRoutines text.shown).1.map Routine.bare).map Routine.lower =
      (text.scripts none).map fun script =>
        (script.unit, script.lines.flatMap PrintedLine.reports) := by
  rw [h.routines.2.2, lower_scripts (Scope.labelsAlone_ofLabels _) h.legible h.known]

/-- A sound text is listed as the code of its scripts. -/
theorem IsSound.units_bare (h : text.IsSound) :
    (Listing.ofSource text.shown).units.map CodeUnit.bare =
      (text.scripts none).map Script.unit := by
  have hunits := congrArg (List.map Prod.fst) h.lowered
  rw [Listing.units_bare]
  simpa only [List.map_map, Function.comp_def] using hunits

/-- All that is reported about a sound text is what is reported about the operands of its
lines. -/
theorem IsSound.diagnostics_eq_nil_iff (h : text.IsSound) :
    (Listing.ofSource text.shown).diagnostics = [] ↔
      ∀ script ∈ text.scripts none, ∀ line ∈ script.lines, line.reports = [] := by
  have hlowered := congrArg (List.flatMap Prod.snd) h.lowered
  have hreports : Diagnostics.bare (Routine.reports (wholeRoutines text.shown).1) =
      (text.scripts none).flatMap fun script => script.lines.flatMap PrintedLine.reports := by
    rw [← Routine.reports_bare]
    simpa only [Routine.reports, List.flatMap_map] using hlowered
  rw [Listing.diagnostics_eq_nil_iff, ← @Diagnostics.bare_eq_nil_iff (Routine.reports _), hreports]
  simp [clean h.legible, h.routines.1, h.routines.2.1]

/-- A script with one line. -/
def ofLine (name : Bytes) (line : PrintedLine) : ScriptText :=
  [.label name, .instruction line []]

theorem shown_ofLine (name : Bytes) (line : PrintedLine) :
    (ofLine name line).shown = name ++ ascii ":\n    " ++ line.shown ++ ascii "\n" := by
  simp [ofLine, shown, ScriptLine.shown, indent, DisassemblyLine.remarkText, ascii]

theorem ofLine_legible {name : Bytes} {line : PrintedLine} (hname : IsLabelName name)
    (h : line.IsLegible) : (ofLine name line).IsLegible :=
  List.forall_mem_cons.mpr ⟨hname, List.forall_mem_singleton.mpr ⟨h, List.forall_mem_nil _⟩⟩

theorem ofLine_known {name : Bytes} {line : PrintedLine}
    (h : ∀ operand ∈ line.operands, operand.IsKnown scope) : (ofLine name line).IsKnown scope :=
  List.forall_mem_cons.mpr ⟨List.forall_mem_nil _, List.forall_mem_singleton.mpr h⟩

end ScriptText

end NovelAsm
