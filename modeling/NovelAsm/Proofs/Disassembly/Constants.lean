import NovelAsm.Proofs.Disassembly.Expressions
import NovelAsm.Proofs.NameMap

/-!
Printed constants and what is read back from them. A constant below zero is written as a minus sign
before the number that it negates, so the least one of all is written with a number that is no
constant of its sign: it wraps to the least one itself, whose negation overflows. Every other
constant comes back, from the operand of an instruction and from a definition
(`Listing.ofSource_constant`).
-/

namespace NovelAsm

open Lexed NovelAsm.Parser

namespace Number

/-- The one constant that is not folded back to itself is the least. -/
theorem isWritable_constant_iff {value : Int32} :
    (Number.constant value).IsWritable ↔ value ≠ Int32.minValue := by
  have hle := value.le_toInt
  have hleast : Int32.minValue.toInt = -0x80000000 := by decide
  rw [IsWritable, ne_eq, ← Int32.toInt_inj, hleast]
  omega

end Number

theorem compute_least : ((numeralExpr Int32.minValue.toInt).compute []).2 ≠ [] :=
  List.cons_ne_nil _ _

/-- The text of a constant is folded without a report, unless it is the least one. -/
theorem compute_numeral_iff {value : Int32} :
    ((numeralExpr value.toInt).compute []).2 = [] ↔ value ≠ Int32.minValue := by
  constructor
  · rintro h rfl
    exact compute_least h
  · intro h
    rw [compute_numeral (Number.isWritable_constant_iff.mpr h)]
    rfl

/-- What a constant is evaluated to where it has to be one. -/
theorem evaluate_numeral {value : Int32} (h : value ≠ Int32.minValue) :
    (numeralExpr value.toInt).evaluate = pure (some ⟨value, .integer⟩) := by
  rw [Expr.evaluate, compute_numeral (Number.isWritable_constant_iff.mpr h)]
  rfl

theorem evaluate_least : ((numeralExpr Int32.minValue.toInt).evaluate []).2 ≠ [] :=
  List.cons_ne_nil _ _

theorem evaluate_numeral_iff {value : Int32} :
    ((numeralExpr value.toInt).evaluate []).2 = [] ↔ value ≠ Int32.minValue := by
  constructor
  · rintro h rfl
    exact evaluate_least h
  · intro h
    rw [evaluate_numeral h]
    rfl

theorem isError_numeral (value : Int) : (numeralExpr value).isError = false := by
  cases value <;> rfl

namespace PrintedLine

/-- The slots of a line that computes an expression take a register, and the terms of the expression
if it has any. -/
theorem fill_compute (target : Register) (expr : Expr) :
    Slot.fill [] .origin [.register, .expression]
        [.expression .origin (.register .origin target target.name), .expression .origin expr] =
      expr.toTerms >>= fun terms => pure (terms.map fun terms =>
        [⟨.register target, .origin⟩, ⟨.expression terms, expr.span⟩]) := by
  have hfirst : Argument.toOperand .register
      (.expression .origin (.register .origin target target.name)) =
        pure (some ⟨.register target, .origin⟩) := rfl
  have hsecond : Argument.toOperand .expression (.expression .origin expr) =
      expr.toTerms >>= fun terms => pure (terms.map fun terms =>
        ⟨.expression terms, expr.span⟩) := rfl
  simp only [Slot.fill, Slot.isList, Bool.false_eq_true, if_false, hfirst, hsecond, pure_bind,
    bind_assoc]
  refine congrArg (expr.toTerms >>= ·) (funext fun terms => ?_)
  cases terms <;> rfl

/-- The instruction of a line that computes an expression, if it has terms. -/
theorem instruction?_compute (mnemonic : Bytes) (target : Register) (expr : Expr) :
    Form.compute.instruction? mnemonic .origin
        [.expression .origin (.register .origin target target.name), .expression .origin expr] =
      expr.toTerms >>= fun terms => pure (terms.map fun terms =>
        ⟨Form.compute.opcode, 0,
          [⟨.register target, .origin⟩, ⟨.expression terms, expr.span⟩], .origin⟩) := by
  have hoperands : Form.compute.operands mnemonic [] .origin
      [.expression .origin (.register .origin target target.name), .expression .origin expr] =
        Slot.fill [] .origin [.register, .expression]
          [.expression .origin (.register .origin target target.name), .expression .origin expr] >>=
            fun operands => pure (operands.map fun operands => (0, operands)) := rfl
  have hflags : Statement.checkFlags .compute mnemonic [] true (Statement.flagsOf
      [.expression .origin (.register .origin target target.name), .expression .origin expr]) =
        pure (some []) := rfl
  have hpositional : Statement.positionalOf
      [.expression .origin (.register .origin target target.name), .expression .origin expr] =
        [.expression .origin (.register .origin target target.name), .expression .origin expr] :=
          rfl
  have hcall : (Form.compute.opcode == Opcode.call) = false := rfl
  simp only [Form.instruction?, hflags, hpositional, hoperands, fill_compute, hcall, pure_bind,
    bind_assoc]
  refine congrArg (expr.toTerms >>= ·) (funext fun terms => ?_)
  cases terms <;> rfl

/-- All that is reported about a line that computes an expression is reported about that. -/
theorem reports_compute (target : Register) (formula : Formula) :
    (compute target formula).reports = (formula.expr.compute []).2 := by
  have hmnemonic : Form.ofMnemonic? (compute target formula).mnemonic = some .compute :=
    Form.ofMnemonic?_mnemonic _ Form.compute_mem
  have harguments : (compute target formula).operands.map PrintedOperand.argument =
      [.expression .origin (.register .origin target target.name),
        .expression .origin formula.expr] := rfl
  rw [PrintedLine.reports, lowered, Routine.lowerInstruction, hmnemonic]
  simp only [harguments, instruction?_compute]
  rfl

end PrintedLine

/-- A script that computes a constant, as that is printed. -/
def Number.computed (name : Bytes) (target : Register) (value : Int32) : Bytes :=
  name ++ ascii ":\n    exp " ++ target.name ++ ascii ", " ++ (constant value).text ++ ascii "\n"

/-- A definition by a constant, as that is printed. -/
def Number.defined (name : Bytes) (value : Int32) : Bytes :=
  ascii "def " ++ name ++ ascii " = " ++ (constant value).text ++ ascii "\n"

namespace Listing

open Session PrintedLine

variable {name : Bytes} {target : Register} {value : Int32}

theorem shown_constant (name : Bytes) (target : Register) (value : Int32) :
    (ScriptText.ofLine name (compute target (.number (.constant value)))).shown =
      Number.computed name target value := by
  have htext : (Formula.number (.constant value)).fragment.text =
      (Number.constant value).text := rfl
  rw [ScriptText.shown_ofLine, PrintedLine.shown_compute, htext, Number.computed]
  simp [ascii]

theorem constant_sound (hname : IsLabelName name) (target : Register) (value : Int32) :
    (ScriptText.ofLine name (compute target (.number (.constant value)))).IsSound :=
  compute_sound hname
    { row := Form.compute_mem
      operands := List.forall_mem_cons.mpr ⟨trivial, List.forall_mem_singleton.mpr trivial⟩
      flagsLast := List.pairwise_pair.mpr (Bool.le_refl false) }

theorem computed_diagnostics (hname : IsLabelName name) (target : Register) (value : Int32) :
    (ofSource (Number.computed name target value)).diagnostics = [] ↔ value ≠ Int32.minValue := by
  have hscripts : (ScriptText.ofLine name
      (compute target (.number (.constant value)))).scripts none =
      [⟨name, [compute target (.number (.constant value))]⟩] := rfl
  have hexpr : (Formula.number (.constant value)).expr = numeralExpr value.toInt := rfl
  rw [← shown_constant, (constant_sound hname target value).diagnostics_eq_nil_iff, hscripts,
    List.forall_mem_singleton, List.forall_mem_singleton, reports_compute, hexpr,
    compute_numeral_iff]

/-- The operand of the script comes to the constant. -/
theorem computed_operand (hname : IsLabelName name) (target : Register)
    (h : value ≠ Int32.minValue) :
    ∃ routine span destination place expr,
      (wholeRoutines (Number.computed name target value)).1 = [routine] ∧
      routine.statements = [.instruction span (ascii "exp") [destination, .expression place expr]] ∧
      (expr.compute.run []).1.kind = .integer ∧
      (expr.compute.run []).1.outcome = .constant value ∧ (expr.compute.run []).2 = [] := by
  have hroutines := (constant_sound hname target value).routines.2.2
  rw [shown_constant] at hroutines
  obtain ⟨routine, hroutine, hbare⟩ := List.map_eq_singleton_iff.mp hroutines
  obtain ⟨span, destination, place, expr, hstatement, hexpr⟩ :=
    Statement.exists_of_bare (congrArg Routine.statements hbare)
  have hrun := @Expr.compute_erases [] expr []
  rw [hexpr, show (Formula.number (.constant value)).expr = numeralExpr value.toInt from rfl,
    compute_numeral (Number.isWritable_constant_iff.mpr h)] at hrun
  obtain ⟨hvalue, hreports⟩ := Prod.mk.inj hrun
  obtain ⟨hkind, houtcome, -⟩ := Computation.mk.inj hvalue
  exact ⟨routine, span, destination, place, expr, hroutine, hstatement, hkind.symm, houtcome.symm,
    List.map_eq_nil_iff.mp hreports.symm⟩

end Listing

/-! ### Definitions -/

namespace Parser

/-- A definition by a value on a line of its own. -/
theorem Yields.definition {word name equals : Token} {tokens rest : List Token} {tree : SyntaxTree}
    (hword : word.kind = .keyword .definition) (hname : name.kind = .identifier)
    (hequals : equals.kind = .mark .equals) (h : Entire tokens tree)
    (hrest : Begins .newline 0 rest) :
    Yields Parser.item 0 (word :: name :: equals :: tokens) rest
      [.node .definition [.token word, .token name, .token equals, tree]] () := by
  have hlead {token : Token} (htrivia : token.kind.isTrivia = false) (hline : token.kind ≠ .newline)
      (more : List Token) := @begins_cons 0 token htrivia hline more
  have hfirst :=
    hlead (by rw [hword]; rfl) (by rw [hword]; decide) (name :: equals :: tokens ++ rest)
  have hsecond := hlead (by rw [hname]; rfl) (by rw [hname]; decide) (equals :: tokens ++ rest)
  have hthird := hlead (by rw [hequals]; rfl) (by rw [hequals]; decide) (tokens ++ rest)
  have hnamed : Yields definedName 0 [name] (equals :: tokens ++ rest) [.token name] () := by
    refine Yields.peekKind (hname ▸ hsecond) ?_
    exact Yields.bump hsecond
  have hvalue : Yields (when true expression) 0 tokens rest [tree] () :=
    h.yields_expression hrest ⟨rfl, by decide⟩
  have hequal : Yields (Parser.expect (.mark .equals) .missingEquals) 0 [equals] (tokens ++ rest)
      [.token equals] true := hequals ▸ Yields.expect .missingEquals hthird
  have htail : Yields (do
      when (← Parser.expect (.mark .equals) .missingEquals) expression
      Parser.lineEnd) 0 ([equals] ++ tokens) rest ([.token equals] ++ [tree]) () :=
    hequal.bind (hvalue.follow (Yields.lineEnd hrest))
  have hdefinition : Yields Parser.definition 0 ([word] ++ ([name] ++ ([equals] ++ tokens))) rest
      [.node .definition ([.token word] ++ ([.token name] ++ ([.token equals] ++ [tree])))] () :=
    Yields.node ((Yields.bump hfirst).bind (hnamed.bind htail)) .definition
  refine Yields.peekKind (hword ▸ hfirst) ?_
  exact hdefinition

end Parser

/-- What a name of a definition is: no reserved word. -/
structure IsDefinedName (name : Bytes) : Prop where
  word : isWord name = true
  kind : wordKind name = .identifier

namespace Number

/-- The tree of a definition by a constant. -/
def definedTree (name : Bytes) (value : Int32) : SyntaxTree :=
  .node .definition [.token (leaf (.keyword .definition) (ascii "def")),
    .token (leaf .identifier name), .token (leaf (.mark .equals) (ascii "=")),
    numeralTree value.toInt]

variable {name : Bytes} {value : Int32}

theorem equals_separates : Separates (ascii "=") (.mark .equals) := Operator.separates_mark rfl

/-- A definition is one item and the end of its line. -/
theorem items_defined (hname : IsDefinedName name) (value : Int32) :
    Flawless 0 (defined name value) ∧
      Items (tokensOf (defined name value)) [definedTree name value, .token lineFeed] := by
  have hword : Prints (ascii "def") [leaf (.keyword .definition) (ascii "def")] :=
    prints_of_isWord rfl
  have hsides := equals_separates.prints (prints_of_isWord hname.word)
    (prints_signedDecimal value.toInt)
  rw [hname.kind] at hsides
  have hcuts := (hword.cuts.append cuts_blank blank_stops).append hsides.cuts
    (hsides.heads.mono fun _ => ink_of_solid)
  obtain ⟨htokens, hflawless⟩ := hcuts (ascii "\n") (heads_cons (by decide) _)
  have htext : ascii "def" ++ ascii " " ++ (name ++ (ascii " " ++ ascii "=" ++ ascii " ") ++
      signedDecimal value.toInt) ++ ascii "\n" = defined name value := by
    simp [defined, text, ascii]
  rw [htext] at htokens hflawless
  have hclean : Flawless 0 (defined name value) := hflawless.mpr cuts_lineFeed.2
  have hproper := ParsedSource.tokensOf_proper hclean
  rw [htokens, cuts_lineFeed.1] at hproper ⊢
  have hyields := @Yields.definition (leaf (.keyword .definition) (ascii "def"))
    (leaf .identifier name) (leaf (.mark .equals) (ascii "=")) _ _ _ rfl rfl rfl
    (primary_numeral value.toInt).whole (begins_lineFeed [])
  exact ⟨hclean, .item (hyields.takesItem hproper rfl) (.newline rfl .nil)⟩

theorem coreAll_defined (hname : IsDefinedName name) (value : Int32) :
    (ParsedSource.read (defined name value) .origin).diagnostics = [] ∧
      SyntaxTree.coreAll (ParsedSource.read (defined name value) .origin).tree.children =
        [definedTree name value, .token lineFeed] := by
  obtain ⟨hflawless, hitems⟩ := items_defined hname value
  have hclean : (ParsedSource.read (defined name value) .origin).diagnostics = [] :=
    (ParsedSource.diagnostics_eq_nil_iff _ _).mpr ⟨hflawless, _, hitems⟩
  exact ⟨hclean, Items.unique (ParsedSource.items_of_diagnostics hclean) hitems
    (ParsedSource.tokensOf_proper hflawless)⟩

/-- The definition that is recorded, without its place. -/
def definition (name : Bytes) (value : Int32) : Definition :=
  ⟨name, false, some (numeralTree value.toInt), .origin, .origin⟩

theorem ofItems_defined (name : Bytes) (value : Int32) :
    Declarations.ofItems [definedTree name value, .token lineFeed] =
      ⟨.empty, [definition name value], []⟩ := by
  have htokens : (definedTree name value).tokens = [leaf (.keyword .definition) (ascii "def"),
      leaf .identifier name, leaf (.mark .equals) (ascii "=")] := by
    rw [definedTree]
    cases value.toInt <;> rfl
  have hvalue : (definedTree name value).childNodes.head? = some (numeralTree value.toInt) := by
    rw [definedTree]
    cases value.toInt <;> rfl
  have hitem : Declarations.ofItems [definedTree name value, .token lineFeed] =
      Declarations.empty.recordDefinition .origin (definedTree name value) := rfl
  have hregister : (TokenKind.identifier == TokenKind.register) = false := by decide
  rw [hitem, Declarations.recordDefinition, htokens]
  simp only [hvalue, leaf, hregister, Span.rebase_origin]
  rfl

/-- A definition by a tree that is read as an expression is evaluated to that. -/
theorem evaluateTree_of_reads {naming : Naming Evaluation} {tree : SyntaxTree} {expr : Expr}
    (h : naming.Reads tree expr) (herror : expr.isError = false) :
    ∃ reports, Definition.evaluateTree naming tree .empty =
        ((expr.evaluate []).1, { Evaluation.empty with diagnostics := reports }) ∧
      Diagnostics.bare reports = (expr.evaluate []).2 := by
  obtain ⟨-, found, hfound, rfl⟩ := h
  rw [Expr.isError_bare] at herror
  have hrun : found.bare.evaluate [] =
      ((found.evaluate []).1, Diagnostics.bare (found.evaluate []).2) :=
    @Expr.evaluate_erases [] found []
  refine ⟨(found.evaluate []).2, ?_, by rw [hrun]⟩
  rw [Definition.evaluateTree, hfound, pure_bind, herror, if_neg Bool.false_ne_true, hrun]
  rfl

/-- The value of a definition by a constant. -/
theorem valueOf_definition (name : Bytes) (value : Int32) :
    ∃ reports, (definition name value).valueOf [definition name value] .empty 2 [] .origin .empty =
        (((numeralExpr value.toInt).evaluate []).1,
          ⟨NameMap.empty.insertNew name ((numeralExpr value.toInt).evaluate []).1, .empty,
            reports⟩) ∧
      Diagnostics.bare reports = ((numeralExpr value.toInt).evaluate []).2 := by
  let names := Definition.naming [definition name value] .empty .origin
    (Definition.valueOf [definition name value] .empty 1 [name])
  have hreads : names.Reads (numeralTree value.toInt) (numeralExpr value.toInt) := by
    refine Naming.reads_numeral ?_
    have hbounds := Operator.bounds_toInt value
    rw [Literal.integerLimit]
    omega
  obtain ⟨reports, hvalue, hreports⟩ := evaluateTree_of_reads hreads (isError_numeral _)
  refine ⟨reports, ?_, hreports⟩
  have hrun : (definition name value).valueOf [definition name value] .empty 2 [] .origin .empty =
      (let found := Definition.evaluateTree names (numeralTree value.toInt) .empty
       (found.1, { found.2 with values := found.2.values.insertNew name found.1 })) := rfl
  rw [hrun, hvalue]
  rfl

theorem defineAll_definition (name : Bytes) (value : Int32) :
    ∃ reports, (⟨.empty, [definition name value], []⟩ : Declarations).reportClashes.defineAll =
        (((numeralExpr value.toInt).evaluate []).1.elim Scope.empty (Scope.empty.defineValue name),
          reports) ∧
      Diagnostics.bare reports = ((numeralExpr value.toInt).evaluate []).2 := by
  obtain ⟨reports, hvalue, hreports⟩ := valueOf_definition name value
  refine ⟨reports, ?_, hreports⟩
  have hclashes : (⟨.empty, [definition name value], []⟩ : Declarations).reportClashes =
      ⟨.empty, [definition name value], []⟩ := rfl
  have hdefine (found : Option Value) (state : Evaluation)
      (h : (definition name value).valueOf [definition name value] .empty 2 [] .origin .empty =
        (found, state)) :
      (⟨.empty, [definition name value], []⟩ : Declarations).define .empty (definition name value)
        .empty = (found.elim Scope.empty (Scope.empty.defineValue name), state) := by
    refine (bind_run h).trans ?_
    cases found <;> rfl
  rw [hclashes, Declarations.defineAll]
  simp only [List.foldlM_cons, List.foldlM_nil, bind_pure, StateT.run, hdefine _ _ hvalue]
  rfl

/-- The scope of a text that is a definition by a constant, and what is reported about that. -/
theorem collect_definition {tree : SyntaxTree} {name : Bytes} {value : Int32}
    (h : SyntaxTree.coreAll tree.children = [definedTree name value, .token lineFeed]) :
    let found := Declarations.collect [⟨tree, .origin⟩]
    found.1.bare = ((numeralExpr value.toInt).evaluate []).1.elim Scope.empty
        (Scope.empty.defineValue name) ∧
      (found.2 = [] ↔ ((numeralExpr value.toInt).evaluate []).2 = []) := by
  intro found
  have hbare := Declarations.collect_bare [⟨tree, .origin⟩]
  obtain ⟨reports, hdefined, hreports⟩ := defineAll_definition name value
  rw [List.flatMap_singleton, h, ofItems_defined, hdefined] at hbare
  obtain ⟨hscope, rfl⟩ := Prod.mk.inj hbare
  refine ⟨hscope, ?_⟩
  rw [← hreports, Diagnostics.bare_eq_nil_iff, Diagnostics.bare_eq_nil_iff]

/-- A definition makes no routine. -/
theorem resolve_definition {tree : SyntaxTree} {name : Bytes} {value : Int32}
    (h : SyntaxTree.coreAll tree.children = [definedTree name value, .token lineFeed])
    (scope : Scope) : Routine.resolve scope tree = ([], []) := by
  have hcore := @Routine.readItems_core scope [] tree
  rw [h] at hcore
  obtain ⟨hroutines, hreports⟩ := Prod.mk.inj hcore
  exact Prod.ext (List.map_eq_nil_iff.mp hroutines.symm) (List.map_eq_nil_iff.mp hreports.symm)

end Number

namespace Listing

open Session

variable {name : Bytes} {value : Int32}

theorem defined_diagnostics (hname : IsDefinedName name) (value : Int32) :
    (ofSource (Number.defined name value)).diagnostics = [] ↔ value ≠ Int32.minValue := by
  obtain ⟨hclean, hcore⟩ := Number.coreAll_defined hname value
  have hdeclared := (Number.collect_definition hcore).2
  rw [diagnostics_eq_nil_iff, hclean, wholeRoutines, Number.resolve_definition hcore,
    wholeDeclarations, hdeclared, evaluate_numeral_iff]
  exact ⟨fun h => h.2.1, fun h => ⟨rfl, h, rfl, rfl⟩⟩

/-- The name of a definition by a constant stands for that. -/
theorem defined_value (hname : IsDefinedName name) (h : value ≠ Int32.minValue) :
    (wholeDeclarations (Number.defined name value)).1.findValue? name = some ⟨value, .integer⟩ := by
  have hscope := (Number.collect_definition (Number.coreAll_defined hname value).2).1
  rw [evaluate_numeral h] at hscope
  rw [← Scope.findValue?_bare, wholeDeclarations, hscope]
  exact (NameMap.find?_insertNew NameMap.sorted_empty name name _).trans (by rw [if_pos rfl]; rfl)

/-- A printed constant reads back unless it is the least one, whose text is refused. In the operand
of an instruction it comes to the constant, an integer; as the value of a definition its name stands
for that. -/
theorem ofSource_constant (value : Int32) :
    (∀ name target, IsLabelName name →
      let source := Number.computed name target value
      ((ofSource source).diagnostics = [] ↔ value ≠ Int32.minValue) ∧
      (value ≠ Int32.minValue → ∃ routine span destination place expr,
        (wholeRoutines source).1 = [routine] ∧
        routine.statements =
          [.instruction span (ascii "exp") [destination, .expression place expr]] ∧
        (expr.compute.run []).1.kind = .integer ∧
        (expr.compute.run []).1.outcome = .constant value ∧ (expr.compute.run []).2 = [])) ∧
    (∀ name, IsDefinedName name →
      let source := Number.defined name value
      ((ofSource source).diagnostics = [] ↔ value ≠ Int32.minValue) ∧
      (value ≠ Int32.minValue →
        (wholeDeclarations source).1.findValue? name = some ⟨value, .integer⟩)) :=
  ⟨fun _ target hname => ⟨computed_diagnostics hname target value, computed_operand hname target⟩,
    fun _ hname => ⟨defined_diagnostics hname value, defined_value hname⟩⟩

theorem ofSource_constant_above_least :
    IsLabelName (ascii "A") ∧ IsDefinedName (ascii "N") ∧ (-2147483647 : Int32) ≠ Int32.minValue ∧
      (ofSource (Number.computed (ascii "A") (.value 0) (-2147483647))).diagnostics = [] ∧
      (ofSource (Number.defined (ascii "N") (-2147483647))).diagnostics = [] ∧
      (wholeDeclarations (Number.defined (ascii "N") (-2147483647))).1.findValue? (ascii "N") =
        some ⟨-2147483647, .integer⟩ := by
  have hlabel : IsLabelName (ascii "A") := ⟨by decide, by decide, by decide⟩
  have hdefined : IsDefinedName (ascii "N") := ⟨by decide, by decide⟩
  have hvalue : (-2147483647 : Int32) ≠ Int32.minValue := by decide
  obtain ⟨hcomputed, hdefinition⟩ := ofSource_constant (-2147483647)
  exact ⟨hlabel, hdefined, hvalue, (hcomputed _ (.value 0) hlabel).1.mpr hvalue,
    (hdefinition _ hdefined).1.mpr hvalue, (hdefinition _ hdefined).2 hvalue⟩

/-- The least constant is written `-2147483648`, and that is refused. -/
theorem ofSource_least_constant :
    Number.computed (ascii "A") (.value 0) Int32.minValue =
        ascii "A:\n    exp $v0, -2147483648\n" ∧
      ¬∀ value name target, IsLabelName name →
        (ofSource (Number.computed name target value)).diagnostics = [] := by
  refine ⟨by decide +kernel, fun h => ?_⟩
  have hlabel : IsLabelName (ascii "A") := ⟨by decide, by decide, by decide⟩
  exact (computed_diagnostics hlabel (.value 0) Int32.minValue).mp (h _ _ _ hlabel) rfl

end Listing

end NovelAsm
