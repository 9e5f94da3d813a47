import NovelAsm.Proofs.Disassembly.Instructions
import NovelAsm.Proofs.Erasure.Routines

/-!
Reading printed operands. The tree of an operand stands for the operand that it was printed from;
where it stands makes no difference, so places are left out here. Names have to be labels that
the scope knows, and nothing else has to be known.
-/

namespace NovelAsm

open Lexed NovelAsm.Parser

/-- The expression for an integer. -/
def numeralExpr : Int → Expr
  | .ofNat n => .literal .origin ⟨Int32.ofInt n, .integer⟩
  | .negSucc n =>
      .unary .origin .negate (.literal .origin ⟨Int32.ofInt ((n + 1 : Nat) : Int), .integer⟩)

def Number.expr : Number → Expr
  | .constant value => numeralExpr value.toInt
  | .register source => .register .origin source source.name

def Place.expr : Place → Expr
  | .symbol name => .codeAddress .origin name .label 0
  | .address value => .literal .origin ⟨Int32.ofInt value.toNat, .integer⟩

/-- The expression for an operator with its operands in the order in which they are written. -/
def Operator.exprOf (operator : Operator) (operands : List Expr) : Expr :=
  match operator.fixity, operands with
  | .call name, operands =>
      match Intrinsic.ofName? (ascii name) with
      | some intrinsic => .call .origin intrinsic operands
      | none => .error .origin
  | .before _, [operand] => .unary .origin (Naming.unaryOperator operator.tokenKind) operand
  | .between _, [left, right] =>
      match Naming.binaryOperator? operator.tokenKind with
      | some written => .binary .origin written left right
      | none => .error .origin
  | _, _ => .error .origin

def Formula.expr : Formula → Expr
  | .number value => value.expr
  | .unary operator _ operand => operator.exprOf [operand.expr]
  | .binary operator _ left right => operator.exprOf [left.expr, right.expr]
  | .select whenFalse whenTrue condition =>
      Operator.select.exprOf [condition.expr, whenTrue.expr, whenFalse.expr]

namespace PrintedOperand

def tableCase (entry : Int × Place) : TableCase := ⟨numeralExpr entry.1, entry.2.expr, .origin⟩

/-- What the tree of an operand stands for. -/
def argument : PrintedOperand → Argument
  | .number value => .expression .origin value.expr
  | .register source => .expression .origin (.register .origin source source.name)
  | .unsigned value => .expression .origin (.literal .origin ⟨Int32.ofInt value.toNat, .integer⟩)
  | .rawByte value => .expression .origin (.literal .origin ⟨Int32.ofInt value.toNat, .integer⟩)
  | .text value => .expression .origin (.string .origin value)
  | .place value => .expression .origin value.expr
  | .array values => .array .origin (values.map Number.expr)
  | .table cases => .jumpTable .origin (cases.map tableCase)
  | .formula value => .expression .origin value.expr
  | .flag name => .flag .origin name

end PrintedOperand

/-- A scope that knows labels alone. -/
structure Scope.HasLabelsAlone (scope : Scope) : Prop where
  values : scope.values = .empty
  registers : scope.registers = .empty

/-- A place whose name, if it has one, is a label of a scope. -/
def Place.IsKnown (scope : Scope) (place : Place) : Prop :=
  ∀ name, place = .symbol name →
    (scope.findSymbol? name).map Symbol.bare = some ⟨name, .label, 0, .origin⟩

/-- Whether a tree is a node for an expression. -/
def SyntaxTree.isExpression (tree : SyntaxTree) : Bool :=
  match tree.kind? with
  | some .literalExpr | some .registerExpr | some .nameExpr | some .parenExpr | some .unaryExpr
  | some .binaryExpr | some .callExpr => true
  | _ => false

theorem SyntaxTree.isNode_of_isExpression {tree : SyntaxTree} (h : tree.isExpression = true) :
    tree.isNode = true := by
  cases tree with
  | token leaf => cases h
  | node kind children => rfl

namespace Naming

variable {σ : Type}

/-- A node that is read as an expression, wherever its parts stand. -/
def Reads (naming : Naming σ) (tree : SyntaxTree) (expr : Expr) : Prop :=
  tree.isExpression = true ∧ ∃ found : Expr, naming.read tree = pure found ∧ found.bare = expr

/-- Trees of which those that are no tokens are read as expressions. -/
def ReadsAll (naming : Naming σ) (trees : List SyntaxTree) (exprs : List Expr) : Prop :=
  ∃ found : List Expr, naming.readAll trees = pure found ∧ found.map Expr.bare = exprs

variable {naming : Naming σ} {tree : SyntaxTree} {expr : Expr}

theorem ReadsAll.nil : naming.ReadsAll [] [] := ⟨[], by rw [readAll], rfl⟩

theorem ReadsAll.token {trees : List SyntaxTree} {exprs : List Expr} (token : Token)
    (h : naming.ReadsAll trees exprs) : naming.ReadsAll (.token token :: trees) exprs := by
  obtain ⟨found, hfound, hbare⟩ := h
  exact ⟨found, by rw [readAll, hfound], hbare⟩

theorem ReadsAll.cons {trees : List SyntaxTree} {exprs : List Expr} (h : naming.Reads tree expr)
    (hrest : naming.ReadsAll trees exprs) : naming.ReadsAll (tree :: trees) (expr :: exprs) := by
  obtain ⟨hnode, first, hfirst, rfl⟩ := h
  obtain ⟨found, hfound, rfl⟩ := hrest
  cases tree with
  | token token => cases hnode
  | node kind children => exact ⟨first :: found, by rw [readAll, hfirst, hfound]; rfl, rfl⟩

/-- The items of a list, with the commas between them and what closes the list. -/
theorem readsAll_list {trees : List SyntaxTree} {exprs : List Expr} (closing : Token)
    (h : List.Forall₂ naming.Reads trees exprs) :
    naming.ReadsAll (commaTrees (trees.map ([·])) ++ [.token closing]) exprs := by
  induction h with
  | nil => exact ReadsAll.nil.token closing
  | @cons tree expr rest exprs hfirst hrest ih =>
      cases rest with
      | nil =>
          cases hrest
          exact ReadsAll.cons hfirst (ReadsAll.nil.token closing)
      | cons second rest =>
          rw [List.map_cons, List.map_cons, commaTrees_cons_cons, List.append_assoc]
          exact ReadsAll.cons hfirst (ih.token commaToken)

theorem readLiteral_integer {text : Bytes} {value : Nat}
    (h : Literal.integer? text = some value) (span : Span) :
    naming.readLiteral (leaf .integerLiteral text) span =
      pure (.literal span ⟨Int32.ofInt value, .integer⟩) := by
  simp only [readLiteral, leaf, h]

theorem readLiteral_string (text : Bytes) (span : Span) :
    naming.readLiteral (leaf .stringLiteral (Literal.quote text)) span =
      pure (.string span text) := by
  simp only [readLiteral, leaf, Literal.string?_quote]

/-- A kind of token that counts: neither trivia nor a line end nor the end of a text. -/
def IsCounted (kind : TokenKind) : Prop :=
  kind.isTrivia = false ∧ kind ≠ .newline ∧ kind ≠ .endOfFile

theorem isSignificant_leaf {kind : TokenKind} (h : IsCounted kind) (text : Bytes) :
    (leaf kind text).isSignificant = true := by
  simp [Token.isSignificant, Token.isTrivia, leaf, h.1, h.2.2]

theorem text_leaf (kind : TokenKind) (text : Bytes) : (leaf kind text).text = text := rfl

theorem firstSignificant?_leaf {kind : TokenKind} (h : IsCounted kind) (node : SyntaxKind)
    (text : Bytes) :
    (SyntaxTree.node node [.token (leaf kind text)]).firstSignificant? = some (leaf kind text) := by
  simp [SyntaxTree.firstSignificant?, SyntaxTree.leaves, SyntaxTree.leavesOf, isSignificant_leaf h]

theorem reads_integer {text : Bytes} {value : Nat} (h : Literal.integer? text = some value) :
    naming.Reads (.node .literalExpr [.token (leaf .integerLiteral text)])
      (.literal .origin ⟨Int32.ofInt value, .integer⟩) := by
  refine ⟨rfl, ?_⟩
  rw [read]
  simp only [@firstSignificant?_leaf .integerLiteral ⟨rfl, by decide, by decide⟩,
    readLiteral_integer h]
  exact ⟨_, rfl, rfl⟩

theorem reads_string (text : Bytes) :
    naming.Reads (.node .literalExpr [.token (leaf .stringLiteral (Literal.quote text))])
      (.string .origin text) := by
  refine ⟨rfl, ?_⟩
  rw [read]
  simp only [@firstSignificant?_leaf .stringLiteral ⟨rfl, by decide, by decide⟩, readLiteral_string]
  exact ⟨_, rfl, rfl⟩

theorem Reads.parenthesized (h : naming.Reads tree expr) :
    naming.Reads (.node .parenExpr [.token leftParen, tree, .token rightParen]) expr := by
  obtain ⟨found, hfound, hbare⟩ :=
    (ReadsAll.cons h (ReadsAll.nil.token rightParen)).token leftParen
  cases found with
  | nil => cases hbare
  | cons first rest =>
      refine ⟨rfl, first, ?_, (List.cons.inj hbare).1⟩
      rw [read]
      simp only [hfound]
      rfl

theorem Reads.signed {kind : TokenKind} (hkind : IsSign kind) (text : Bytes)
    (h : naming.Reads tree expr) : naming.Reads (.node .unaryExpr [.token (leaf kind text), tree])
      (.unary .origin (unaryOperator kind) expr) := by
  have hoperator : operator? (.node .unaryExpr [.token (leaf kind text), tree]) = some kind := by
    rcases hkind with rfl | rfl | rfl <;> rfl
  obtain ⟨found, hfound, hbare⟩ := (ReadsAll.cons h ReadsAll.nil).token (leaf kind text)
  obtain ⟨first, rfl, rfl⟩ : ∃ first, found = [first] ∧ first.bare = expr := by
    cases found with
    | nil => cases hbare
    | cons first rest =>
        obtain ⟨hfirst, hrest⟩ := List.cons.inj hbare
        exact ⟨first, by rw [List.map_eq_nil_iff.mp hrest], hfirst⟩
  refine ⟨rfl, ?_⟩
  rw [read]
  simp only [hoperator, hfound]
  exact ⟨_, rfl, rfl⟩

theorem exists_pair_of_map_bare {found : List Expr} {left right : Expr}
    (h : found.map Expr.bare = [left, right]) :
    ∃ first second, found = [first, second] ∧ first.bare = left ∧ second.bare = right := by
  have hlength : found.length = 2 := (List.length_map Expr.bare).symm.trans (congrArg List.length h)
  obtain ⟨first, second, rfl⟩ := List.length_eq_two.mp hlength
  simp only [List.map_cons, List.map_nil, List.cons.injEq, and_true] at h
  exact ⟨first, second, rfl, h⟩

theorem isCounted_of_binaryOperator? {kind : TokenKind} {written : BinaryOperator}
    (h : binaryOperator? kind = some written) : IsCounted kind := by
  cases kind <;> first | cases h | exact ⟨rfl, by simp, by simp⟩

theorem Reads.between {kind : TokenKind} {written : BinaryOperator}
    (hkind : binaryOperator? kind = some written) (text : Bytes) {left right : SyntaxTree}
    {first second : Expr} (hleft : naming.Reads left first) (hright : naming.Reads right second) :
    naming.Reads (.node .binaryExpr [left, .token (leaf kind text), right])
      (.binary .origin written first second) := by
  have hoperator : operator? (.node .binaryExpr [left, .token (leaf kind text), right]) =
      some kind := by
    have hcounted := isCounted_of_binaryOperator? hkind
    rw [operator?, SyntaxTree.tokens_node_cons _ (SyntaxTree.isNode_of_isExpression hleft.1),
       SyntaxTree.tokens_token_cons,
      if_pos (isSignificant_leaf hcounted text),
        List.find?_cons_of_pos (by simp [leaf, hcounted.2.1])]
    rfl
  obtain ⟨found, hfound, hbare⟩ :=
    ReadsAll.cons hleft ((ReadsAll.cons hright ReadsAll.nil).token (leaf kind text))
  obtain ⟨a, b, rfl, rfl, rfl⟩ := exists_pair_of_map_bare hbare
  refine ⟨rfl, ?_⟩
  rw [read]
  simp only [hoperator, Option.bind_some, hkind, hfound]
  exact ⟨_, rfl, rfl⟩

theorem Reads.call {name : String} {intrinsic : Intrinsic}
    (hname : Intrinsic.ofName? (ascii name) = some intrinsic) {trees : List SyntaxTree}
    {exprs : List Expr} (h : List.Forall₂ naming.Reads trees exprs) :
    naming.Reads (Formula.callTree name trees) (.call .origin intrinsic exprs) := by
  have hcallee : callee? (Formula.callTree name trees) = some (ascii name, some intrinsic) := by
    have hcounted : IsCounted .identifier := ⟨rfl, by decide, by decide⟩
    rw [callee?, Formula.callTree, SyntaxTree.firstToken?, SyntaxTree.tokens_token_cons,
      if_pos (isSignificant_leaf hcounted _), List.find?_cons_of_pos (by rfl), Option.map_some]
    exact congrArg some (congrArg _ hname)
  obtain ⟨found, hfound, rfl⟩ := ((readsAll_list rightParen h).token leftParen).token
    (leaf .identifier (ascii name))
  refine ⟨rfl, ?_⟩
  rw [Formula.callTree] at hcallee ⊢
  rw [read]
  simp only [hcallee, hfound]
  exact ⟨_, rfl, by rw [Expr.bare, Expr.bareAll_eq]⟩

end Naming

namespace Naming

variable {σ : Type} {naming : Naming σ}

theorem reads_numeral {value : Int}
    (h : value.natAbs ≤ Literal.integerLimit) :
    naming.Reads (numeralTree value) (numeralExpr value) := by
  cases value with
  | ofNat n => exact reads_integer (Literal.integer?_decimal h)
  | negSucc n => exact (reads_integer (Literal.integer?_decimal h)).signed (.inl rfl) _

theorem Reads.wrapped {tree : SyntaxTree} {expr : Expr}
    (h : naming.Reads tree expr) (compound : Bool) :
    naming.Reads (Formula.wrapTree compound tree) expr := by
  cases compound with
  | false => exact h
  | true => exact h.parenthesized

end Naming

theorem Operator.exists_intrinsic {operator : Operator} {name : String}
    (h : operator.fixity = .call name) :
    ∃ intrinsic, Intrinsic.ofName? (ascii name) = some intrinsic := by
  cases operator <;> cases h <;> exact ⟨_, rfl⟩

theorem Operator.exists_written {operator : Operator} {spelling : String}
    (h : operator.fixity = .between spelling) :
    ∃ written, Naming.binaryOperator? operator.tokenKind = some written := by
  cases operator <;> cases h <;> exact ⟨_, rfl⟩

section Known

open Naming

variable {scope : Scope} (hscope : scope.HasLabelsAlone)

include hscope

theorem Naming.reads_register (source : Register) :
    (Routine.naming scope []).Reads (.node .registerExpr [.token (leaf .register source.name)])
      (.register .origin source source.name) := by
  have hnone : scope.findRegister? source.name = none := by
    rw [Scope.findRegister?, hscope.registers]
    rfl
  have hnamed : Routine.registerNamed? scope [] source.name = some source := by
    simp [Routine.registerNamed?, Aliases.lookup?, hnone, Register.parse?_name]
  have hread (span : Span) : (Routine.naming scope []).readRegister source.name span =
      pure (.register span source source.name) := by
    simp only [readRegister, Routine.naming, hnamed, pure_bind]
  refine ⟨rfl, ?_⟩
  rw [read]
  simp only [@firstSignificant?_leaf .register ⟨rfl, by decide, by decide⟩, text_leaf, hread]
  exact ⟨_, rfl, rfl⟩

theorem Naming.reads_name {name : Bytes} (h : (Place.symbol name).IsKnown scope) :
    (Routine.naming scope []).Reads (.node .nameExpr [.token (leaf .identifier name)])
      (.codeAddress .origin name .label 0) := by
  obtain ⟨symbol, hsymbol, hbare⟩ := Option.map_eq_some_iff.mp (h name rfl)
  have hnone : scope.findValue? name = none := by
    rw [Scope.findValue?, hscope.values]
    rfl
  have hread (span : Span) : (Routine.naming scope []).readName name span =
      pure (.codeAddress span symbol.name symbol.kind symbol.parameterCount) := by
    simp only [readName, Routine.naming, hnone, hsymbol, pure_bind]
  refine ⟨rfl, ?_⟩
  rw [read]
  simp only [@firstSignificant?_leaf .identifier ⟨rfl, by decide, by decide⟩, text_leaf, hread]
  refine ⟨_, rfl, ?_⟩
  rw [Expr.bare]
  cases symbol
  cases hbare
  rfl

theorem Number.reads (value : Number) : (Routine.naming scope []).Reads value.tree value.expr := by
  cases value with
  | constant value =>
      refine reads_numeral ?_
      have := value.toInt_lt
      have := value.le_toInt
      rw [Literal.integerLimit]
      omega
  | register source => exact reads_register hscope source

theorem Place.reads {place : Place} (h : place.IsKnown scope) :
    (Routine.naming scope []).Reads place.tree place.expr := by
  cases place with
  | symbol name => exact reads_name hscope h
  | address value =>
      have := value.toNat_lt
      exact reads_integer (Literal.integer?_hex 0 (by rw [Literal.integerLimit]; omega))

/-- The tree of a printed formula stands for the formula. -/
theorem Formula.reads (formula : Formula) :
    (Routine.naming scope []).Reads formula.tree formula.expr := by
  induction formula with
  | number value => exact value.reads hscope
  | unary operator arity operand ih =>
      rcases operator.fixity_of_arity_one arity with ⟨name, hname⟩ | ⟨spelling, hspelling⟩
      · obtain ⟨intrinsic, hintrinsic⟩ := operator.exists_intrinsic hname
        simp only [tree, expr, Operator.exprOf, hname, hintrinsic]
        exact Reads.call hintrinsic (.cons ih .nil)
      · simp only [tree, expr, Operator.exprOf, hspelling]
        exact (ih.wrapped _).signed (operator.before_prefixes hspelling).2 _
  | binary operator arity left right ihLeft ihRight =>
      rcases operator.fixity_of_arity_two arity with ⟨name, hname⟩ | ⟨spelling, hspelling⟩
      · obtain ⟨intrinsic, hintrinsic⟩ := operator.exists_intrinsic hname
        simp only [tree, expr, Operator.exprOf, hname, hintrinsic]
        exact Reads.call hintrinsic (.cons ihLeft (.cons ihRight .nil))
      · obtain ⟨written, hwritten⟩ := operator.exists_written hspelling
        simp only [tree, expr, Operator.exprOf, hspelling, hwritten]
        exact Reads.between hwritten _ (ihLeft.wrapped _) (ihRight.wrapped _)
  | select whenFalse whenTrue condition ihFalse ihTrue ihCondition =>
      exact Reads.call rfl (.cons ihCondition (.cons ihTrue (.cons ihFalse .nil)))

end Known

/-- An operand whose names are labels of a scope. -/
def PrintedOperand.IsKnown (scope : Scope) : PrintedOperand → Prop
  | .place value => value.IsKnown scope
  | .table cases => ∀ entry ∈ cases,
      entry.1.natAbs ≤ Literal.integerLimit ∧ entry.2.IsKnown scope
  | _ => True

theorem exists_mapM {σ α β γ : Type} {step : α → StateM σ β} {change : β → γ} {items : List α}
    {results : List γ}
    (h : List.Forall₂ (fun item result => ∃ found, step item = pure found ∧ change found = result)
      items results) :
    ∃ found, items.mapM step = pure found ∧ found.map change = results := by
  induction h with
  | nil => exact ⟨[], by rw [List.mapM_nil], rfl⟩
  | cons hfirst _ ih =>
      obtain ⟨first, hfirst, rfl⟩ := hfirst
      obtain ⟨found, hfound, rfl⟩ := ih
      exact ⟨first :: found, by rw [List.mapM_cons, hfirst, hfound, pure_bind, pure_bind], rfl⟩

theorem filter_commaTrees {trees : List SyntaxTree} (h : ∀ tree ∈ trees, tree.isNode = true) :
    (commaTrees (trees.map ([·]))).filter SyntaxTree.isNode = trees := by
  induction trees with
  | nil => rfl
  | cons first rest ih =>
      rw [List.forall_mem_cons] at h
      cases rest with
      | nil => exact List.filter_cons_of_pos h.1
      | cons second rest =>
          rw [List.map_cons, List.map_cons, commaTrees_cons_cons, List.append_assoc,
            List.singleton_append, List.filter_cons_of_pos h.1, List.singleton_append,
            List.filter_cons_of_neg (by exact Bool.false_ne_true)]
          exact congrArg (first :: ·) (ih h.2)

namespace PrintedOperand

open Naming

variable {scope : Scope} {operand : PrintedOperand}

theorem readsCase (hscope : scope.HasLabelsAlone) {entry : Int × Place}
    (hkey : entry.1.natAbs ≤ Literal.integerLimit) (hplace : entry.2.IsKnown scope) :
    ∃ found, (Routine.naming scope []).readCase (caseTree entry) = pure found ∧
      found.bare = tableCase entry := by
  obtain ⟨found, hfound, hbare⟩ := ReadsAll.cons (reads_numeral hkey)
    ((ReadsAll.cons (entry.2.reads hscope hplace) ReadsAll.nil).token arrow)
  obtain ⟨key, destination, rfl, hkey, hdestination⟩ := exists_pair_of_map_bare hbare
  have hread : (Routine.naming scope []).readCase (caseTree entry) =
      pure ⟨key, destination, (Routine.naming scope []).spanOf (caseTree entry)⟩ := by
    rw [readCase, caseTree, SyntaxTree.children, hfound]
    rfl
  exact ⟨_, hread, by rw [TableCase.bare, hkey, hdestination]; rfl⟩

theorem reads_expression {naming : Naming Diagnostics} {tree : SyntaxTree} {expr : Expr}
    (h : naming.Reads tree expr) :
    ∃ found, naming.readArgument tree = pure found ∧ found.bare = .expression .origin expr := by
  obtain ⟨hkind, value, hvalue, rfl⟩ := h
  have hread : naming.readArgument tree = pure (.expression (naming.spanOf tree) value) := by
    rw [SyntaxTree.isExpression] at hkind
    rw [readArgument]
    split <;> first | (simp only [*] at hkind; cases hkind) | (rw [hvalue]; rfl)
  exact ⟨_, hread, rfl⟩

/-- The tree of an operand stands for the operand. -/
theorem readsArgument (hscope : scope.HasLabelsAlone) (h : operand.IsKnown scope) :
    ∃ found, (Routine.naming scope []).readArgument operand.tree = pure found ∧
      found.bare = operand.argument := by
  cases operand with
  | number value => exact reads_expression (value.reads hscope)
  | register source => exact reads_expression (Naming.reads_register hscope source)
  | unsigned value =>
      have := value.toNat_lt
      exact reads_expression (reads_integer
        (Literal.integer?_decimal (by rw [Literal.integerLimit]; omega)))
  | rawByte value =>
      have := value.toNat_lt
      exact reads_expression (reads_integer
        (Literal.integer?_hex 2 (by rw [Literal.integerLimit]; omega)))
  | text value => exact reads_expression (reads_string value)
  | place value => exact reads_expression (value.reads hscope h)
  | formula value => exact reads_expression (value.reads hscope)
  | array values =>
      have hvalues : List.Forall₂ (Routine.naming scope []).Reads (values.map Number.tree)
          (values.map Number.expr) := List.forall₂_map_left_iff.mpr
        (List.forall₂_map_right_iff.mpr (List.forall₂_same.mpr fun value _ => value.reads hscope))
      obtain ⟨found, hfound, hbare⟩ := (readsAll_list rightBracket hvalues).token leftBracket
      have hread : (Routine.naming scope []).readArgument (PrintedOperand.array values).tree =
          pure (.array ((Routine.naming scope []).spanOf (PrintedOperand.array values).tree)
            found) := by
        rw [readArgument, tree]
        simp only [SyntaxTree.kind?, SyntaxTree.children, hfound]
        rfl
      exact ⟨_, hread, congrArg (Argument.array .origin) hbare⟩
  | table cases =>
      have hnodes : (SyntaxTree.node .jumpTableBlock (.token leftBrace ::
          (commaTrees ((cases.map caseTree).map ([·])) ++ [.token rightBrace]))).childNodes =
            cases.map caseTree := by
        have hinner := @filter_commaTrees (cases.map caseTree)
          (List.forall_mem_map.mpr fun _ _ => rfl)
        rw [SyntaxTree.childNodes, SyntaxTree.children, List.filter_cons_of_neg
          (by exact Bool.false_ne_true), List.filter_append, hinner]
        exact List.append_nil _
      obtain ⟨found, hfound, hbare⟩ := exists_mapM (List.forall₂_map_left_iff.mpr
        (List.forall₂_map_right_iff.mpr (List.forall₂_same.mpr fun entry hentry =>
          readsCase hscope (h entry hentry).1 (h entry hentry).2)))
      have hread : (Routine.naming scope []).readArgument (PrintedOperand.table cases).tree =
          pure (.jumpTable ((Routine.naming scope []).spanOf (PrintedOperand.table cases).tree)
            found) := by
        rw [readArgument, tree]
        simp only [SyntaxTree.kind?, hnodes, hfound]
        rfl
      exact ⟨_, hread, congrArg (Argument.jumpTable .origin) hbare⟩
  | flag name =>
      cases name <;> exact ⟨_, rfl, rfl⟩

theorem isNode_tree (operand : PrintedOperand) : operand.tree.isNode = true := by
  have hscope : Scope.empty.HasLabelsAlone := ⟨rfl, rfl⟩
  cases operand with
  | number value => exact SyntaxTree.isNode_of_isExpression (value.reads hscope).1
  | place value => cases value <;> rfl
  | formula value => exact SyntaxTree.isNode_of_isExpression (value.reads hscope).1
  | _ => rfl

end PrintedOperand

namespace PrintedLine

open Naming

variable {scope : Scope} {line : PrintedLine}

/-- The statement that a printed line stands for. -/
def statement (line : PrintedLine) : Statement :=
  .instruction .origin line.mnemonic (line.operands.map PrintedOperand.argument)

theorem childNodes_operands (operands : List PrintedOperand) :
    (SyntaxTree.node .argumentList
      (commaTrees (operands.map fun operand => [operand.tree]))).childNodes =
        operands.map PrintedOperand.tree := by
  have hnodes := @filter_commaTrees (operands.map PrintedOperand.tree)
    (List.forall_mem_map.mpr fun operand _ => operand.isNode_tree)
  rw [List.map_map] at hnodes
  exact hnodes

theorem tree_cases (line : PrintedLine) :
    line.tree = .node .instruction [.token line.word] ∧ line.operands = [] ∨
      line.tree = .node .instruction [.token line.word,
        .node .argumentList (commaTrees (line.operands.map fun operand => [operand.tree]))] := by
  rw [tree]
  cases line.operands with
  | nil => exact .inl ⟨rfl, rfl⟩
  | cons first rest => exact .inr rfl

/-- The tree of a line stands for its instruction. -/
theorem readsInstruction (hscope : scope.HasLabelsAlone) (hrow : line.form ∈ Form.table)
    (h : ∀ operand ∈ line.operands, operand.IsKnown scope) :
    ∃ found, Routine.readInstruction scope [] line.tree = pure found ∧
      found.bare = line.statement := by
  have hcounted : IsCounted (wordKind line.mnemonic) := by
    rcases (isWord_mnemonic _ hrow).2 with hkind | hkind | hkind <;>
      · rw [mnemonic, hkind]
        exact ⟨rfl, by decide, by decide⟩
  have hfirst (trees : List SyntaxTree) :
      (SyntaxTree.node .instruction (.token line.word :: trees)).firstSignificant? =
        some line.word := by
    rw [SyntaxTree.firstSignificant?, SyntaxTree.leaves, SyntaxTree.leavesOf, SyntaxTree.leaves]
    exact List.find?_cons_of_pos (isSignificant_leaf hcounted _)
  have harguments : List.Forall₂
      (fun tree argument => ∃ found, (Routine.naming scope []).readArgument tree = pure found ∧
        found.bare = argument)
      (line.operands.map PrintedOperand.tree) (line.operands.map PrintedOperand.argument) :=
    List.forall₂_map_left_iff.mpr (List.forall₂_map_right_iff.mpr
      (List.forall₂_same.mpr fun operand hoperand =>
        operand.readsArgument hscope (h operand hoperand)))
  obtain ⟨found, hfound, hbare⟩ := exists_mapM harguments
  have hread : Routine.readInstruction scope [] line.tree =
      pure (.instruction line.tree.span line.mnemonic found) := by
    rcases line.tree_cases with ⟨htree, hnone⟩ | htree
    · rw [hnone] at hbare
      rw [List.map_eq_nil_iff.mp hbare, htree, Routine.readInstruction, hfirst]
      rfl
    · have hlist (word : Token) (list : List SyntaxTree) :
          (SyntaxTree.node .instruction [.token word, .node .argumentList list]).firstChild?
            .argumentList = some (.node .argumentList list) := rfl
      rw [htree, Routine.readInstruction, hfirst, hlist]
      simp only [childNodes_operands, hfound]
      rfl
  exact ⟨_, hread, by rw [Statement.bare, hbare]; rfl⟩

end PrintedLine

end NovelAsm
