import NovelAsm.Proofs.Renaming.Expressions
import NovelAsm.Proofs.Resolve.Visible

/-!
Reading with other names. Where a name means what its other name means elsewhere, a tree stands for
an expression, and the tree with other names for the same one with other names.
-/

namespace NovelAsm

def Symbol.rename (names : Names) (symbol : Symbol) : Symbol :=
  { symbol with name := names.symbol symbol.name }

def Meaning.rename (names : Names) : Meaning → Meaning
  | .symbol found => .symbol (found.rename names)
  | meaning => meaning

def TableCase.rename (names : Names) (tableCase : TableCase) : TableCase :=
  { tableCase with key := tableCase.key.rename names, target := tableCase.target.rename names }

def Argument.rename (names : Names) : Argument → Argument
  | .expression span value => .expression span (value.rename names)
  | .flag span name => .flag span name
  | .array span elements => .array span (elements.map (Expr.rename names))
  | .jumpTable span cases => .jumpTable span (cases.map (TableCase.rename names))

namespace Naming

variable {σ : Type} {size : σ → Nat} {names : Names} {known : Bytes → Prop}
  {naming other : Naming σ}

/-- Names mean what their other names mean elsewhere, and registers too, as far as they are
known. -/
structure Renames (size : σ → Nat) (names : Names) (known : Bytes → Prop)
    (naming other : Naming σ) : Prop where
  base : other.base = naming.base
  loud : ∀ diagnostic state, size state < size (naming.report diagnostic state)
  meaning : ∀ name span, Follows size (Meaning.rename names) (naming.meaning name span)
    (other.meaning (names.symbol name) span)
  register : ∀ name span, known name →
    Follows size id (naming.register? name span) (other.register? (names.register name) span)

/-- All that is written in a tree is known. -/
def AllKnown (known : Bytes → Prop) (tree : SyntaxTree) : Prop :=
  ∀ leaf ∈ tree.leaves, known leaf.text

theorem AllKnown.child {kind : SyntaxKind} {children : List SyntaxTree} {child : SyntaxTree}
    (h : AllKnown known (.node kind children)) (hchild : child ∈ children) : AllKnown known child :=
  fun leaf hleaf => h leaf (SyntaxTree.mem_leaves_of_mem_children hchild hleaf)

theorem Renames.behind_complain (h : Renames size names known naming other) {α β : Type}
    {result : α → β} {value : α} {otherStep : StateM σ β} (problem : NameProblem) (span : Span) :
    Follows size result (naming.complain problem span >>= fun _ => pure value) otherStep :=
  Follows.behind (h.loud _) fun _ _ => le_rfl

theorem Renames.spanOf (h : Renames size names known naming other) (tree : SyntaxTree)
    (parent : SyntaxKind) : other.spanOf (tree.recast names.token parent) = naming.spanOf tree := by
  rw [Naming.spanOf, SyntaxTree.span_recast, h.base, Naming.spanOf]

theorem operator?_recast {kind : SyntaxKind} (children : List SyntaxTree) :
    operator? (.node kind (SyntaxTree.recastAll names.token kind children)) =
      operator? (.node kind children) := by
  rw [operator?, SyntaxTree.tokens_recast, List.find?_map, Option.map_map, operator?]
  rfl

theorem callee?_recast (children : List SyntaxTree) :
    callee? (.node .callExpr (SyntaxTree.recastAll names.token .callExpr children)) =
      callee? (.node .callExpr children) := by
  rw [callee?, SyntaxTree.firstToken?_recast, Option.map_map, callee?]
  rfl

theorem readLiteral_follows (h : Renames size names known naming other) (token : Token)
    (span : Span) : Follows size (Expr.rename names) (naming.readLiteral token span)
      (other.readLiteral token span) := by
  simp only [readLiteral]
  split
  · cases Literal.string? token.text with
    | none => exact .pure rfl
    | some text => exact .pure rfl
  · cases Literal.real? token.text with
    | none => exact h.behind_complain _ span
    | some scaled => exact .pure rfl
  · cases Literal.integer? token.text with
    | none => exact h.behind_complain _ span
    | some value => exact .pure rfl

theorem readName_follows (h : Renames size names known naming other) (name : Bytes) (span : Span) :
    Follows size (Expr.rename names) (naming.readName name span)
      (other.readName (names.symbol name) span) := by
  refine (h.meaning name span).bind fun meaning => ?_
  cases meaning with
  | value | broken | symbol => exact .pure rfl
  | undefined => exact h.behind_complain _ span

theorem readRegister_follows (h : Renames size names known naming other) {name : Bytes}
    (hname : known name) (span : Span) :
    Follows size (Expr.rename names) (naming.readRegister name span)
      (other.readRegister (names.register name) span) := by
  refine (h.register name span hname).bind fun register => ?_
  cases register <;> exact .pure rfl

mutual

theorem read_follows (h : Renames size names known naming other) :
    ∀ (tree : SyntaxTree) (parent : SyntaxKind), tree.Formed → AllKnown known tree →
      Follows size (Expr.rename names) (naming.read tree)
        (other.read (tree.recast names.token parent))
  | .token leaf, parent, _, _ => by
      simp only [SyntaxTree.recast_token, read, h.base]
      exact .pure rfl
  | .node kind children, parent, hformed, hknown => by
      have hall := readAll_follows h children kind hformed.children fun child hchild =>
        hknown.child hchild
      have hspan := h.spanOf (.node kind children) parent
      have herror (span : Span) :
          Follows size (Expr.rename names) (pure (.error span) : StateM σ Expr)
          (pure (.error span)) := .pure rfl
      rw [SyntaxTree.recast_node] at hspan ⊢
      simp only [read, hspan, operator?_recast]
      cases kind with
      | literalExpr =>
          obtain ⟨token, hfirst, -⟩ := hformed.shaped
          have hheaded := hformed.headed rfl (hfirst ▸ rfl)
          have hsame := @Names.token_of_isNameless names .literalExpr rfl token
          simp only [SyntaxTree.firstSignificant?_recast names hheaded, hfirst,
            Option.map_some, hsame]
          exact readLiteral_follows h token _
      | registerExpr =>
          obtain ⟨token, hfirst⟩ := Option.isSome_iff_exists.mp hformed.shaped
          have hheaded := hformed.headed rfl hformed.shaped
          simp only [SyntaxTree.firstSignificant?_recast names hheaded, hfirst, Option.map_some]
          exact readRegister_follows h (hknown token (List.mem_of_find?_eq_some hfirst)) _
      | nameExpr =>
          obtain ⟨token, hfirst⟩ := Option.isSome_iff_exists.mp hformed.shaped
          have hheaded := hformed.headed rfl hformed.shaped
          simp only [SyntaxTree.firstSignificant?_recast names hheaded, hfirst, Option.map_some]
          exact readName_follows h token.text _
      | parenExpr =>
          refine hall.map fun values => ?_
          cases values <;> rfl
      | unaryExpr =>
          refine hall.bind fun values => ?_
          cases operator? (.node .unaryExpr children) with
          | none => exact herror _
          | some operator =>
              cases values with
              | nil => exact herror _
              | cons operand rest => exact .pure rfl
      | binaryExpr =>
          refine hall.bind fun values => ?_
          cases (operator? (.node .binaryExpr children)).bind binaryOperator? with
          | none => exact herror _
          | some operator =>
              match values with
              | [left, right] => exact .pure rfl
              | [] | [_] | _ :: _ :: _ :: _ => exact herror _
      | callExpr =>
          simp only [callee?_recast]
          cases callee? (.node .callExpr children) with
          | none => exact herror _
          | some callee =>
              obtain ⟨name, intrinsic⟩ := callee
              cases intrinsic with
              | none => exact h.behind_complain _ _
              | some intrinsic =>
                  exact hall.map fun values => by rw [Expr.rename, Expr.renameAll_eq]
      | _ => exact herror _

theorem readAll_follows (h : Renames size names known naming other) {allowed : SyntaxKind → Bool} :
    ∀ (trees : List SyntaxTree) (parent : SyntaxKind), SyntaxTree.AllFormed allowed trees →
      (∀ tree ∈ trees, AllKnown known tree) →
        Follows size (List.map (Expr.rename names)) (naming.readAll trees)
          (other.readAll (SyntaxTree.recastAll names.token parent trees))
  | [], _, _, _ => by
      simp only [SyntaxTree.recastAll_nil, readAll]
      exact .pure rfl
  | .token leaf :: rest, parent, hformed, hknown => by
      simp only [SyntaxTree.recastAll_cons, SyntaxTree.recast_token, readAll]
      exact readAll_follows h rest parent (List.forall_mem_cons.mp hformed).2
        (List.forall_mem_cons.mp hknown).2
  | .node kind children :: rest, parent, hformed, hknown => by
      obtain ⟨hfirst, hrest⟩ := List.forall_mem_cons.mp hformed
      obtain ⟨hfirstKnown, hrestKnown⟩ := List.forall_mem_cons.mp hknown
      have hread := read_follows h (.node kind children) parent hfirst.1 hfirstKnown
      simp only [SyntaxTree.recastAll_cons, SyntaxTree.recast_node, readAll] at hread ⊢
      exact hread.bind fun value => (readAll_follows h rest parent hrest hrestKnown).map
        fun values => rfl

end

theorem readCase_follows (h : Renames size names known naming other) {entry : SyntaxTree}
    (hformed : entry.FormedAs (· == .jumpTableEntry)) (hknown : AllKnown known entry)
    (parent : SyntaxKind) :
    Follows size (TableCase.rename names) (naming.readCase entry)
      (other.readCase (entry.recast names.token parent)) := by
  cases entry with
  | token leaf => cases hformed.2
  | node kind children =>
      have hall := readAll_follows h children kind hformed.1.children fun child hchild =>
        hknown.child hchild
      simp only [readCase, h.spanOf]
      refine hall.map fun parts => ?_
      rcases parts with _ | ⟨first, _ | ⟨second, more⟩⟩ <;> rfl

/-- An operand with other names. -/
theorem readArgument_follows (h : Renames size names known naming other) {tree : SyntaxTree}
    (hformed : tree.FormedAs SyntaxKind.isOperand) (hknown : AllKnown known tree)
    (parent : SyntaxKind) :
    Follows size (Argument.rename names) (naming.readArgument tree)
      (other.readArgument (tree.recast names.token parent)) := by
  cases tree with
  | token leaf => cases hformed.2
  | node kind children =>
      have hread := read_follows h (.node kind children) parent hformed.1 hknown
      have hall := readAll_follows h children kind hformed.1.children fun child hchild =>
        hknown.child hchild
      simp only [readArgument, h.spanOf, SyntaxTree.kind?_recast]
      split
      · rename_i hkind
        cases hkind
        obtain ⟨flag, hflag⟩ := Option.isSome_iff_exists.mp hformed.1.shaped
        obtain ⟨token, htoken, -⟩ := Option.bind_eq_some_iff.mp hflag
        have hheaded := hformed.1.headed rfl (htoken ▸ rfl)
        have hsame := @Names.token_of_isNameless names .flag rfl token
        simp only [SyntaxTree.recast_node,
          SyntaxTree.firstSignificant?_recast names hheaded, htoken, Option.map_some, hsame]
        cases (some token).bind fun token => Flag.ofText? token.text <;> exact .pure rfl
      · exact hall.map fun values => rfl
      · rename_i hkind
        cases hkind
        have hcases : Follows size (List.map (TableCase.rename names))
            ((SyntaxTree.node .jumpTableBlock children).childNodes.mapM naming.readCase)
            ((SyntaxTree.node .jumpTableBlock (SyntaxTree.recastAll names.token .jumpTableBlock
              children)).childNodes.mapM other.readCase) := by
          rw [SyntaxTree.childNodes_recast, SyntaxTree.recastAll_eq_map]
          refine Follows.mapM fun entry hentry => readCase_follows h ?_ ?_ _
          · exact hformed.1.children.formedAs hentry
          · exact hknown.child (List.mem_filter.mp hentry).1
        exact hcases.map fun values => rfl
      · exact hread.map fun value => rfl

end Naming

end NovelAsm
