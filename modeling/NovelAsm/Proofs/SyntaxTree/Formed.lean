import NovelAsm.Resolve.Reading

/-!
Well-formed trees. A tree is well formed if each of its nodes stands where the grammar allows
nodes of its kind, and holds the tokens and as many nodes as it is read by. An error node
stands nowhere, so there is none below a well-formed node of another kind; and instructions
stand below a file, a function or a subroutine alone.
-/

namespace NovelAsm

namespace SyntaxKind

def isExpression : SyntaxKind → Bool
  | .literalExpr | .registerExpr | .nameExpr | .parenExpr | .unaryExpr | .binaryExpr
  | .callExpr => true
  | _ => false

/-- The lines of a body. -/
def isLine : SyntaxKind → Bool
  | .label | .instruction => true
  | _ => false

/-- The nodes that hold lines. -/
def holdsLines : SyntaxKind → Bool
  | .sourceFile | .functionDefinition | .subroutineDefinition => true
  | _ => false

def isItem (kind : SyntaxKind) : Bool :=
  kind.isLine || [functionDefinition, subroutineDefinition, definition].contains kind

def isOperand (kind : SyntaxKind) : Bool :=
  kind.isExpression || [flag, arrayLiteral, jumpTableBlock].contains kind

/-- The nodes that can stand directly below one of a kind. -/
def admits : SyntaxKind → SyntaxKind → Bool
  | .sourceFile => isItem
  | .functionDefinition => fun child =>
      child.isLine || [parameterList, preservedRangeList].contains child
  | .subroutineDefinition => isLine
  | .preservedRangeList => (· == .registerRange)
  | .instruction => (· == .argumentList)
  | .argumentList => isOperand
  | .jumpTableBlock => (· == .jumpTableEntry)
  | .definition | .jumpTableEntry | .arrayLiteral | .parenExpr | .unaryExpr | .binaryExpr
  | .callExpr => isExpression
  | _ => fun _ => false

theorem admits_error (kind : SyntaxKind) : kind.admits .error = false := by
  cases kind <;> rfl

/-- Below nodes that hold no lines are neither lines nor nodes that hold some. -/
theorem admits_of_holdsLines_eq_false {kind child : SyntaxKind} (h : kind.admits child = true)
    (hkind : kind.holdsLines = false) : child.holdsLines = false ∧ child ≠ .instruction := by
  cases child with
  | sourceFile | functionDefinition | subroutineDefinition | instruction =>
      revert h hkind
      cases kind <;> decide
  | _ => exact ⟨rfl, nofun⟩

/-- The nodes below a function or subroutine hold no lines. -/
theorem holdsLines_eq_false_of_admits {kind child : SyntaxKind} (h : kind.admits child = true)
    (hkind : kind ≠ .sourceFile) : child.holdsLines = false := by
  cases child with
  | sourceFile | functionDefinition | subroutineDefinition =>
      revert h hkind
      cases kind <;> decide
  | _ => rfl

end SyntaxKind

/-- A string is written without an error. -/
def Token.Readable (token : Token) : Prop :=
  token.kind = .stringLiteral → (Literal.string? token.text).isSome = true

namespace SyntaxTree

open Naming

/-- A node has what it is read by. -/
def Shaped (kind : SyntaxKind) (children : List SyntaxTree) : Prop :=
  let tree := SyntaxTree.node kind children
  match kind with
  | .literalExpr => ∃ token, tree.firstSignificant? = some token ∧ token.Readable
  | .registerExpr | .nameExpr => tree.firstSignificant?.isSome = true
  | .parenExpr | .definition => tree.childNodes.length = 1
  | .unaryExpr => (operator? tree).isSome = true ∧ tree.childNodes.length = 1
  | .binaryExpr =>
      ((operator? tree).bind binaryOperator?).isSome = true ∧ tree.childNodes.length = 2
  | .callExpr => (callee? tree).isSome = true
  | .flag => (tree.firstSignificant?.bind fun token => Flag.ofText? token.text).isSome = true
  | .jumpTableEntry => tree.childNodes.length = 2
  | _ => True

/-- Every node stands where nodes of its kind can, and has what it is read by. -/
inductive Formed : SyntaxTree → Prop
  | token (leaf : Token) : Formed (.token leaf)
  | node {kind : SyntaxKind} {children : List SyntaxTree} (hshaped : Shaped kind children)
      (hadmits : ∀ tree ∈ children, tree.kind?.all kind.admits = true)
      (hchildren : ∀ tree ∈ children, Formed tree) : Formed (.node kind children)

/-- Well-formed trees that are tokens or nodes of some kinds. -/
def AllFormed (allowed : SyntaxKind → Bool) (trees : List SyntaxTree) : Prop :=
  ∀ tree ∈ trees, tree.Formed ∧ tree.kind?.all allowed = true

/-- A well-formed node of one of some kinds. -/
def FormedAs (allowed : SyntaxKind → Bool) (tree : SyntaxTree) : Prop :=
  tree.Formed ∧ tree.kind?.any allowed = true

variable {allowed : SyntaxKind → Bool} {trees : List SyntaxTree} {tree : SyntaxTree}

/-- A node of well-formed trees. -/
theorem AllFormed.node {kind : SyntaxKind} (h : AllFormed kind.admits trees)
    (hshaped : Shaped kind trees) : (SyntaxTree.node kind trees).Formed :=
  .node hshaped (fun tree hmem => (h tree hmem).2) fun tree hmem => (h tree hmem).1

/-- The trees below a well-formed node. -/
theorem Formed.children {kind : SyntaxKind} (h : (SyntaxTree.node kind trees).Formed) :
    AllFormed kind.admits trees := by
  cases h with
  | node hshaped hadmits hchildren =>
      exact fun tree hmem => ⟨hchildren tree hmem, hadmits tree hmem⟩

theorem Formed.shaped {kind : SyntaxKind} (h : (SyntaxTree.node kind trees).Formed) :
    Shaped kind trees := by
  cases h with
  | node hshaped hadmits hchildren => exact hshaped

/-- The nodes among well-formed trees. -/
theorem AllFormed.formedAs (h : AllFormed allowed trees) (hmem : tree ∈ trees.filter isNode) :
    tree.FormedAs allowed := by
  obtain ⟨hmem, hnode⟩ := List.mem_filter.mp hmem
  obtain ⟨hformed, hkind⟩ := h tree hmem
  refine ⟨hformed, ?_⟩
  cases tree with
  | token leaf => cases hnode
  | node kind children => exact hkind

/-! ## The nodes of a kind -/

mutual

/-- The nodes of a kind in a tree, each before those below it. -/
def nodesOf (kind : SyntaxKind) : SyntaxTree → List SyntaxTree
  | .token _ => []
  | .node own children =>
      (if own = kind then [.node own children] else []) ++ nodesAmong kind children

/-- The nodes of a kind in neighbouring trees. -/
def nodesAmong (kind : SyntaxKind) : List SyntaxTree → List SyntaxTree
  | [] => []
  | tree :: rest => nodesOf kind tree ++ nodesAmong kind rest

end

variable {kind own : SyntaxKind}

theorem nodesAmong_eq_nil (h : ∀ tree ∈ trees, nodesOf kind tree = []) :
    nodesAmong kind trees = [] := by
  induction trees with
  | nil => simp only [nodesAmong]
  | cons tree rest ih =>
      obtain ⟨htree, hrest⟩ := List.forall_mem_cons.mp h
      rw [nodesAmong, htree, ih hrest, List.nil_append]

theorem nodesOf_of_ne (hne : own ≠ kind) :
    nodesOf kind (.node own trees) = nodesAmong kind trees := by
  rw [nodesOf, if_neg hne, List.nil_append]

/-- Below a well-formed node there is no error node. -/
theorem Formed.nodesOf_error (h : tree.Formed) (hkind : tree.kind? ≠ some .error) :
    nodesOf .error tree = [] := by
  induction h with
  | token leaf => simp only [nodesOf]
  | @node kind children hshaped hadmits hchildren ih =>
      rw [nodesOf_of_ne fun heq => hkind (congrArg some heq)]
      refine nodesAmong_eq_nil fun child hmem => ih child hmem fun herror => ?_
      have hchild := hadmits child hmem
      rw [herror, Option.all_some, SyntaxKind.admits_error] at hchild
      cases hchild

/-- Nodes that hold no lines hold no instructions. -/
theorem Formed.nodesOf_instruction (h : tree.Formed)
    (hkind : tree.kind?.all (fun kind => !kind.holdsLines && kind != .instruction) = true) :
    nodesOf .instruction tree = [] := by
  induction h with
  | token leaf => simp only [nodesOf]
  | @node kind children hshaped hadmits hchildren ih =>
      obtain ⟨hlines, hinstruction⟩ : kind.holdsLines = false ∧ kind ≠ .instruction := by
        simpa [kind?] using hkind
      rw [nodesOf_of_ne hinstruction]
      refine nodesAmong_eq_nil fun child hmem => ih child hmem ?_
      have hchild := hadmits child hmem
      revert hchild
      cases child.kind? with
      | none => exact fun _ => rfl
      | some inner =>
          intro hchild
          obtain ⟨hholds, hne⟩ := SyntaxKind.admits_of_holdsLines_eq_false hchild hlines
          simp [hholds, hne]

/-- An instruction holds no other. -/
theorem Formed.nodesOf_of_instruction (h : (SyntaxTree.node .instruction trees).Formed) :
    nodesOf .instruction (.node .instruction trees) = [.node .instruction trees] := by
  have hinside : nodesAmong .instruction trees = [] := by
    refine nodesAmong_eq_nil fun child hmem => ?_
    obtain ⟨hformed, hkind⟩ := h.children child hmem
    refine hformed.nodesOf_instruction ?_
    revert hkind
    cases child.kind? with
    | none => exact id
    | some inner =>
        intro hkind
        obtain rfl := beq_iff_eq.mp hkind
        rfl
  rw [nodesOf, hinside, if_pos rfl, List.append_nil]

/-- Outside of files, all instructions stand side by side. -/
theorem AllFormed.nodesAmong_instruction (h : AllFormed kind.admits trees)
    (hkind : kind ≠ .sourceFile) :
    nodesAmong .instruction trees = trees.filter (·.kind? == some .instruction) := by
  induction trees with
  | nil => simp only [nodesAmong, List.filter_nil]
  | cons tree rest ih =>
      obtain ⟨⟨hformed, hadmits⟩, hrest⟩ := List.forall_mem_cons.mp h
      rw [nodesAmong, ih hrest]
      cases tree with
      | token leaf => simp [nodesOf, kind?]
      | node own children =>
          by_cases hown : own = .instruction
          · subst hown
            rw [hformed.nodesOf_of_instruction]
            simp [kind?]
          · have hlines : own.holdsLines = false :=
              SyntaxKind.holdsLines_eq_false_of_admits hadmits hkind
            rw [hformed.nodesOf_instruction (by simp [kind?, hlines, hown])]
            simp [kind?, hown]

end SyntaxTree

end NovelAsm
