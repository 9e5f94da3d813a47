import Mathlib
import NovelAsm.SyntaxTree

/-!
The core of a syntax tree: its nodes and significant tokens, with no places. Two texts
that are laid out differently, or one text read at two places, can have trees of one
core, and everything the assembler makes of a tree except the places in its messages
depends on the core alone.
-/

namespace NovelAsm

namespace Token

/-- A token without its place. -/
def bare (token : Token) : Token := { token with span := .origin }

@[simp] theorem kind_bare (token : Token) : token.bare.kind = token.kind := rfl

@[simp] theorem text_bare (token : Token) : token.bare.text = token.text := rfl

@[simp] theorem span_bare (token : Token) : token.bare.span = .origin := rfl

@[simp] theorem isSignificant_bare (token : Token) :
    token.bare.isSignificant = token.isSignificant := rfl

@[simp] theorem bare_bare (token : Token) : token.bare.bare = token.bare := rfl

theorem kind_of_bare {token other : Token} (h : token.bare = other.bare) :
    token.kind = other.kind := by
  rw [← kind_bare, h, kind_bare]

theorem text_of_bare {token other : Token} (h : token.bare = other.bare) :
    token.text = other.text := by
  rw [← text_bare, h, text_bare]

end Token

namespace SyntaxTree

mutual

/-- A tree without insignificant tokens and without places. -/
def core : SyntaxTree → SyntaxTree
  | .token leaf => .token leaf.bare
  | .node kind children => .node kind (coreAll children)

/-- Neighbouring trees without insignificant tokens and without places. -/
def coreAll : List SyntaxTree → List SyntaxTree
  | [] => []
  | .token leaf :: rest =>
      if leaf.isSignificant then .token leaf.bare :: coreAll rest else coreAll rest
  | .node kind children :: rest => .node kind (coreAll children) :: coreAll rest

end

@[simp] theorem core_node (kind : SyntaxKind) (children : List SyntaxTree) :
    (SyntaxTree.node kind children).core = .node kind (coreAll children) := by
  simp only [core]

theorem coreAll_append (trees more : List SyntaxTree) :
    coreAll (trees ++ more) = coreAll trees ++ coreAll more := by
  induction trees with
  | nil => simp [coreAll]
  | cons tree rest ih =>
      cases tree with
      | token leaf =>
          simp only [List.cons_append, coreAll, ih]
          split <;> rfl
      | node kind children => simp only [List.cons_append, coreAll, ih]

theorem coreAll_node_cons (kind : SyntaxKind) (children rest : List SyntaxTree) :
    coreAll (.node kind children :: rest) =
      (SyntaxTree.node kind children).core :: coreAll rest := by
  simp only [coreAll, core]

theorem coreAll_node_congr (kind : SyntaxKind) {trees copies : List SyntaxTree}
    (h : coreAll copies = coreAll trees) :
    coreAll [.node kind copies] = coreAll [.node kind trees] := by
  rw [coreAll_node_cons, coreAll_node_cons, core_node, core_node, h]

/-- Tokens leave the significant ones. -/
theorem coreAll_tokens (tokens : List Token) :
    coreAll (tokens.map .token) =
      (tokens.filter Token.isSignificant).map fun token => .token token.bare := by
  induction tokens with
  | nil => simp [coreAll]
  | cons token rest ih =>
      simp only [List.map_cons, coreAll, ih, List.filter_cons]
      split <;> rfl

theorem kind?_node (kind : SyntaxKind) (children : List SyntaxTree) :
    (SyntaxTree.node kind children).kind? = some kind := rfl

@[simp] theorem kind?_core (tree : SyntaxTree) : tree.core.kind? = tree.kind? := by
  cases tree <;> simp [core, kind?]

@[simp] theorem isNode_core (tree : SyntaxTree) : tree.core.isNode = tree.isNode := by
  simp [isNode]

theorem coreAll_cons_of_isNode {tree : SyntaxTree} (h : tree.isNode = true)
    (rest : List SyntaxTree) : coreAll (tree :: rest) = tree.core :: coreAll rest := by
  cases tree with
  | token leaf => cases h
  | node kind children => exact coreAll_node_cons kind children rest

theorem coreAll_singleton {tree : SyntaxTree} (h : tree.isNode = true) :
    coreAll [tree] = [tree.core] := by
  rw [coreAll_cons_of_isNode h, coreAll]

@[simp] theorem children_core (tree : SyntaxTree) : tree.core.children = coreAll tree.children := by
  cases tree <;> simp [core, children, coreAll]

/-- Nodes chosen by what a core keeps. -/
theorem filter_coreAll {test : SyntaxTree → Bool} (hcore : ∀ tree, test tree.core = test tree)
    (htoken : ∀ leaf, test (.token leaf) = false) (trees : List SyntaxTree) :
    (coreAll trees).filter test = (trees.filter test).map core := by
  induction trees with
  | nil => simp [coreAll]
  | cons tree rest ih =>
      cases tree with
      | token leaf =>
          simp only [coreAll]
          split <;> simp [htoken, ih]
      | node kind children =>
          rw [coreAll_node_cons, List.filter_cons, List.filter_cons, hcore, ih]
          split <;> rfl

@[simp] theorem childNodes_core (tree : SyntaxTree) :
    tree.core.childNodes = tree.childNodes.map core := by
  rw [childNodes, children_core]
  exact filter_coreAll isNode_core (fun _ => rfl) tree.children

theorem filter_kind_coreAll (trees : List SyntaxTree) (kind : SyntaxKind) :
    (coreAll trees).filter (·.kind? == some kind) =
      (trees.filter (·.kind? == some kind)).map core :=
  filter_coreAll (fun tree => by rw [kind?_core]) (fun _ => rfl) trees

@[simp] theorem firstChild?_core (tree : SyntaxTree) (kind : SyntaxKind) :
    tree.core.firstChild? kind = (tree.firstChild? kind).map core := by
  rw [firstChild?, firstChild?, children_core, ← List.head?_filter, filter_kind_coreAll,
    List.head?_map, List.head?_filter]

theorem tokens_append (kind : SyntaxKind) (trees more : List SyntaxTree) :
    (SyntaxTree.node kind (trees ++ more)).tokens =
      (SyntaxTree.node kind trees).tokens ++ (SyntaxTree.node kind more).tokens :=
  List.filterMap_append

theorem tokens_token_cons (kind : SyntaxKind) (leaf : Token) (rest : List SyntaxTree) :
    (SyntaxTree.node kind (.token leaf :: rest)).tokens =
      if leaf.isSignificant then leaf :: (SyntaxTree.node kind rest).tokens
      else (SyntaxTree.node kind rest).tokens := by
  cases hleaf : leaf.isSignificant <;> simp [tokens, children, hleaf]

theorem tokens_node_cons (kind : SyntaxKind) {tree : SyntaxTree} (h : tree.isNode = true)
    (rest : List SyntaxTree) :
    (SyntaxTree.node kind (tree :: rest)).tokens = (SyntaxTree.node kind rest).tokens := by
  cases tree with
  | token leaf => cases h
  | node _ _ => rfl

theorem filterMap_tokens_coreAll (trees : List SyntaxTree) :
    ((coreAll trees).filterMap fun
      | .token leaf => if leaf.isSignificant then some leaf else none
      | .node _ _ => none) =
    (trees.filterMap fun
      | .token leaf => if leaf.isSignificant then some leaf else none
      | .node _ _ => none).map Token.bare := by
  induction trees with
  | nil => simp [coreAll]
  | cons tree rest ih =>
      cases tree with
      | token leaf =>
          simp only [coreAll]
          split <;> simp_all
      | node kind children => simp [coreAll, ih]

@[simp] theorem tokens_core (tree : SyntaxTree) :
    tree.core.tokens = tree.tokens.map Token.bare := by
  simp only [tokens, children_core]
  exact filterMap_tokens_coreAll tree.children

theorem find?_map_bare (tokens : List Token) (test : Token → Bool)
    (h : ∀ token : Token, test token.bare = test token) :
    (tokens.map Token.bare).find? test = (tokens.find? test).map Token.bare := by
  simp only [List.find?_map]
  congr 2
  funext token
  exact h token

@[simp] theorem firstToken?_core (tree : SyntaxTree) (kind : TokenKind) :
    tree.core.firstToken? kind = (tree.firstToken? kind).map Token.bare := by
  simp only [firstToken?, tokens_core]
  exact find?_map_bare _ _ fun _ => rfl

mutual

theorem filter_leaves_core (test : Token → Bool)
    (hbare : ∀ token : Token, test token.bare = test token)
    (htest : ∀ token, test token = true → token.isSignificant = true) :
    ∀ tree : SyntaxTree,
      tree.core.leaves.filter test = (tree.leaves.filter test).map Token.bare
  | .token leaf => by
      simp only [core, leaves, List.filter_cons, hbare]
      split <;> rfl
  | .node kind children => by
      simp only [core, leaves]
      exact filter_leavesOf_coreAll test hbare htest children

theorem filter_leavesOf_coreAll (test : Token → Bool)
    (hbare : ∀ token : Token, test token.bare = test token)
    (htest : ∀ token, test token = true → token.isSignificant = true) :
    ∀ trees : List SyntaxTree,
      (leavesOf (coreAll trees)).filter test = ((leavesOf trees).filter test).map Token.bare
  | [] => by simp [coreAll, leavesOf]
  | .token leaf :: rest => by
      have hrest := filter_leavesOf_coreAll test hbare htest rest
      by_cases hleaf : leaf.isSignificant = true
      · simp only [coreAll, if_pos hleaf, leavesOf, leaves, List.filter_append, hrest,
          List.map_append, List.filter_cons, hbare]
        split <;> rfl
      · have hout : test leaf = false := by
          cases h : test leaf with
          | false => rfl
          | true => exact absurd (htest leaf h) hleaf
        simp only [coreAll, if_neg hleaf, leavesOf, leaves, List.filter_append, hrest,
          List.map_append, List.filter_cons, hout]
        rfl
  | .node kind children :: rest => by
      have hfirst := filter_leavesOf_coreAll test hbare htest children
      have hrest := filter_leavesOf_coreAll test hbare htest rest
      simp only [coreAll, leavesOf, leaves, List.filter_append, hfirst, hrest, List.map_append]

end

@[simp] theorem firstSignificant?_core (tree : SyntaxTree) :
    tree.core.firstSignificant? = tree.firstSignificant?.map Token.bare := by
  have hleaves := filter_leaves_core Token.isSignificant (fun _ => rfl) (fun _ h => h) tree
  simp only [firstSignificant?, ← List.head?_filter, hleaves, List.head?_map]

theorem lastSignificant?_core (tree : SyntaxTree) :
    tree.core.lastSignificant? = tree.lastSignificant?.map Token.bare := by
  have hleaves := filter_leaves_core (fun token => token.isSignificant && token.kind != .newline)
    (fun _ => rfl) (fun _ h => (Bool.and_eq_true _ _ ▸ h).1) tree
  simp only [lastSignificant?, ← List.head?_filter, List.filter_reverse, hleaves,
    List.head?_reverse, List.getLast?_map]

/-- Nothing in a core has a place. -/
@[simp] theorem span_core (tree : SyntaxTree) : tree.core.span = .origin := by
  simp only [span, firstSignificant?_core, lastSignificant?_core]
  cases tree.firstSignificant? <;> cases tree.lastSignificant? <;> rfl

end SyntaxTree

end NovelAsm
