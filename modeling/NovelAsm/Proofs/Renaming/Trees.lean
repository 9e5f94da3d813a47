import Mathlib
import NovelAsm.Proofs.SyntaxTree.Core
import NovelAsm.Proofs.SyntaxTree.Relabelled
import NovelAsm.Proofs.SyntaxTree.Grammar

/-!
Other names in a tree. The node in which a token stands says whether it names a symbol, names a
register or does neither, like the word of an instruction, a function that is called, or a flag. So
a change of names is a change of tokens by their nodes. It leaves the shape of a tree, its spans and
the kinds of its tokens.
-/

namespace NovelAsm

namespace SyntaxKind

/-- The nodes in which a name stands for a symbol. -/
def namesSymbol : SyntaxKind → Bool
  | .label | .functionDefinition | .subroutineDefinition | .nameExpr => true
  | _ => false

/-- The nodes in which a name stands for a register. -/
def namesRegister : SyntaxKind → Bool
  | .parameterList | .registerRange | .registerExpr => true
  | _ => false

/-- The nodes in which tokens are no names of symbols or registers. -/
def isNameless (kind : SyntaxKind) : Bool := !kind.namesSymbol && !kind.namesRegister

end SyntaxKind

/-- Other names for symbols and for registers. -/
structure Names where
  symbol : Bytes → Bytes
  register : Bytes → Bytes

namespace Names

variable (names : Names)

/-- The other text of a token in a node. -/
def text (parent : SyntaxKind) (text : Bytes) : Bytes :=
  if parent.namesSymbol then names.symbol text
  else if parent.namesRegister then names.register text
  else text

/-- A token in a node, under its other name. -/
def token (parent : SyntaxKind) (leaf : Token) : Token :=
  { leaf with text := names.text parent leaf.text }

@[simp] theorem kind_token (parent : SyntaxKind) (leaf : Token) :
    (names.token parent leaf).kind = leaf.kind := rfl

@[simp] theorem span_token (parent : SyntaxKind) (leaf : Token) :
    (names.token parent leaf).span = leaf.span := rfl

@[simp] theorem isSignificant_token (parent : SyntaxKind) (leaf : Token) :
    (names.token parent leaf).isSignificant = leaf.isSignificant := rfl

theorem token_of_isNameless {parent : SyntaxKind} (h : parent.isNameless = true) (leaf : Token) :
    names.token parent leaf = leaf := by
  simp only [SyntaxKind.isNameless, Bool.and_eq_true, Bool.not_eq_true'] at h
  rw [token, text, h.1, h.2, if_neg Bool.false_ne_true, if_neg Bool.false_ne_true]

end Names

namespace SyntaxTree

mutual

/-- A tree with its tokens changed by the nodes in which they stand. -/
def recast (change : SyntaxKind → Token → Token) (parent : SyntaxKind) : SyntaxTree → SyntaxTree
  | .token leaf => .token (change parent leaf)
  | .node kind children => .node kind (recastAll change kind children)

/-- Trees in a node with their tokens changed. -/
def recastAll (change : SyntaxKind → Token → Token) (parent : SyntaxKind) :
    List SyntaxTree → List SyntaxTree
  | [] => []
  | tree :: rest => recast change parent tree :: recastAll change parent rest

end

section Recast

variable {change other : SyntaxKind → Token → Token} {parent kind : SyntaxKind}

@[simp] theorem recast_token (leaf : Token) :
    (SyntaxTree.token leaf).recast change parent = .token (change parent leaf) := rfl

@[simp] theorem recast_node (children : List SyntaxTree) :
    (SyntaxTree.node kind children).recast change parent =
      .node kind (recastAll change kind children) := rfl

@[simp] theorem recastAll_nil : recastAll change parent [] = [] := rfl

@[simp] theorem recastAll_cons (tree : SyntaxTree) (rest : List SyntaxTree) :
    recastAll change parent (tree :: rest) =
      tree.recast change parent :: recastAll change parent rest := rfl

theorem recastAll_eq_map (trees : List SyntaxTree) :
    recastAll change parent trees = trees.map (recast change parent) := by
  induction trees with
  | nil => rfl
  | cons tree rest ih => rw [recastAll_cons, ih, List.map_cons]

theorem recastAll_append (trees more : List SyntaxTree) :
    recastAll change parent (trees ++ more) =
      recastAll change parent trees ++ recastAll change parent more := by
  simp only [recastAll_eq_map, List.map_append]

theorem recastAll_tokens (tokens : List Token) :
    recastAll change parent (tokens.map token) = (tokens.map (change parent)).map token := by
  rw [recastAll_eq_map, List.map_map, List.map_map]
  rfl

@[simp] theorem kind?_recast (tree : SyntaxTree) :
    (tree.recast change parent).kind? = tree.kind? := by
  cases tree <;> rfl

@[simp] theorem isNode_recast (tree : SyntaxTree) :
    (tree.recast change parent).isNode = tree.isNode := by
  rw [isNode, kind?_recast, isNode]

/-- Trees chosen by what stays. -/
theorem filter_recastAll {test : SyntaxTree → Bool}
    (h : ∀ tree, test (tree.recast change parent) = test tree) (trees : List SyntaxTree) :
    (recastAll change parent trees).filter test = recastAll change parent (trees.filter test) := by
  rw [recastAll_eq_map, List.filter_map, recastAll_eq_map]
  congr 2
  exact funext h

theorem childNodes_recast (children : List SyntaxTree) :
    (SyntaxTree.node kind (recastAll change kind children)).childNodes =
      recastAll change kind (SyntaxTree.node kind children).childNodes :=
  filter_recastAll isNode_recast children

theorem filter_kind_recastAll (part : SyntaxKind) (children : List SyntaxTree) :
    (recastAll change kind children).filter (·.kind? == some part) =
      recastAll change kind (children.filter (·.kind? == some part)) :=
  filter_recastAll (fun tree => by rw [kind?_recast]) children

theorem firstChild?_recast (part : SyntaxKind) (children : List SyntaxTree) :
    (SyntaxTree.node kind (recastAll change kind children)).firstChild? part =
      ((SyntaxTree.node kind children).firstChild? part).map (recast change kind) := by
  change (recastAll change kind children).find? _ = (children.find? _).map _
  rw [← List.head?_filter, filter_kind_recastAll, recastAll_eq_map, List.head?_map,
    List.head?_filter]

mutual

/-- Tokens that are changed to the same. -/
theorem recast_congr : ∀ {tree : SyntaxTree} {parent : SyntaxKind},
    (∀ leaf ∈ tree.leaves, ∀ kind, change kind leaf = other kind leaf) →
      tree.recast change parent = tree.recast other parent
  | .token leaf, parent, h => by
      rw [recast_token, h leaf (List.mem_singleton_self leaf), recast_token]
  | .node kind children, parent, h => by
      rw [recast_node, recastAll_congr h, recast_node]

theorem recastAll_congr : ∀ {trees : List SyntaxTree} {parent : SyntaxKind},
    (∀ leaf ∈ leavesOf trees, ∀ kind, change kind leaf = other kind leaf) →
      recastAll change parent trees = recastAll other parent trees
  | [], _, _ => rfl
  | tree :: rest, parent, h => by
      rw [leavesOf] at h
      rw [recastAll_cons, recast_congr fun leaf hleaf => h leaf (List.mem_append_left _ hleaf),
        recastAll_congr fun leaf hleaf => h leaf (List.mem_append_right _ hleaf), recastAll_cons]

end

mutual

/-- A change of tokens behind another one. -/
theorem relabel_recast {after : Token → Token} : ∀ (tree : SyntaxTree) (parent : SyntaxKind),
    (tree.recast change parent).relabel after =
      tree.recast (fun kind leaf => after (change kind leaf)) parent
  | .token _, _ => rfl
  | .node kind children, _ => by
      rw [recast_node, relabel_node, relabelAll_recastAll children kind, recast_node]

theorem relabelAll_recastAll {after : Token → Token} :
    ∀ (trees : List SyntaxTree) (parent : SyntaxKind),
      relabelAll after (recastAll change parent trees) =
        recastAll (fun kind leaf => after (change kind leaf)) parent trees
  | [], _ => rfl
  | tree :: rest, parent => by
      rw [recastAll_cons, relabelAll_cons, relabel_recast tree parent,
        relabelAll_recastAll rest parent, recastAll_cons]

end

mutual

theorem relabel_eq_recast {change : Token → Token} : ∀ (tree : SyntaxTree) (parent : SyntaxKind),
    tree.relabel change = tree.recast (fun _ => change) parent
  | .token _, _ => rfl
  | .node kind children, _ => by
      rw [relabel_node, relabelAll_eq_recastAll children kind, recast_node]

theorem relabelAll_eq_recastAll {change : Token → Token} :
    ∀ (trees : List SyntaxTree) (parent : SyntaxKind),
      relabelAll change trees = recastAll (fun _ => change) parent trees
  | [], _ => rfl
  | tree :: rest, parent => by
      rw [relabelAll_cons, relabel_eq_recast tree parent, relabelAll_eq_recastAll rest parent,
        recastAll_cons]

end

mutual

/-- The tokens of a changed tree, one for one. -/
theorem leaves_recast_related {R : Token → Token → Prop} :
    ∀ {tree : SyntaxTree} {parent : SyntaxKind},
      (∀ leaf ∈ tree.leaves, ∀ kind, R leaf (change kind leaf)) →
        List.Forall₂ R tree.leaves (tree.recast change parent).leaves
  | .token leaf, parent, h => .cons (h leaf (List.mem_singleton_self leaf) parent) .nil
  | .node kind children, parent, h => by
      rw [leaves] at h ⊢
      rw [recast_node, leaves]
      exact leavesOf_recastAll_related h

theorem leavesOf_recastAll_related {R : Token → Token → Prop} :
    ∀ {trees : List SyntaxTree} {parent : SyntaxKind},
      (∀ leaf ∈ leavesOf trees, ∀ kind, R leaf (change kind leaf)) →
        List.Forall₂ R (leavesOf trees) (leavesOf (recastAll change parent trees))
  | [], _, _ => .nil
  | tree :: rest, parent, h => by
      rw [leavesOf] at h ⊢
      rw [recastAll_cons, leavesOf]
      exact List.rel_append
        (leaves_recast_related fun leaf hleaf => h leaf (List.mem_append_left _ hleaf))
        (leavesOf_recastAll_related fun leaf hleaf => h leaf (List.mem_append_right _ hleaf))

end

end Recast

section Names

variable (names : Names) {kind : SyntaxKind}

theorem tokens_recast (children : List SyntaxTree) :
    (SyntaxTree.node kind (recastAll names.token kind children)).tokens =
      (SyntaxTree.node kind children).tokens.map (names.token kind) := by
  induction children with
  | nil => rfl
  | cons tree rest ih =>
      cases tree with
      | token leaf =>
          rw [recastAll_cons, recast_token, tokens_token_cons, tokens_token_cons, ih,
            Names.isSignificant_token, apply_ite (List.map (names.token kind)), List.map_cons]
      | node inner children =>
          rw [recastAll_cons, recast_node, tokens_node_cons kind rfl, tokens_node_cons kind rfl, ih]

theorem firstToken?_recast (wanted : TokenKind) (children : List SyntaxTree) :
    (SyntaxTree.node kind (recastAll names.token kind children)).firstToken? wanted =
      ((SyntaxTree.node kind children).firstToken? wanted).map (names.token kind) := by
  rw [firstToken?, tokens_recast, List.find?_map, firstToken?]
  rfl

/-- Trees in a row that begin with tokens, of which one counts. -/
def Headed (children : List SyntaxTree) : Prop :=
  ∃ (tokens : List Token) (more : List SyntaxTree),
    children = tokens.map .token ++ more ∧ tokens.any Token.isSignificant = true

theorem Worded.headed {children : List SyntaxTree} (h : Worded children) : Headed children := by
  obtain ⟨word, taken, more, rfl, htook, -⟩ := h
  obtain ⟨skipped, rfl, -⟩ := htook.split
  exact ⟨_, more, rfl, by simp [htook.significant]⟩

/-- A token as if nothing were written. -/
def unwritten (leaf : Token) : Token := { leaf with text := [] }

theorem find?_unwritten {test : Token → Bool} (h : ∀ leaf, test (unwritten leaf) = test leaf)
    (tokens : List Token) :
    (tokens.map unwritten).find? test = (tokens.find? test).map unwritten := by
  rw [List.find?_map]
  congr 2
  exact funext h

/-- The span of a tree does not depend on what is written. -/
theorem span_congr_unwritten {tree twin : SyntaxTree}
    (h : tree.leaves.map unwritten = twin.leaves.map unwritten) : tree.span = twin.span := by
  have hfirst : tree.firstSignificant?.map unwritten = twin.firstSignificant?.map unwritten := by
    rw [firstSignificant?, ← find?_unwritten fun _ => rfl, h, find?_unwritten fun _ => rfl]
    rfl
  have hlast : tree.lastSignificant?.map unwritten = twin.lastSignificant?.map unwritten := by
    rw [lastSignificant?, ← find?_unwritten fun _ => rfl, List.map_reverse, h, ← List.map_reverse,
      find?_unwritten fun _ => rfl]
    rfl
  rw [span, span]
  cases hone : tree.firstSignificant? <;> cases htwin : twin.firstSignificant? <;>
    cases hend : tree.lastSignificant? <;> cases htwinEnd : twin.lastSignificant? <;>
    simp_all [unwritten]

@[simp] theorem span_recast (tree : SyntaxTree) (parent : SyntaxKind) :
    (tree.recast names.token parent).span = tree.span := by
  refine span_congr_unwritten ?_
  have hrelated : List.Forall₂ (fun leaf twin => unwritten leaf = unwritten twin) tree.leaves
      (tree.recast names.token parent).leaves :=
    leaves_recast_related fun _ _ _ => rfl
  rw [← List.forall₂_eq_eq_eq, List.forall₂_map_left_iff, List.forall₂_map_right_iff]
  exact hrelated.flip.imp fun _ _ h => h.symm

/-- The token that a node is read by, if it stands in the node. -/
theorem firstSignificant?_recast {children : List SyntaxTree} (h : Headed children) :
    (SyntaxTree.node kind (recastAll names.token kind children)).firstSignificant? =
      (SyntaxTree.node kind children).firstSignificant?.map (names.token kind) := by
  obtain ⟨tokens, more, rfl, hcounts⟩ := h
  have hsame : (tokens.map (names.token kind)).find? Token.isSignificant =
      (tokens.find? Token.isSignificant).map (names.token kind) := by
    rw [List.find?_map]
    rfl
  obtain ⟨token, htoken⟩ := Option.isSome_iff_exists.mp
    (List.find?_isSome.mpr (List.any_eq_true.mp hcounts))
  rw [firstSignificant?, recastAll_append, recastAll_tokens, leaves, leavesOf_append,
    leavesOf_tokens, List.find?_append, hsame, firstSignificant?, leaves, leavesOf_append,
    leavesOf_tokens, List.find?_append, htoken]
  rfl

end Names

/-- A node that holds no others is read by a token in it. -/
theorem Formed.headed {kind : SyntaxKind} {children : List SyntaxTree}
    (h : (SyntaxTree.node kind children).Formed) (hkind : kind.admits = fun _ => false)
    (hfirst : (SyntaxTree.node kind children).firstSignificant?.isSome = true) :
    Headed children := by
  have htokens : ∀ trees : List SyntaxTree, AllFormed kind.admits trees →
      ∃ tokens : List Token, trees = tokens.map .token := by
    intro trees htrees
    induction trees with
    | nil => exact ⟨[], rfl⟩
    | cons tree rest ih =>
        obtain ⟨htree, hrest⟩ := List.forall_mem_cons.mp htrees
        obtain ⟨tokens, rfl⟩ := ih hrest
        cases tree with
        | token leaf => exact ⟨leaf :: tokens, rfl⟩
        | node inner children =>
            have hadmits := htree.2
            rw [kind?_node, hkind] at hadmits
            cases hadmits
  obtain ⟨tokens, rfl⟩ := htokens children h.children
  rw [firstSignificant?, leaves, leavesOf_tokens] at hfirst
  exact ⟨tokens, [], (List.append_nil _).symm, List.any_eq_true.mpr (List.find?_isSome.mp hfirst)⟩

/-- A file in which each item has other names. -/
def renameItems (names : SyntaxTree → Names) (file : SyntaxTree) : SyntaxTree :=
  .node .sourceFile (file.children.map fun item => item.recast (names item).token .sourceFile)

end SyntaxTree

end NovelAsm
