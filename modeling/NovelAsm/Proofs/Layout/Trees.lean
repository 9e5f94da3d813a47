import NovelAsm.Proofs.SyntaxTree.Grown

/-!
Joined trees. Inside brackets a line end joins the tree with the token that is taken next,
and stands in whatever node is open there. A joined tree is a core without these line ends.

They are left where they could be read: in operands of one token and in flags, which are
read by their first token whatever it is, and in a definition, whose name is found by its
place. An instruction is read by the text of its first token; this text is put in front
of a joined instruction, so that it is found there even without line ends.
-/

namespace NovelAsm

namespace SyntaxKind

/-- The nodes in which only parts are looked for. -/
def isReadByParts (kind : SyntaxKind) : Bool :=
  !kind.isOneToken && kind != .definition && kind != .instruction

theorem isReadByParts_iff {kind : SyntaxKind} : kind.isReadByParts = true ↔
    kind.isOneToken = false ∧ (kind == .definition) = false ∧ (kind == .instruction) = false := by
  simp [isReadByParts, and_assoc]

end SyntaxKind

namespace SyntaxTree

/-- The text of the first token. -/
def firstText (tree : SyntaxTree) : Bytes := (tree.firstSignificant?.map Token.text).getD []

/-- The text of the first token of an instruction, as a name. -/
def mnemonic (kind : SyntaxKind) (children : List SyntaxTree) : List SyntaxTree :=
  if kind == .instruction then
    [.token ⟨.identifier, (SyntaxTree.node kind children).firstText, .origin⟩]
  else []

mutual

/-- A core without line ends that no one reads. -/
def joined : SyntaxTree → SyntaxTree
  | .token leaf => .token leaf.bare
  | .node kind children =>
      .node kind <|
        if kind.isOneToken then coreAll children
        else mnemonic kind children ++ joinedAll (kind == .definition) children

/-- Cores of neighbouring trees without line ends that no one reads; those between the trees
are kept if asked for. -/
def joinedAll (keep : Bool) : List SyntaxTree → List SyntaxTree
  | [] => []
  | .token leaf :: rest =>
      if leaf.isSignificant && (keep || leaf.kind != .newline) then
        .token leaf.bare :: joinedAll keep rest
      else joinedAll keep rest
  | .node kind children :: rest =>
      .node kind
        (if kind.isOneToken then coreAll children
          else mnemonic kind children ++ joinedAll (kind == .definition) children) ::
        joinedAll keep rest

end

variable {keep : Bool}

theorem joined_node (kind : SyntaxKind) (children : List SyntaxTree) :
    (SyntaxTree.node kind children).joined = .node kind
      (if kind.isOneToken then coreAll children
        else mnemonic kind children ++ joinedAll (kind == .definition) children) := by
  simp only [joined]

/-- Operands of one token and flags are left as they are. -/
theorem joined_eq_core {kind : SyntaxKind} (hkind : kind.isOneToken = true)
    (children : List SyntaxTree) :
    (SyntaxTree.node kind children).joined = (SyntaxTree.node kind children).core := by
  rw [joined_node, if_pos hkind, core_node]

theorem joined_of_not_oneToken {kind : SyntaxKind} (hkind : kind.isOneToken = false)
    (children : List SyntaxTree) :
    (SyntaxTree.node kind children).joined =
      .node kind (mnemonic kind children ++ joinedAll (kind == .definition) children) := by
  rw [joined_node, hkind, if_neg Bool.false_ne_true]

theorem mnemonic_of_ne {kind : SyntaxKind} (hkind : (kind == .instruction) = false)
    (children : List SyntaxTree) : mnemonic kind children = [] := by
  rw [mnemonic, hkind, if_neg Bool.false_ne_true]

theorem joined_of_parts {kind : SyntaxKind} (hkind : kind.isReadByParts = true)
    (children : List SyntaxTree) :
    (SyntaxTree.node kind children).joined = .node kind (joinedAll false children) := by
  obtain ⟨htoken, hdefinition, hinstruction⟩ := SyntaxKind.isReadByParts_iff.mp hkind
  rw [joined_of_not_oneToken htoken, mnemonic_of_ne hinstruction, hdefinition, List.nil_append]

@[simp] theorem joinedAll_nil : joinedAll keep [] = [] := by
  simp only [joinedAll]

theorem joinedAll_node_cons (kind : SyntaxKind) (children rest : List SyntaxTree) :
    joinedAll keep (.node kind children :: rest) =
      (SyntaxTree.node kind children).joined :: joinedAll keep rest := by
  simp only [joinedAll, joined]

theorem joinedAll_append (trees more : List SyntaxTree) :
    joinedAll keep (trees ++ more) = joinedAll keep trees ++ joinedAll keep more := by
  induction trees with
  | nil => simp
  | cons tree rest ih =>
      cases tree with
      | token leaf =>
          simp only [List.cons_append, joinedAll, ih]
          split <;> rfl
      | node kind children => simp only [List.cons_append, joinedAll, ih]

@[simp] theorem firstText_core (tree : SyntaxTree) : tree.core.firstText = tree.firstText := by
  rw [firstText, firstSignificant?_core, Option.map_map, firstText]
  rfl

theorem coreAll_coreAll (trees : List SyntaxTree) : coreAll (coreAll trees) = coreAll trees := by
  cases trees with
  | nil => simp [coreAll]
  | cons tree rest =>
      have hrest := coreAll_coreAll rest
      cases tree with
      | token leaf => cases hleaf : leaf.isSignificant <;> simp [coreAll, hleaf, hrest]
      | node kind children =>
          rw [coreAll_node_cons, core_node, coreAll_node_cons, core_node, coreAll_coreAll children,
            hrest]

theorem mnemonic_core (kind : SyntaxKind) (children : List SyntaxTree) :
    mnemonic kind (coreAll children) = mnemonic kind children := by
  rw [mnemonic, ← core_node, firstText_core, mnemonic]

/-- The core determines what is joined. -/
theorem joinedAll_coreAll {keep : Bool} (trees : List SyntaxTree) :
    joinedAll keep (coreAll trees) = joinedAll keep trees := by
  cases trees with
  | nil => simp [coreAll]
  | cons tree rest =>
      have hrest := @joinedAll_coreAll keep rest
      cases tree with
      | token leaf =>
          cases hleaf : leaf.isSignificant with
          | false => simp [coreAll, joinedAll, hleaf, hrest]
          | true => simp [coreAll, joinedAll, hleaf, hrest]
      | node kind children =>
          rw [coreAll_node_cons, core_node, joinedAll_node_cons, joinedAll_node_cons, joined_node,
            joined_node, mnemonic_core, joinedAll_coreAll children, hrest, coreAll_coreAll]

theorem joined_core (tree : SyntaxTree) : tree.core.joined = tree.joined := by
  cases tree with
  | token leaf => simp only [core, joined, Token.bare_bare]
  | node kind children =>
      rw [core_node, joined_node, joined_node, mnemonic_core, joinedAll_coreAll, coreAll_coreAll]

theorem joinedAll_congr_core {trees others : List SyntaxTree} (h : coreAll trees = coreAll others) :
    joinedAll keep trees = joinedAll keep others := by
  rw [← joinedAll_coreAll, h, joinedAll_coreAll]

/-- Tokens leave the significant ones that are kept. -/
theorem joinedAll_tokens (tokens : List Token) :
    joinedAll keep (tokens.map .token) =
      (tokens.filter fun token => token.isSignificant && (keep || token.kind != .newline)).map
        fun token => .token token.bare := by
  induction tokens with
  | nil => simp
  | cons token rest ih =>
      simp only [List.map_cons, joinedAll, ih, List.filter_cons]
      split <;> rfl

/-! What is read off a joined tree is what is read off its core. -/

@[simp] theorem kind?_joined (tree : SyntaxTree) : tree.joined.kind? = tree.kind? := by
  cases tree <;> simp [joined, kind?]

@[simp] theorem isNode_joined (tree : SyntaxTree) : tree.joined.isNode = tree.isNode := by
  simp [isNode]

theorem mem_mnemonic {kind : SyntaxKind} {children : List SyntaxTree} {tree : SyntaxTree}
    (h : tree ∈ mnemonic kind children) :
    ∃ text, tree = .token ⟨.identifier, text, .origin⟩ := by
  unfold mnemonic at h
  split at h
  · exact ⟨_, List.mem_singleton.mp h⟩
  · cases h

/-- Nodes chosen by what a joined tree keeps. -/
theorem filter_joinedAll {test : SyntaxTree → Bool}
    (hjoined : ∀ tree, test tree.joined = test tree) (htoken : ∀ leaf, test (.token leaf) = false)
    (trees : List SyntaxTree) :
    (joinedAll keep trees).filter test = (trees.filter test).map joined := by
  induction trees with
  | nil => simp
  | cons tree rest ih =>
      cases tree with
      | token leaf =>
          simp only [joinedAll]
          split <;> simp [htoken, ih]
      | node kind children =>
          rw [joinedAll_node_cons, List.filter_cons, List.filter_cons, hjoined, ih]
          split <;> rfl

section Nodes

variable {kind : SyntaxKind} (hkind : kind.isOneToken = false)

include hkind

theorem filter_children_joined {test : SyntaxTree → Bool}
    (hjoined : ∀ tree, test tree.joined = test tree) (htoken : ∀ leaf, test (.token leaf) = false)
    (children : List SyntaxTree) :
    (SyntaxTree.node kind children).joined.children.filter test =
      (children.filter test).map joined := by
  have hmnemonic : (mnemonic kind children).filter test = [] := by
    rw [List.filter_eq_nil_iff]
    intro tree htree
    obtain ⟨text, rfl⟩ := mem_mnemonic htree
    simp [htoken]
  rw [joined_of_not_oneToken hkind, SyntaxTree.children, List.filter_append, hmnemonic,
    List.nil_append]
  exact filter_joinedAll hjoined htoken children

theorem childNodes_joined (children : List SyntaxTree) :
    (SyntaxTree.node kind children).joined.childNodes =
      (SyntaxTree.node kind children).childNodes.map joined :=
  filter_children_joined hkind isNode_joined (fun _ => rfl) children

theorem filter_kind_joined (part : SyntaxKind) (children : List SyntaxTree) :
    (SyntaxTree.node kind children).joined.children.filter (·.kind? == some part) =
      (children.filter (·.kind? == some part)).map joined :=
  filter_children_joined hkind (fun tree => by rw [kind?_joined]) (fun _ => rfl) children

theorem firstChild?_joined (part : SyntaxKind) (children : List SyntaxTree) :
    (SyntaxTree.node kind children).joined.firstChild? part =
      ((SyntaxTree.node kind children).firstChild? part).map joined := by
  rw [firstChild?, firstChild?, ← List.head?_filter, filter_kind_joined hkind, List.head?_map,
    List.head?_filter]
  rfl

end Nodes

theorem tokens_joinedAll (kind : SyntaxKind) (trees : List SyntaxTree) :
    (SyntaxTree.node kind (joinedAll keep trees)).tokens =
      ((SyntaxTree.node kind trees).tokens.filter fun token =>
        keep || token.kind != .newline).map Token.bare := by
  induction trees with
  | nil =>
      rw [joinedAll_nil]
      rfl
  | cons tree rest ih =>
      cases tree with
      | token leaf =>
          rw [joinedAll, tokens_token_cons]
          cases hleaf : leaf.isSignificant with
          | false => simpa using ih
          | true =>
              cases hkeep : keep || leaf.kind != .newline with
              | false => simpa [hkeep] using ih
              | true => simp [tokens_token_cons, hkeep, hleaf, ih]
      | node _ _ =>
          rw [joinedAll_node_cons, tokens_node_cons _ (isNode_joined _), tokens_node_cons _ rfl, ih]

/-- A joined definition has all its tokens. -/
theorem tokens_joined_definition (children : List SyntaxTree) :
    (SyntaxTree.node .definition children).joined.tokens =
      (SyntaxTree.node .definition children).core.tokens := by
  have hall := @tokens_joinedAll true .definition children
  simp only [Bool.true_or, List.filter_true] at hall
  rw [joined_of_not_oneToken rfl, tokens_core]
  exact hall

theorem tokens_mnemonic {kind : SyntaxKind} {children : List SyntaxTree} {token : Token}
    (h : token ∈ (SyntaxTree.node kind (mnemonic kind children)).tokens) :
    kind = .instruction ∧ token.kind = .identifier := by
  cases hkind : kind == .instruction with
  | false =>
      rw [mnemonic_of_ne hkind] at h
      cases h
  | true =>
      refine ⟨beq_iff_eq.mp hkind, ?_⟩
      obtain ⟨tree, htree, htoken⟩ := List.mem_filterMap.mp h
      obtain ⟨text, rfl⟩ := mem_mnemonic htree
      obtain ⟨-, rfl⟩ : _ ∧ (⟨.identifier, text, .origin⟩ : Token) = token := by
        simpa using htoken
      rfl

/-- Tokens that are no line ends stand in a joined tree as well. The name in front of an
instruction is the only one that does not stand in the tree. -/
theorem filter_tokens_joined {kind : SyntaxKind} {test : Token → Bool}
    (hbare : ∀ token : Token, test token.bare = test token)
    (hnewline : ∀ token : Token, test token = true → token.kind ≠ .newline)
    (hname : kind = .instruction → ∀ token : Token, test token = true → token.kind ≠ .identifier)
    (children : List SyntaxTree) :
    (SyntaxTree.node kind children).joined.tokens.filter test =
      (SyntaxTree.node kind children).core.tokens.filter test := by
  cases hone : kind.isOneToken with
  | true => rw [joined_eq_core hone]
  | false =>
      have htest : test ∘ Token.bare = test := funext hbare
      have hmnemonic : (SyntaxTree.node kind (mnemonic kind children)).tokens.filter test = [] := by
        rw [List.filter_eq_nil_iff]
        intro token htoken hin
        obtain ⟨hkind, hidentifier⟩ := tokens_mnemonic htoken
        exact hname hkind token hin hidentifier
      rw [tokens_core, joined_of_not_oneToken hone, tokens_append, List.filter_append, hmnemonic,
        List.nil_append, tokens_joinedAll, List.filter_map, List.filter_map, htest,
        List.filter_filter]
      congr 1
      apply List.filter_congr
      intro token _
      cases htoken : test token with
      | false => simp
      | true => simp [hnewline token htoken]

theorem find?_tokens_joined {kind : SyntaxKind} {test : Token → Bool}
    (hbare : ∀ token : Token, test token.bare = test token)
    (hnewline : ∀ token : Token, test token = true → token.kind ≠ .newline)
    (hname : kind = .instruction → ∀ token : Token, test token = true → token.kind ≠ .identifier)
    (children : List SyntaxTree) :
    (SyntaxTree.node kind children).joined.tokens.find? test =
      (SyntaxTree.node kind children).core.tokens.find? test := by
  rw [← List.head?_filter, filter_tokens_joined hbare hnewline hname, List.head?_filter]

theorem exists_children {tree : SyntaxTree} {kind : SyntaxKind} (h : tree.kind? = some kind) :
    ∃ children, tree = .node kind children := by
  cases tree with
  | token leaf => cases h
  | node found children =>
      cases h
      exact ⟨children, rfl⟩

theorem exists_tree_of_mem {leaf : Token} {trees : List SyntaxTree} (h : leaf ∈ leavesOf trees) :
    ∃ tree ∈ trees, leaf ∈ tree.leaves := by
  induction trees with
  | nil => simp [leavesOf] at h
  | cons tree rest ih =>
      rw [leavesOf, List.mem_append] at h
      rcases h with h | h
      · exact ⟨tree, List.mem_cons_self .., h⟩
      · obtain ⟨found, hfound, hleaf⟩ := ih h
        exact ⟨found, List.mem_cons_of_mem _ hfound, hleaf⟩

mutual

theorem span_of_mem_core {leaf : Token} : ∀ {tree : SyntaxTree}, leaf ∈ tree.core.leaves →
    leaf.span = .origin
  | .token other, h => by
      simp only [core, leaves, List.mem_singleton] at h
      rw [h, Token.span_bare]
  | .node kind children, h => by
      simp only [core_node, leaves] at h
      exact span_of_mem_coreAll h

theorem span_of_mem_coreAll {leaf : Token} : ∀ {trees : List SyntaxTree},
    leaf ∈ leavesOf (coreAll trees) → leaf.span = .origin
  | [], h => by simp [coreAll, leavesOf] at h
  | .token other :: rest, h => by
      simp only [coreAll] at h
      split at h
      · simp only [leavesOf, leaves, List.mem_append, List.mem_singleton] at h
        rcases h with h | h
        · rw [h, Token.span_bare]
        · exact span_of_mem_coreAll h
      · exact span_of_mem_coreAll h
  | .node kind children :: rest, h => by
      rw [coreAll_node_cons] at h
      simp only [leavesOf, List.mem_append] at h
      rcases h with h | h
      · exact span_of_mem_core h
      · exact span_of_mem_coreAll h

end

mutual

theorem span_of_mem_joined {leaf : Token} : ∀ {tree : SyntaxTree}, leaf ∈ tree.joined.leaves →
    leaf.span = .origin
  | .token other, h => by
      simp only [joined, leaves, List.mem_singleton] at h
      rw [h, Token.span_bare]
  | .node kind children, h => by
      simp only [joined_node, leaves] at h
      split at h
      · exact span_of_mem_coreAll h
      · rw [leavesOf_append] at h
        rcases List.mem_append.mp h with h | h
        · obtain ⟨tree, htree, hleaf⟩ := exists_tree_of_mem h
          obtain ⟨text, rfl⟩ := mem_mnemonic htree
          rw [List.mem_singleton.mp hleaf]
        · exact span_of_mem_joinedAll h

theorem span_of_mem_joinedAll {keep : Bool} {leaf : Token} : ∀ {trees : List SyntaxTree},
    leaf ∈ leavesOf (joinedAll keep trees) → leaf.span = .origin
  | [], h => by simp [leavesOf] at h
  | .token other :: rest, h => by
      simp only [joinedAll] at h
      split at h
      · simp only [leavesOf, leaves, List.mem_append, List.mem_singleton] at h
        rcases h with h | h
        · rw [h, Token.span_bare]
        · exact span_of_mem_joinedAll h
      · exact span_of_mem_joinedAll h
  | .node kind children :: rest, h => by
      rw [joinedAll_node_cons] at h
      simp only [leavesOf, List.mem_append] at h
      rcases h with h | h
      · exact span_of_mem_joined h
      · exact span_of_mem_joinedAll h

end

/-- Nothing in a joined tree has a place. -/
@[simp] theorem span_joined (tree : SyntaxTree) : tree.joined.span = .origin := by
  cases hfirst : tree.joined.firstSignificant? with
  | none => simp [span, hfirst]
  | some first =>
      cases hlast : tree.joined.lastSignificant? with
      | none => simp [span, hfirst, hlast]
      | some last =>
          have hlastMem := List.mem_reverse.mp (List.mem_of_find?_eq_some hlast)
          simp only [span, hfirst, hlast, span_of_mem_joined hlastMem,
            span_of_mem_joined (List.mem_of_find?_eq_some hfirst)]
          rfl

@[simp] theorem firstText_joined_instruction (children : List SyntaxTree) :
    (SyntaxTree.node .instruction children).joined.firstText =
      (SyntaxTree.node .instruction children).firstText := by
  rw [joined_of_not_oneToken rfl]
  rfl

end SyntaxTree

end NovelAsm
