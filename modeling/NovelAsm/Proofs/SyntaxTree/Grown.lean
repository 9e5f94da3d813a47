import NovelAsm.Proofs.SyntaxTree.Cursor
import NovelAsm.Proofs.SyntaxTree.Formed

/-!
The nodes that a parser makes. Whatever is wrong with a text, operators are in order, an
instruction begins with its word, and a name is read by an identifier, a register or a line end;
if nothing is wrong, a node stands where the grammar allows nodes of its kind, has what it is
read by, and an item that declares a name has it. `Grown` says this of one node; what the parser
makes has it everywhere.
-/

namespace NovelAsm

/-- Names are read by identifiers, by registers and, by accident, by line ends. -/
def Token.MaySpell (token : Token) : Prop :=
  token.kind = .identifier ∨ token.kind = .register ∨ token.kind = .newline

/-- The nodes that are read by their first token. -/
def SyntaxKind.isOneToken : SyntaxKind → Bool
  | .literalExpr | .registerExpr | .nameExpr | .flag => true
  | _ => false

namespace SyntaxTree

variable {kind : SyntaxKind} {trees more : List SyntaxTree} {tree : SyntaxTree}

/-- A property of every node of a tree. -/
inductive Everywhere (P : SyntaxTree → Prop) : SyntaxTree → Prop
  | token (leaf : Token) : Everywhere P (.token leaf)
  | node {kind : SyntaxKind} {children : List SyntaxTree} (here : P (.node kind children))
      (below : ∀ child ∈ children, Everywhere P child) : Everywhere P (.node kind children)

theorem Everywhere.imp {P Q : SyntaxTree → Prop} (h : ∀ tree, P tree → Q tree)
    (hall : tree.Everywhere P) : tree.Everywhere Q := by
  induction hall with
  | token leaf => exact .token leaf
  | node here _ ih => exact .node (h _ here) ih

theorem Everywhere.here {P : SyntaxTree → Prop} (h : (SyntaxTree.node kind trees).Everywhere P) :
    P (.node kind trees) := by
  cases h with
  | node here below => exact here

theorem Everywhere.children {P : SyntaxTree → Prop}
    (h : (SyntaxTree.node kind trees).Everywhere P) :
    ∀ child ∈ trees, child.Everywhere P := by
  cases h with
  | node here below => exact below

/-! ## The nodes among some trees -/

theorem leaves_tokens (kind : SyntaxKind) (tokens : List Token) :
    (SyntaxTree.node kind (tokens.map .token)).leaves = tokens := by
  rw [leaves, leavesOf_tokens]

theorem childNodes_append (kind : SyntaxKind) (trees more : List SyntaxTree) :
    (SyntaxTree.node kind (trees ++ more)).childNodes =
      (SyntaxTree.node kind trees).childNodes ++ (SyntaxTree.node kind more).childNodes :=
  List.filter_append ..

theorem childNodes_cons {tree : SyntaxTree} (htree : tree.isNode = true) (kind : SyntaxKind)
    (rest : List SyntaxTree) : (SyntaxTree.node kind (tree :: rest)).childNodes =
      tree :: (SyntaxTree.node kind rest).childNodes :=
  List.filter_cons_of_pos htree

theorem childNodes_tokens (kind : SyntaxKind) (tokens : List Token) :
    (SyntaxTree.node kind (tokens.map .token)).childNodes = [] := by
  rw [childNodes, List.filter_eq_nil_iff]
  intro tree htree
  obtain ⟨leaf, -, rfl⟩ := List.mem_map.mp htree
  exact Bool.false_ne_true

/-- Trees that are tokens or nodes of some kinds. -/
def Among (allowed : SyntaxKind → Bool) (trees : List SyntaxTree) : Prop :=
  ∀ tree ∈ trees, tree.kind?.all allowed = true

theorem Among.append {allowed : SyntaxKind → Bool} (h : Among allowed trees)
    (hmore : Among allowed more) : Among allowed (trees ++ more) :=
  List.forall_mem_append.mpr ⟨h, hmore⟩

theorem Among.nil {allowed : SyntaxKind → Bool} : Among allowed [] := nofun

theorem among_tokens {allowed : SyntaxKind → Bool} (tokens : List Token) :
    Among allowed (tokens.map .token) := by
  intro tree htree
  obtain ⟨leaf, -, rfl⟩ := List.mem_map.mp htree
  rfl

theorem among_node {allowed : SyntaxKind → Bool} (h : allowed kind = true) :
    Among allowed [.node kind trees] := List.forall_mem_singleton.mpr h

theorem Among.mono {allowed wider : SyntaxKind → Bool} (h : Among allowed trees)
    (hwider : ∀ kind, allowed kind = true → wider kind = true) : Among wider trees := by
  intro tree htree
  have hkind := h tree htree
  cases hof : tree.kind? with
  | none => rfl
  | some kind =>
      rw [hof] at hkind
      exact hwider kind hkind

/-! ## What is taken at once -/

/-- What is taken is one token, behind trivia and line ends that do not count. -/
structure Took (nesting : Nat) (token : Token) (trees : List SyntaxTree) : Prop where
  significant : token.isSignificant = true
  split : ∃ skipped : List Token, trees = (skipped ++ [token]).map .token ∧
    ∀ other ∈ skipped, other.isTrivia = true ∨ Cursor.isBreak nesting other = true

namespace Took

variable {nesting : Nat} {token : Token}

theorem eq_tokens (h : Took nesting token trees) :
    ∃ tokens : List Token, trees = tokens.map .token := by
  obtain ⟨skipped, rfl, -⟩ := h.split
  exact ⟨_, rfl⟩

theorem childNodes (h : Took nesting token trees) (kind : SyntaxKind) :
    (SyntaxTree.node kind trees).childNodes = [] := by
  obtain ⟨tokens, rfl⟩ := h.eq_tokens
  exact childNodes_tokens kind tokens

/-- What is skipped and still counts is a line end. -/
theorem kind_of_significant {skipped : List Token}
    (h : ∀ other ∈ skipped, other.isTrivia = true ∨ Cursor.isBreak nesting other = true)
    {other : Token} (hother : other ∈ skipped) (hcounts : other.isSignificant = true) :
    Cursor.isBreak nesting other = true := by
  refine (h other hother).resolve_left fun htrivia => ?_
  simp [Token.isSignificant, htrivia] at hcounts

/-- The first significant token is the one that was taken, or a line end in front of it. -/
theorem firstSignificant? (h : Took nesting token trees) (kind : SyntaxKind) :
    ∃ first, (SyntaxTree.node kind trees).firstSignificant? = some first ∧
      (first = token ∨ first.kind = .newline) := by
  obtain ⟨skipped, rfl, hskipped⟩ := h.split
  rw [SyntaxTree.firstSignificant?, leaves_tokens, List.find?_append]
  cases hfind : skipped.find? Token.isSignificant with
  | none => exact ⟨token, by simp [h.significant], .inl rfl⟩
  | some other =>
      exact ⟨other, rfl, .inr (Cursor.kind_of_isBreak (kind_of_significant hskipped
        (List.mem_of_find?_eq_some hfind) (List.find?_some hfind)))⟩

/-- Outside of brackets, what is taken begins with its token. -/
theorem firstSignificant?_eq (h : Took 0 token trees) (kind : SyntaxKind) (more : List SyntaxTree) :
    (SyntaxTree.node kind (trees ++ more)).firstSignificant? = some token := by
  obtain ⟨skipped, rfl, hskipped⟩ := h.split
  have hnone : skipped.find? Token.isSignificant = none := by
    rw [List.find?_eq_none]
    intro other hother hcounts
    cases kind_of_significant hskipped hother hcounts
  rw [SyntaxTree.firstSignificant?, leaves, leavesOf_append, leavesOf_tokens, List.append_assoc,
    List.find?_append, hnone]
  simp [h.significant]

/-- The tokens of a node that begins with a token, behind line ends. -/
theorem exists_tokens (h : Took nesting token trees) (kind : SyntaxKind) (more : List SyntaxTree) :
    ∃ front, (∀ other ∈ front, other.kind = .newline) ∧
      (SyntaxTree.node kind (trees ++ more)).tokens =
        front ++ token :: (SyntaxTree.node kind more).tokens := by
  obtain ⟨skipped, rfl, hskipped⟩ := h.split
  rw [tokens_append]
  have htokens (tokens : List Token) : (SyntaxTree.node kind (tokens.map .token)).tokens =
      tokens.filter Token.isSignificant := by
    induction tokens with
    | nil => rfl
    | cons first rest ih =>
        rw [List.map_cons, tokens_token_cons, ih, List.filter_cons]
  refine ⟨skipped.filter Token.isSignificant, fun other hother => ?_, ?_⟩
  · obtain ⟨hmem, hother⟩ := List.mem_filter.mp hother
    exact Cursor.kind_of_isBreak (kind_of_significant hskipped hmem hother)
  · rw [htokens, List.filter_append]
    simp [h.significant]

/-- The operator of a node. -/
theorem operator? (h : Took nesting token trees) (hkind : token.kind ≠ .newline)
    (kind : SyntaxKind) (more : List SyntaxTree) :
    Naming.operator? (.node kind (trees ++ more)) = some token.kind := by
  obtain ⟨front, hfront, htokens⟩ := h.exists_tokens kind more
  have hnone : front.find? (·.kind != .newline) = none := by
    rw [List.find?_eq_none]
    intro other hother
    simp [hfront other hother]
  rw [Naming.operator?, htokens, List.find?_append, hnone]
  simp [hkind]

/-- The operator of a node that begins with its left operand. -/
theorem operator?_behind (h : Took nesting token trees) (hkind : token.kind ≠ .newline)
    {left : SyntaxTree} (hleft : left.isNode = true) (kind : SyntaxKind) (more : List SyntaxTree) :
    Naming.operator? (.node kind (left :: (trees ++ more))) = some token.kind := by
  rw [Naming.operator?, tokens_node_cons _ hleft, ← Naming.operator?]
  exact h.operator? hkind kind more

/-- The operands on both sides of an operator. -/
theorem childNodes_between (h : Took nesting token trees) {left right : SyntaxTree}
    (hleft : left.isNode = true) (hright : right.isNode = true) (kind : SyntaxKind) :
    (SyntaxTree.node kind (left :: (trees ++ [right]))).childNodes = [left, right] := by
  rw [childNodes_cons hleft, childNodes_append, h.childNodes, childNodes_cons hright]
  rfl

/-- The callee of a node. -/
theorem callee? (h : Took nesting token trees) (hkind : token.kind = .identifier)
    (kind : SyntaxKind) (more : List SyntaxTree) :
    (Naming.callee? (.node kind (trees ++ more))).isSome = true := by
  obtain ⟨front, hfront, htokens⟩ := h.exists_tokens kind more
  have hnone : front.find? (·.kind == .identifier) = none := by
    rw [List.find?_eq_none]
    intro other hother
    simp [hfront other hother]
  rw [Naming.callee?, firstToken?, htokens, List.find?_append, hnone]
  simp [hkind]

/-- The core of what is taken outside of brackets. -/
theorem coreAll_eq (h : Took 0 token trees) : coreAll trees = [.token token.bare] := by
  obtain ⟨skipped, rfl, hskipped⟩ := h.split
  have hnone : skipped.filter Token.isSignificant = [] := by
    rw [List.filter_eq_nil_iff]
    intro other hother hcounts
    cases kind_of_significant hskipped hother hcounts
  rw [coreAll_tokens, List.filter_append, hnone]
  simp [h.significant]

end Took

/-! ## What holds of the nodes -/

/-- How tightly the operator of a node binds. -/
def power (tree : SyntaxTree) : Nat := ((Naming.operator? tree).map Parser.bindingPower).getD 0

/-- A binary operator has two operands, the left one of which binds as tightly and the right one
tighter, and what a unary operator is applied to is no binary one. -/
structure Ordered (tree : SyntaxTree) : Prop where
  binary : tree.kind? = some .binaryExpr → ∃ left right, tree.childNodes = [left, right] ∧
    0 < tree.power ∧ (left.kind? = some .binaryExpr → tree.power ≤ left.power) ∧
    (right.kind? = some .binaryExpr → tree.power < right.power)
  unary : tree.kind? = some .unaryExpr → ∃ operand, tree.childNodes = [operand] ∧
    operand.kind? ≠ some .binaryExpr

/-- Trees in a row that begin with a word. -/
def Worded (trees : List SyntaxTree) : Prop :=
  ∃ word taken more, trees = taken ++ more ∧ Took 0 word taken ∧ word.kind ≠ .newline

/-- The core of an item that declares a name. -/
inductive NamedBy : SyntaxTree → Token → Prop
  | label {name : Token} {more : List SyntaxTree} (hname : name.kind = .identifier) :
      NamedBy (.node .label (.token name :: more)) name
  | function {word name : Token} {more : List SyntaxTree} (hword : word.kind = .keyword .function)
      (hname : name.kind = .identifier) :
      NamedBy (.node .functionDefinition (.token word :: .token name :: more)) name
  | subroutine {word name : Token} {more : List SyntaxTree}
      (hword : word.kind = .keyword .subroutine) (hname : name.kind = .identifier) :
      NamedBy (.node .subroutineDefinition (.token word :: .token name :: more)) name
  | definition {word name : Token} {more : List SyntaxTree}
      (hword : word.kind = .keyword .definition)
      (hname : name.kind = .identifier ∨ name.kind = .register) :
      NamedBy (.node .definition (.token word :: .token name :: more)) name

/-- The kinds of nodes that declare names. -/
def declares : SyntaxKind → Bool
  | .label | .functionDefinition | .subroutineDefinition | .definition => true
  | _ => false

/-- A node that stands in its place, has what it is read by, and declares a name if it is of a
kind that does. -/
structure Placed (kind : SyntaxKind) (children : List SyntaxTree) : Prop where
  shaped : Shaped kind children
  admits : Among kind.admits children
  named : declares kind = true → ∃ name, NamedBy (.node kind (coreAll children)) name

theorem Placed.nameless {kind : SyntaxKind} {children : List SyntaxTree}
    (hkind : declares kind = false) (hshaped : Shaped kind children)
    (hadmits : Among kind.admits children) : Placed kind children where
  shaped := hshaped
  admits := hadmits
  named hdeclares := by
    rw [hkind] at hdeclares
    cases hdeclares

/-- What holds of a node that a parser has made, and of one that nothing is wrong with. -/
structure Grown (clean : Bool) (tree : SyntaxTree) : Prop where
  ordered : tree.Ordered
  worded : tree.kind? = some .instruction → Worded tree.children
  spelled : tree.kind? = some .nameExpr ∨ tree.kind? = some .registerExpr →
    ∀ token, tree.firstSignificant? = some token → token.MaySpell
  level : tree.kind? = some .definition →
    ∀ leaf, .token leaf ∈ tree.children → leaf.kind ≠ .newline
  placed : clean = true → ∀ kind children, tree = .node kind children → Placed kind children

/-- What is wrong behind a node does not make it better. -/
theorem Grown.mono {clean less : Bool} (h : tree.Grown clean)
    (hless : less = true → clean = true) : tree.Grown less :=
  { h with placed := fun hclean => h.placed (hless hclean) }

theorem Grown.unclean {clean : Bool} (h : tree.Grown clean) : tree.Grown false :=
  h.mono (absurd · Bool.false_ne_true)

/-- Kinds of nodes of which nothing is said but that they stand in their place. -/
def isPlain : SyntaxKind → Bool
  | .binaryExpr | .unaryExpr | .nameExpr | .registerExpr | .instruction | .definition => false
  | _ => true

theorem grown_plain {clean : Bool} (hkind : isPlain kind = true)
    (h : clean = true → Placed kind trees) : (SyntaxTree.node kind trees).Grown clean := by
  have hne {other : SyntaxKind} (hother : isPlain other = false) :
      (SyntaxTree.node kind trees).kind? ≠ some other := fun heq => by
    rw [← Option.some.inj heq, hkind] at hother
    cases hother
  refine ⟨⟨fun heq => absurd heq (hne rfl), fun heq => absurd heq (hne rfl)⟩,
    fun heq => absurd heq (hne rfl), fun heq => ?_, fun heq => absurd heq (hne rfl), ?_⟩
  · exact heq.elim (absurd · (hne rfl)) (absurd · (hne rfl))
  · rintro hclean _ _ ⟨⟩
    exact h hclean

theorem grown_operation {clean : Bool} (hkind : kind = .unaryExpr ∨ kind = .binaryExpr)
    (hordered : (SyntaxTree.node kind trees).Ordered) (h : clean = true → Placed kind trees) :
    (SyntaxTree.node kind trees).Grown clean := by
  have hne {other : SyntaxKind} (hother : ¬ (other = .unaryExpr ∨ other = .binaryExpr)) :
      (SyntaxTree.node kind trees).kind? ≠ some other := fun heq =>
    hother (Option.some.inj heq ▸ hkind)
  refine ⟨hordered, fun heq => absurd heq (hne (by decide)), fun heq => ?_,
    fun heq => absurd heq (hne (by decide)), ?_⟩
  · exact heq.elim (absurd · (hne (by decide))) (absurd · (hne (by decide)))
  · rintro hclean _ _ ⟨⟩
    exact h hclean

/-- A node that is well placed, and whose children are well formed, is well formed. -/
theorem formed_of_everywhere (h : tree.Everywhere (Grown true)) : tree.Formed := by
  induction h with
  | token leaf => exact .token leaf
  | node here _ ih =>
      obtain ⟨hshaped, hadmits, -⟩ := here.placed rfl _ _ rfl
      exact .node hshaped hadmits ih

end SyntaxTree

namespace Cursor

variable {cursor : Cursor}

/-- Where the text is not over, the next token is taken. -/
theorem took (hended : cursor.Ended) (hpeek : cursor.peek.kind ≠ .endOfFile) :
    SyntaxTree.Took cursor.nesting cursor.peek (cursor.nextTokens.map .token) where
  significant := isSignificant_peek hended hpeek
  split := by
    obtain ⟨skipped, hnext, hskipped⟩ := exists_nextTokens_eq hended hpeek
    refine ⟨skipped, congrArg (List.map SyntaxTree.token) hnext, fun other hother => ?_⟩
    have hskip := hskipped other hother
    rwa [isSkippable_eq, Bool.or_eq_true] at hskip

/-- A cursor that has met nothing wrong, before tokens of which the strings are well written. -/
structure Fit (cursor : Cursor) : Prop where
  sound : cursor.Sound
  readable : ∀ token ∈ cursor.rest, token.Readable

theorem Fit.behind (h : cursor.Fit) : cursor.behind.Fit where
  sound := h.sound.behind
  readable token htoken := h.readable token (by
    rw [cursor.rest_eq]
    exact List.mem_append_right _ htoken)

theorem Fit.enter (h : cursor.Fit) : cursor.enter.Fit := ⟨h.sound.enter, h.readable⟩

theorem Fit.leave (h : cursor.Fit) : cursor.leave.Fit := ⟨h.sound.leave, h.readable⟩

theorem Fit.restart (h : cursor.Fit) : (cursor.mark false).Fit := by rwa [h.sound.restart]

/-- The next token is well written, unless the text is over. -/
theorem Fit.readable_peek (h : cursor.Fit) : cursor.peek.Readable := by
  rcases List.mem_append.mp cursor.peek_mem with hmem | hmem
  · exact h.readable _ hmem
  · rw [List.mem_singleton.mp hmem]
    intro hstring
    rw [h.sound.ended] at hstring
    cases hstring

end Cursor

end NovelAsm
