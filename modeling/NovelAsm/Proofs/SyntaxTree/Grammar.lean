import NovelAsm.Proofs.SyntaxTree.Lossless

/-!
The grammar of the trees of texts. If nothing is wrong with a text, its tree is well formed
(`ParsedSource.read_formed`). Whatever is wrong with it: operators stand in the order of their
powers (`ParsedSource.read_ordered`), names are read by tokens that may spell them
(`ParsedSource.read_asks`), and lines begin with their words (`ParsedSource.read_linesBegin`).
-/

namespace NovelAsm

namespace SyntaxTree

/-! ## The tokens that names are spelled by -/

/-- The tokens by which the names and registers of a tree are read have a property. -/
inductive Asks (P : Token → Prop) : SyntaxTree → Prop
  | token (leaf : Token) : Asks P (.token leaf)
  | node {kind : SyntaxKind} {children : List SyntaxTree}
      (hall : ∀ child ∈ children, Asks P child)
      (hname : kind = .nameExpr ∨ kind = .registerExpr →
        ∀ token, (SyntaxTree.node kind children).firstSignificant? = some token → P token)
      (hregisters : ∀ token ∈ (SyntaxTree.node kind children).tokens,
        token.kind = .register → P token) : Asks P (.node kind children)

/-- The same for trees in a row. -/
def AllAsk (P : Token → Prop) (trees : List SyntaxTree) : Prop := ∀ tree ∈ trees, tree.Asks P

theorem allAsk_nil {P : Token → Prop} : AllAsk P [] := nofun

theorem AllAsk.cons {P : Token → Prop} {tree : SyntaxTree} {trees : List SyntaxTree}
    (h : tree.Asks P) (hothers : AllAsk P trees) : AllAsk P (tree :: trees) :=
  List.forall_mem_cons.mpr ⟨h, hothers⟩

/-! ## The words of instructions -/

/-- A tree that begins with a word of its own if it is an instruction. -/
def BeginsWithWord (tree : SyntaxTree) : Prop :=
  tree.kind? = some .instruction → Worded tree.children

/-- A tree begins with its word, and so does every line in it. -/
structure LinesBegin (tree : SyntaxTree) : Prop where
  here : tree.BeginsWithWord
  below : tree.kind?.any SyntaxKind.holdsLines = true →
    ∀ child ∈ tree.children, child.BeginsWithWord

theorem Everywhere.holds {P : SyntaxTree → Prop} {tree : SyntaxTree} (h : tree.Everywhere P)
    (hnode : tree.isNode = true) : P tree := by
  cases h with
  | token leaf => cases hnode
  | node here _ => exact here

theorem Everywhere.of_mem {P : SyntaxTree → Prop} {tree child : SyntaxTree} (h : tree.Everywhere P)
    (hchild : child ∈ tree.children) : child.Everywhere P := by
  cases h with
  | token leaf => cases hchild
  | node _ below => exact below child hchild

theorem beginsWithWord_of_grown {clean : Bool} {tree : SyntaxTree}
    (h : tree.Everywhere (Grown clean)) : tree.BeginsWithWord := fun hkind =>
  (h.holds (by rw [isNode, hkind]; rfl)).worded hkind

theorem asks_of_grown {clean : Bool} {tree : SyntaxTree} (h : tree.Everywhere (Grown clean)) :
    tree.Asks Token.MaySpell := by
  induction h with
  | token leaf => exact .token leaf
  | node here _ ih =>
      refine .node ih (fun hkind => here.spelled ?_) fun _ _ hregister => .inr (.inl hregister)
      exact hkind.imp (congrArg some) (congrArg some)

end SyntaxTree

namespace ParsedSource

open SyntaxTree

variable {source : Bytes} {place : Location}

/-- The tree of a text that is parsed without a complaint is well formed. -/
theorem read_formed (h : (read source place).diagnostics = []) :
    (read source place).tree.FormedAs (· == .sourceFile) := by
  have hgrown := read_grown source place
  rw [h] at hgrown
  refine ⟨formed_of_everywhere hgrown, ?_⟩
  rw [tree_read]
  rfl

theorem read_children_formed (h : (read source place).diagnostics = []) :
    AllFormed SyntaxKind.isItem (read source place).tree.children := by
  obtain ⟨outcome, said, hreading⟩ := exists_reading source place
  have hfile := (read_formed h).1
  rw [hreading.read_eq] at hfile ⊢
  exact hfile.children

/-- Operators are parsed by their powers, and to the left first. Everywhere in the tree of a text
a binary operator has two operands, an operator binds at least as tightly as it does where it is
the left operand, and tighter where it is the right one; and no binary operator is what a unary
one is applied to. -/
theorem read_ordered (source : Bytes) (place : Location) :
    (read source place).tree.Everywhere SyntaxTree.Ordered :=
  (read_grown source place).imp fun _ hgrown => hgrown.ordered

/-- The names of any text are read by identifiers, by registers or by line ends. -/
theorem read_asks (source : Bytes) (place : Location) :
    (read source place).tree.Asks Token.MaySpell := asks_of_grown (read_grown source place)

/-- The items of a text begin with their words, and so do the lines in them. -/
theorem read_linesBegin (source : Bytes) (place : Location) :
    ∀ item ∈ (read source place).tree.children, item.LinesBegin := by
  intro item hitem
  have hgrown := (read_grown source place).of_mem hitem
  exact ⟨beginsWithWord_of_grown hgrown, fun _ child hchild =>
    beginsWithWord_of_grown (hgrown.of_mem hchild)⟩

end ParsedSource

end NovelAsm
