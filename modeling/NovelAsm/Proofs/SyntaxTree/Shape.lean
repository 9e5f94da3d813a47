import NovelAsm.Proofs.SyntaxTree.Cursor

/-!
What an item looks like from its tokens, without trivia and places. A clean instruction or
definition holds no colon and no word that opens or closes an item, and ends before a line end; a
clean function or subroutine ends with its closing word, which it holds nowhere else. So where an
item ends can be told from the tokens alone.
-/

namespace NovelAsm

open Cursor

/-- The tokens of some trees, without trivia and places. -/
def SyntaxTree.seen (trees : List SyntaxTree) : List Token :=
  ((leavesOf trees).filter fun token => !token.isTrivia).map Token.bare

namespace SyntaxTree

theorem seen_append (trees more : List SyntaxTree) :
    seen (trees ++ more) = seen trees ++ seen more := by
  simp [seen, leavesOf_append]

theorem seen_tokens (tokens : List Token) :
    seen (tokens.map .token) = (tokens.filter fun token => !token.isTrivia).map Token.bare := by
  rw [seen, leavesOf_tokens]

@[simp] theorem seen_nil : seen [] = [] := rfl

theorem seen_node (kind : SyntaxKind) (trees : List SyntaxTree) :
    seen [.node kind trees] = seen trees := by
  simp [seen, leavesOf, leaves]

/-- What is seen of tokens is their core, but for the end of a text. -/
theorem coreAll_of_seen (tokens : List Token) : coreAll (tokens.map .token) =
    ((seen (tokens.map .token)).filter Token.isSignificant).map .token := by
  rw [coreAll_tokens, seen_tokens, List.filter_map, List.filter_filter, List.map_map]
  refine congrArg (List.map _) (List.filter_congr fun token _ => ?_)
  change token.isSignificant = (token.isSignificant && !token.isTrivia)
  cases htrivia : token.isTrivia <;> simp [Token.isSignificant, htrivia]

theorem coreAll_congr_seen {tokens others : List Token}
    (h : seen (others.map .token) = seen (tokens.map .token)) :
    coreAll (others.map .token) = coreAll (tokens.map .token) := by
  rw [coreAll_of_seen, coreAll_of_seen, h]

end SyntaxTree

namespace Parser

/-- A kind of token that an instruction takes. -/
def isInner (kind : TokenKind) : Bool :=
  kind != .mark .colon && kind != .newline && kind != .endOfFile && !isItemKeyword kind

theorem isInner_ne {kind : TokenKind} (h : isInner kind = true) :
    kind ≠ .mark .colon ∧ kind ≠ .newline ∧ kind ≠ .endOfFile ∧ isItemKeyword kind = false := by
  simpa [isInner, and_assoc] using h

/-- Tokens as they stand in instructions: line ends occur in brackets alone. -/
structure Plain (taken : List Token) : Prop where
  inner : ∀ token ∈ taken, token.kind ≠ .mark .colon ∧ isItemKeyword token.kind = false
  last : ∀ token ∈ taken.getLast?, token.kind ≠ .newline

/-- Whether a line ends before some tokens. -/
def endsLine (rest : List Token) : Bool := isLineEnd (ahead 0 rest).kind

/-- Tokens without the word that closes a body. -/
def Open (closer : Keyword) (taken : List Token) : Prop :=
  ∀ token ∈ taken, token.kind ≠ .keyword closer

theorem Open.append {closer : Keyword} {taken more : List Token} (h : Open closer taken)
    (hmore : Open closer more) : Open closer (taken ++ more) :=
  List.forall_mem_append.mpr ⟨h, hmore⟩

/-- The tokens from the word that opens a function or subroutine to the one that closes it. -/
def Encloses (opener closer : Keyword) (taken : List Token) : Prop :=
  ∃ word middle last, taken = word :: middle ++ [last] ∧ word.kind = .keyword opener ∧
    last.kind = .keyword closer ∧ Open closer middle

/-- The tokens of a clean item at the beginning of a line, and its tree. -/
inductive Shape : List Token → List Token → SyntaxTree → Prop
  | label {name colon : Token} {rest : List Token} (hname : name.kind = .identifier)
      (hcolon : colon.kind = .mark .colon) :
      Shape [name, colon] rest (.node .label [.token name, .token colon])
  | instruction {first : Token} {more rest : List Token} {tree : SyntaxTree}
      (hfirst : isInner first.kind = true) (hplain : Plain (first :: more))
      (hend : endsLine rest = true) (htree : tree.kind? = some .instruction) :
      Shape (first :: more) rest tree
  | definition {word : Token} {more rest : List Token} {tree : SyntaxTree}
      (hword : word.kind = .keyword .definition) (hplain : Plain more)
      (hend : endsLine rest = true) (htree : tree.kind? = some .definition) :
      Shape (word :: more) rest tree
  | function {taken rest : List Token} {tree : SyntaxTree}
      (htaken : Encloses .function .endFunction taken) (hend : endsLine rest = true)
      (htree : tree.kind? = some .functionDefinition) : Shape taken rest tree
  | subroutine {taken rest : List Token} {tree : SyntaxTree}
      (htaken : Encloses .subroutine .endSubroutine taken) (hend : endsLine rest = true)
      (htree : tree.kind? = some .subroutineDefinition) : Shape taken rest tree

end Parser

end NovelAsm
