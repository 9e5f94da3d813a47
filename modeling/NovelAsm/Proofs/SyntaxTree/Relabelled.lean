import NovelAsm.Proofs.SyntaxTree.Lossless

/-!
Parsers look at the kinds of tokens, and at the text of a token only where a flag may stand. A
relabelling changes tokens otherwise: places and texts, and it may make no flag of what is none.
Before relabelled tokens a run is in lockstep with the one before the tokens themselves
(`Parser.relabelled`): it makes the relabelled trees and says the same of relabelled places, unless
they hold a flag that is none anymore (`Parser.Run.relabelled`).
-/

namespace NovelAsm

/-- A change of tokens that keeps their kinds and makes no flag of a name, with the change of
diagnostics that goes with it. -/
structure Relabelling where
  change : Token → Token
  move : Diagnostic → Diagnostic
  kind_change : ∀ token, (change token).kind = token.kind
  isFlag_change : ∀ token, (Flag.ofText? (change token).text).isSome = true →
    (Flag.ofText? token.text).isSome = true
  move_error : ∀ code message token, move (.error code message token.span) =
    .error code message (change token).span

namespace SyntaxTree

mutual

/-- A tree with other tokens. -/
def relabel (change : Token → Token) : SyntaxTree → SyntaxTree
  | .token leaf => .token (change leaf)
  | .node kind children => .node kind (relabelAll change children)

def relabelAll (change : Token → Token) : List SyntaxTree → List SyntaxTree
  | [] => []
  | tree :: rest => relabel change tree :: relabelAll change rest

end

mutual

/-- The tokens that stand in flags. -/
def flagTokens : SyntaxTree → List Token
  | .token _ => []
  | .node .flag children => leavesOf children
  | .node _ children => flagTokensOf children

def flagTokensOf : List SyntaxTree → List Token
  | [] => []
  | tree :: rest => flagTokens tree ++ flagTokensOf rest

end

section Relabelled

variable {change : Token → Token}

@[simp] theorem relabelAll_nil : relabelAll change [] = [] := rfl

@[simp] theorem relabelAll_cons (tree : SyntaxTree) (rest : List SyntaxTree) :
    relabelAll change (tree :: rest) = tree.relabel change :: relabelAll change rest := rfl

@[simp] theorem relabel_token (leaf : Token) :
    (SyntaxTree.token leaf).relabel change = .token (change leaf) := rfl

@[simp] theorem relabel_node (kind : SyntaxKind) (children : List SyntaxTree) :
    (SyntaxTree.node kind children).relabel change = .node kind (relabelAll change children) := rfl

theorem relabelAll_eq_map (trees : List SyntaxTree) :
    relabelAll change trees = trees.map (relabel change) := by
  induction trees with
  | nil => rfl
  | cons tree rest ih => rw [relabelAll_cons, ih, List.map_cons]

@[simp] theorem relabelAll_append (trees more : List SyntaxTree) :
    relabelAll change (trees ++ more) = relabelAll change trees ++ relabelAll change more := by
  simp only [relabelAll_eq_map, List.map_append]

@[simp] theorem relabelAll_tokens (tokens : List Token) :
    relabelAll change (tokens.map token) = (tokens.map change).map token := by
  rw [relabelAll_eq_map, List.map_map, List.map_map]
  rfl

end Relabelled

@[simp] theorem flagTokensOf_nil : flagTokensOf [] = [] := rfl

@[simp] theorem flagTokensOf_cons (tree : SyntaxTree) (rest : List SyntaxTree) :
    flagTokensOf (tree :: rest) = tree.flagTokens ++ flagTokensOf rest := rfl

@[simp] theorem flagTokensOf_append (trees more : List SyntaxTree) :
    flagTokensOf (trees ++ more) = flagTokensOf trees ++ flagTokensOf more := by
  induction trees with
  | nil => rfl
  | cons tree rest ih =>
      rw [List.cons_append, flagTokensOf_cons, ih, flagTokensOf_cons, List.append_assoc]

theorem flagTokens_node {kind : SyntaxKind} (h : kind ≠ .flag) (children : List SyntaxTree) :
    (SyntaxTree.node kind children).flagTokens = flagTokensOf children := by
  cases kind with
  | flag => exact absurd rfl h
  | _ => rfl

end SyntaxTree

namespace Relabelling

/-- Whether names that were flags are flags still. -/
def Keeps (labels : Relabelling) (tokens : List Token) : Prop :=
  ∀ token ∈ tokens, (Flag.ofText? token.text).isSome = true →
    (Flag.ofText? (labels.change token).text).isSome = true

@[simp] theorem keeps_nil (labels : Relabelling) : labels.Keeps [] := nofun

@[simp] theorem keeps_append (labels : Relabelling) (tokens more : List Token) :
    labels.Keeps (tokens ++ more) ↔ labels.Keeps tokens ∧ labels.Keeps more :=
  List.forall_mem_append

end Relabelling

namespace Cursor

/-- A cursor before relabelled tokens. -/
def relabel (labels : Relabelling) (cursor : Cursor) : Cursor :=
  { cursor with rest := cursor.rest.map labels.change, finish := labels.change cursor.finish }

variable (labels : Relabelling) (cursor : Cursor)

theorem isSkippable_change (token : Token) :
    (cursor.relabel labels).isSkippable (labels.change token) = cursor.isSkippable token := by
  simp only [isSkippable, Token.isTrivia, labels.kind_change]
  rfl

theorem isSkippable_comp_change :
    (cursor.relabel labels).isSkippable ∘ labels.change = cursor.isSkippable :=
  funext (isSkippable_change labels cursor)

theorem peek_relabel : (cursor.relabel labels).peek = labels.change cursor.peek := by
  have hfind : (fun token => !(cursor.relabel labels).isSkippable token) ∘ labels.change =
      fun token => !cursor.isSkippable token :=
    funext fun token => congrArg (!·) (isSkippable_change labels cursor token)
  change ((cursor.rest.map labels.change).find? _).getD (labels.change cursor.finish) = _
  rw [List.find?_map, hfind, Option.getD_map]
  rfl

theorem dropWhile_relabel :
    (cursor.relabel labels).rest.dropWhile (cursor.relabel labels).isSkippable =
      (cursor.rest.dropWhile cursor.isSkippable).map labels.change := by
  change (cursor.rest.map labels.change).dropWhile _ = _
  rw [List.dropWhile_map, isSkippable_comp_change]

theorem takeWhile_relabel :
    (cursor.relabel labels).rest.takeWhile (cursor.relabel labels).isSkippable =
      (cursor.rest.takeWhile cursor.isSkippable).map labels.change := by
  change (cursor.rest.map labels.change).takeWhile _ = _
  rw [List.takeWhile_map, isSkippable_comp_change]

theorem behind_relabel : (cursor.relabel labels).behind = cursor.behind.relabel labels := by
  simp only [behind, dropWhile_relabel]
  cases cursor.rest.dropWhile cursor.isSkippable <;> rfl

theorem nextTokens_relabel :
    (cursor.relabel labels).nextTokens = cursor.nextTokens.map labels.change := by
  simp only [nextTokens, dropWhile_relabel, takeWhile_relabel]
  cases cursor.rest.dropWhile cursor.isSkippable with
  | nil => rfl
  | cons token rest =>
      rw [List.map_append]
      rfl

theorem peekSecond_relabel :
    (cursor.relabel labels).peekSecond = labels.change cursor.peekSecond := by
  rw [← peek_behind, behind_relabel, peek_relabel, peek_behind]

end Cursor

namespace Parser

open SyntaxTree Cursor

variable {labels : Relabelling}

/-- The next token is a flag in front of relabelled tokens only if it was one. -/
theorem isFlag_relabel {cursor : Cursor} (hended : cursor.Ended)
    (hkeeps : isFlag cursor = true → labels.Keeps cursor.nextTokens) :
    isFlag (cursor.relabel labels) = isFlag cursor := by
  have htext : (Flag.ofText? (labels.change cursor.peek).text).isSome = true →
      (Flag.ofText? cursor.peek.text).isSome = true := labels.isFlag_change cursor.peek
  rw [Bool.eq_iff_iff]
  constructor
  · intro hflag
    simp only [isFlag, peek_relabel, peekSecond_relabel, labels.kind_change, Bool.and_eq_true]
      at hflag ⊢
    exact hflag.imp_left (And.imp_right htext)
  · intro hflag
    have hname := (isOperandBefore_of_isFlag hflag).1
    obtain ⟨skipped, hnext, -⟩ := exists_nextTokens_eq hended (hname ▸ by decide)
    have hkept := hkeeps hflag cursor.peek (by simp [hnext])
    simp only [isFlag, peek_relabel, peekSecond_relabel, labels.kind_change, Bool.and_eq_true]
      at hflag ⊢
    exact hflag.imp_left (And.imp_right hkept)

/-- Relabelled tokens make relabelled trees. -/
def relabelled (labels : Relabelling) : Lockstep where
  near cursor twin := cursor.Ended ∧ twin = cursor.relabel labels
  asks _ trees _ := labels.Keeps (flagTokensOf trees)
  same trees copies := copies = relabelAll labels.change trees
  tells said copy := copy = said.map labels.move
  same_nil := rfl
  same_append h hmore := by rw [relabelAll_append, h, hmore]
  same_node _ h := by rw [h]; rfl
  tells_nil := List.map_nil.symm
  tells_append h hmore := by rw [List.map_append, h, hmore]
  asks_tail h := by
    rw [flagTokensOf_append, labels.keeps_append] at h
    exact h.2
  asks_front _ h := by
    rw [flagTokensOf_append, labels.keeps_append] at h
    exact h.1
  asks_node hkind h := by
    rwa [flagTokensOf_cons, flagTokensOf_nil, List.append_nil,
      flagTokens_node fun hflag => by rw [hflag] at hkind; cases hkind] at h
  asks_inside _ _ _ h := by
    rw [flagTokensOf_append, labels.keeps_append] at h
    exact h.1
  asks_unclosed h := h
  nesting_eq h := by rw [h.2]; rfl
  kind_peek h _ := by rw [h.2, peek_relabel, labels.kind_change]
  kind_peekSecond h _ _ _ _ := by rw [h.2, peekSecond_relabel, labels.kind_change]
  isFlag_eq h _ _ hkeeps hflag := by
    rw [h.2]
    refine isFlag_relabel h.1 fun hisFlag => ?_
    obtain ⟨more, htrees⟩ := hflag hisFlag
    rw [htrees, flagTokensOf_cons, labels.keeps_append] at hkeeps
    have htokens := hkeeps.1
    rwa [flagTokens, leavesOf_tokens] at htokens
  take {_ depth cursor _} h _ _ _ := by
    rw [h.2, nextTokens_relabel, behind_relabel, relabelAll_tokens]
    refine ⟨rfl, ?_, rfl⟩
    change cursor.behind.Ended
    rw [Ended, finish_behind, h.1]
  leaf {_ _ cursor _} h _ _ _ := by
    rw [h.2, nextTokens_relabel, behind_relabel, relabelAll_cons, relabel_node, relabelAll_tokens]
    refine ⟨rfl, ?_, rfl⟩
    rw [Ended, finish_behind, h.1]
  leave h _ := ⟨h.1, by rw [h.2]; rfl⟩
  report problem h _ := by
    rw [complaint, complaint, h.2, peek_relabel, List.map_singleton, labels.move_error]
  fail h _ := ⟨h.1, by rw [h.2]; rfl⟩
  restart h := ⟨h.1, by rw [h.2]; rfl⟩
  failed_eq h := by rw [h.2]; rfl

/-- Run before relabelled tokens, a parser makes the relabelled trees and says the same of
relabelled places, unless a flag in them is none anymore. -/
theorem Run.relabelled {parser : Parser PUnit} {allowed : Allowed} {clean : Bool}
    {state twin : ParseState} {outcome : Outcome PUnit} {said : Diagnostics}
    (h : Run allowed clean parser parser state outcome said) (hended : state.cursor.Ended)
    (htwin : twin.cursor = state.cursor.relabel labels)
    (hkeeps : labels.Keeps (flagTokensOf outcome.trees)) (hsome : (parser twin).isSome = true) :
    Ends parser twin ⟨(), relabelAll labels.change outcome.trees, outcome.clean,
      outcome.cursor.relabel labels⟩ (said.map labels.move) := by
  obtain ⟨copy, more, hfollows⟩ := h.guides (Parser.relabelled labels) twin ⟨hended, htwin⟩ hkeeps
    hsome
  have htrees : copy.trees = relabelAll labels.change outcome.trees := hfollows.same
  have hcursor : copy.cursor = outcome.cursor.relabel labels := hfollows.near.2
  have hmore : more = said.map labels.move := hfollows.tells
  rw [← htrees, ← hcursor, ← hmore]
  exact hfollows.ends

end Parser

end NovelAsm
