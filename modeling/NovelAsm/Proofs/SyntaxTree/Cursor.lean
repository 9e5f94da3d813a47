import Mathlib.Data.List.TakeWhile
import NovelAsm.SyntaxTree.Parser
import NovelAsm.Proofs.SyntaxTree.Core

/-!
Where a parser stands. The tokens that are left begin with the next one and the trivia before
it, and go on with those behind it. What a parser sees of them is its view: the tokens without
trivia and places, of which it passes over the line ends that stand in brackets.
-/

namespace NovelAsm

namespace TokenKind

/-- How deep in brackets the tokens behind one of a kind stand. -/
def depthBehind : TokenKind → Nat → Nat
  | .mark .leftParen, depth | .mark .leftBracket, depth | .mark .leftBrace, depth => depth + 1
  | .mark .rightParen, depth | .mark .rightBracket, depth | .mark .rightBrace, depth => depth - 1
  | _, depth => depth

/-- Whether a token of a kind is an operand by itself, before one of another kind. -/
def isOperandBefore (kind second : TokenKind) : Bool :=
  match kind with
  | .integerLiteral | .realLiteral | .stringLiteral | .register => true
  | .identifier => second != .mark .leftParen
  | _ => false

/-- A token of a kind that is no bracket. -/
def IsFlat (kind : TokenKind) : Prop := ∀ depth, kind.depthBehind depth = depth

/-- A token of a kind that opens or closes brackets. -/
def Opens (kind : TokenKind) : Prop := ∀ depth, kind.depthBehind depth = depth + 1

def Closes (kind : TokenKind) : Prop := ∀ depth, kind.depthBehind (depth + 1) = depth

theorem isFlat_of_isOperandBefore {kind second : TokenKind}
    (h : kind.isOperandBefore second = true) : kind.IsFlat := by
  cases kind with
  | mark mark => cases h
  | _ => exact fun _ => rfl

end TokenKind

namespace Cursor

variable {cursor : Cursor}

/-- The cursor at another depth of brackets. -/
def level (cursor : Cursor) (depth : Nat) : Cursor := { cursor with nesting := depth }

/-- What the next token leaves as it was. -/
theorem behind_eq (cursor : Cursor) :
    cursor.behind = { cursor with rest := cursor.behind.rest } := by
  simp only [behind]
  split <;> rfl

@[simp] theorem finish_behind (cursor : Cursor) : cursor.behind.finish = cursor.finish := by
  rw [behind_eq]

@[simp] theorem nesting_behind (cursor : Cursor) : cursor.behind.nesting = cursor.nesting := by
  rw [behind_eq]

@[simp] theorem operandFailed_behind (cursor : Cursor) :
    cursor.behind.operandFailed = cursor.operandFailed := by
  rw [behind_eq]

theorem level_behind (cursor : Cursor) : cursor.behind.level cursor.nesting = cursor.behind := by
  rw [level, ← nesting_behind]

theorem enter_behind (cursor : Cursor) :
    cursor.behind.enter = cursor.behind.level (cursor.nesting + 1) := by
  rw [enter, level, nesting_behind]

theorem leave_behind (cursor : Cursor) :
    cursor.behind.leave = cursor.behind.level (cursor.nesting - 1) := by
  rw [leave, level, nesting_behind]

/-- What is left are the tokens up to the next one that counts, and those behind it. -/
theorem rest_eq (cursor : Cursor) : cursor.rest = cursor.nextTokens ++ cursor.behind.rest := by
  have hsplit := List.takeWhile_append_dropWhile (p := cursor.isSkippable) (l := cursor.rest)
  simp only [nextTokens, behind]
  cases hdrop : cursor.rest.dropWhile cursor.isSkippable with
  | nil => rfl
  | cons token rest =>
      rw [hdrop] at hsplit
      simpa using hsplit.symm

/-- The next token is one that is left, or the end of the text. -/
theorem peek_mem (cursor : Cursor) : cursor.peek ∈ cursor.rest ++ [cursor.finish] := by
  rw [peek]
  cases hfind : cursor.rest.find? fun token => !cursor.isSkippable token with
  | none => exact List.mem_append_right _ (List.mem_singleton_self _)
  | some token => exact List.mem_append_left _ (List.mem_of_find?_eq_some hfind)

theorem peek_eq_head? (cursor : Cursor) :
    cursor.peek = (cursor.rest.dropWhile cursor.isSkippable).head?.getD cursor.finish := by
  rw [peek, List.find?_eq_head?_dropWhile_not]
  simp only [Bool.not_not]

/-- The token behind the next one is the next one behind it. -/
theorem peek_behind (cursor : Cursor) : cursor.behind.peek = cursor.peekSecond := by
  simp only [behind, peekSecond]
  cases hdrop : cursor.rest.dropWhile cursor.isSkippable with
  | nil => rw [peek_eq_head?, hdrop, List.head?_nil, Option.getD_none]
  | cons token rest => rfl

/-- A cursor before the end of a text. -/
def Ended (cursor : Cursor) : Prop := cursor.finish.kind = .endOfFile

/-- Where the text is not over, the next token stands behind trivia and line ends that do not
count. -/
theorem exists_nextTokens_eq (hended : cursor.Ended) (hpeek : cursor.peek.kind ≠ .endOfFile) :
    ∃ skipped, cursor.nextTokens = skipped ++ [cursor.peek] ∧
      ∀ token ∈ skipped, cursor.isSkippable token = true := by
  have hnext := peek_eq_head? cursor
  cases hdrop : cursor.rest.dropWhile cursor.isSkippable with
  | nil =>
      rw [hdrop, List.head?_nil, Option.getD_none] at hnext
      exact absurd (hnext ▸ hended) hpeek
  | cons token rest =>
      rw [hdrop, List.head?_cons, Option.getD_some] at hnext
      refine ⟨cursor.rest.takeWhile cursor.isSkippable, ?_, fun _ => List.mem_takeWhile_imp⟩
      simp only [nextTokens, hdrop, hnext]

/-- A token of the text is next only if it counts. -/
theorem isSkippable_peek (hended : cursor.Ended) (hpeek : cursor.peek.kind ≠ .endOfFile) :
    cursor.isSkippable cursor.peek = false := by
  cases hfind : cursor.rest.find? fun token => !cursor.isSkippable token with
  | none =>
      rw [peek, hfind, Option.getD_none] at hpeek
      exact absurd hended hpeek
  | some token =>
      have hcounts := List.find?_some hfind
      rw [peek, hfind, Option.getD_some]
      simpa using hcounts

theorem isTrivia_peek (hended : cursor.Ended) (hpeek : cursor.peek.kind ≠ .endOfFile) :
    cursor.peek.isTrivia = false :=
  (Bool.or_eq_false_iff.mp (isSkippable_peek hended hpeek)).1

theorem isSignificant_peek (hended : cursor.Ended) (hpeek : cursor.peek.kind ≠ .endOfFile) :
    cursor.peek.isSignificant = true := by
  rw [Token.isSignificant, isTrivia_peek hended hpeek]
  simpa using hpeek

/-- Taking a token of the text leaves fewer of them. -/
theorem length_behind_lt (hended : cursor.Ended) (hpeek : cursor.peek.kind ≠ .endOfFile) :
    cursor.behind.rest.length < cursor.rest.length := by
  obtain ⟨skipped, hnext, -⟩ := exists_nextTokens_eq hended hpeek
  have hlength := congrArg List.length cursor.rest_eq
  rw [hnext, List.length_append, List.length_append, List.length_singleton] at hlength
  omega

theorem length_behind_le (cursor : Cursor) : cursor.behind.rest.length ≤ cursor.rest.length := by
  rw [cursor.rest_eq, List.length_append]
  exact Nat.le_add_left _ _

/-! ## What is seen of the tokens -/

/-- The tokens that are left, without trivia and places. -/
def view (cursor : Cursor) : List Token :=
  (cursor.rest.filter fun token => !token.isTrivia).map Token.bare

/-- The token at the end of every text, without its place. -/
def endToken : Token := ⟨.endOfFile, [], .origin⟩

/-- A line end that does not count, because it stands in brackets. -/
def isBreak (nesting : Nat) (token : Token) : Bool := 0 < nesting && token.kind == .newline

/-- The next token that counts. -/
def ahead (nesting : Nat) (tokens : List Token) : Token :=
  (tokens.find? fun token => !isBreak nesting token).getD endToken

theorem isSkippable_eq (cursor : Cursor) (token : Token) :
    cursor.isSkippable token = (token.isTrivia || isBreak cursor.nesting token) := rfl

/-- What counts in brackets counts outside of them. -/
theorem isSkippable_of_enter {token : Token} (h : cursor.enter.isSkippable token = false) :
    cursor.isSkippable token = false := by
  simp only [isSkippable, enter, Bool.or_eq_false_iff, Bool.and_eq_false_iff] at h ⊢
  exact h.imp_right fun hline => .inr (hline.resolve_left (by simp))

@[simp] theorem isBreak_bare (nesting : Nat) (token : Token) :
    isBreak nesting token.bare = isBreak nesting token := rfl

theorem kind_of_isBreak {nesting : Nat} {token : Token} (h : isBreak nesting token = true) :
    token.kind = .newline := by
  simp only [isBreak, Bool.and_eq_true, beq_iff_eq] at h
  exact h.2

theorem isBreak_of_kind_ne {nesting : Nat} {token : Token} (h : token.kind ≠ .newline) :
    isBreak nesting token = false := by
  simp [isBreak, h]

theorem eq_nil_of_breaks {front : List Token} (h : ∀ other ∈ front, isBreak 0 other = true) :
    front = [] :=
  List.eq_nil_iff_forall_not_mem.mpr fun other hother => by cases h other hother

theorem ahead_zero_cons (token : Token) (rest : List Token) : ahead 0 (token :: rest) = token :=
  rfl

theorem ahead_zero_append {tokens : List Token} (hne : tokens ≠ []) (more : List Token) :
    ahead 0 (tokens ++ more) = ahead 0 tokens := by
  obtain ⟨token, rest, rfl⟩ := List.exists_cons_of_ne_nil hne
  rfl

theorem ahead_front {nesting : Nat} {front : List Token} (token : Token) (rest : List Token)
    (hfront : ∀ other ∈ front, isBreak nesting other = true)
    (htoken : isBreak nesting token = false) :
    ahead nesting (front ++ token :: rest) = token := by
  have hnone : front.find? (fun other => !isBreak nesting other) = none := by
    simpa using hfront
  simp [ahead, List.find?_append, hnone, htoken]

/-- What follows is looked at only when all that stands before it is passed over. -/
theorem ahead_append {nesting : Nat} {taken behind other : List Token}
    (h : (∃ token ∈ taken, token.kind ≠ .newline) ∨ ahead nesting other = ahead nesting behind) :
    ahead nesting (taken ++ other) = ahead nesting (taken ++ behind) := by
  simp only [ahead, List.find?_append]
  cases hfound : taken.find? fun token => !isBreak nesting token with
  | some token => rfl
  | none =>
      rcases h with ⟨token, htoken, hkind⟩ | h
      · have := List.find?_eq_none.mp hfound token htoken
        simp [isBreak_of_kind_ne hkind] at this
      · exact h

/-- Tokens are line ends that do not count, or some of these stand before one that counts. -/
theorem exists_front (nesting : Nat) (tokens : List Token) :
    (∀ token ∈ tokens, isBreak nesting token = true) ∨
      ∃ front token rest, tokens = front ++ token :: rest ∧
        (∀ other ∈ front, isBreak nesting other = true) ∧ isBreak nesting token = false := by
  have hsplit := List.takeWhile_append_dropWhile (p := isBreak nesting) (l := tokens)
  cases hdrop : tokens.dropWhile (isBreak nesting) with
  | nil => exact .inl (List.dropWhile_eq_nil_iff.mp hdrop)
  | cons token rest =>
      rw [hdrop] at hsplit
      refine .inr ⟨_, token, rest, hsplit.symm,
        fun other hother => List.mem_takeWhile_imp hother, ?_⟩
      have hhead := List.head?_dropWhile_not (isBreak nesting) tokens
      simpa [hdrop] using hhead

/-- The front of what is taken is determined by the tokens. -/
theorem front_unique {nesting : Nat} {front other : List Token} {token twin : Token}
    {rest behind : List Token} (hfront : ∀ t ∈ front, isBreak nesting t = true)
    (hother : ∀ t ∈ other, isBreak nesting t = true) (htoken : isBreak nesting token = false)
    (htwin : isBreak nesting twin = false)
    (h : front ++ token :: rest = other ++ twin :: behind) :
    front = other ∧ token = twin ∧ rest = behind := by
  induction front generalizing other with
  | nil =>
      cases other with
      | nil => simpa using h
      | cons first more =>
          obtain ⟨rfl, -⟩ := List.cons.inj h
          simp [hother] at htoken
  | cons first more ih =>
      cases other with
      | nil =>
          obtain ⟨rfl, -⟩ := List.cons.inj h
          simp [hfront] at htwin
      | cons second others =>
          obtain ⟨rfl, hrest⟩ := List.cons.inj h
          obtain ⟨rfl, htokens⟩ := ih (fun t ht => hfront t (List.mem_cons_of_mem _ ht))
            (fun t ht => hother t (List.mem_cons_of_mem _ ht)) hrest
          exact ⟨rfl, htokens⟩

/-- The next token before the end of a text, which has no place that matters. -/
theorem bare_peek (hfinish : cursor.finish.bare = endToken) :
    cursor.peek.bare = ahead cursor.nesting cursor.view := by
  have hfind : cursor.view.find? (fun token => !isBreak cursor.nesting token) =
      (cursor.rest.find? fun token => !cursor.isSkippable token).map Token.bare := by
    simp only [view, List.find?_map, List.find?_filter]
    congr 2
    funext token
    simp [isSkippable_eq]
  simp only [peek, ahead, hfind]
  cases cursor.rest.find? fun token => !cursor.isSkippable token with
  | none => exact hfinish
  | some token => rfl

theorem kind_peek (hfinish : cursor.finish.bare = endToken) :
    cursor.peek.kind = (ahead cursor.nesting cursor.view).kind := by
  rw [← bare_peek hfinish, Token.kind_bare]

theorem ended_of_bare (hfinish : cursor.finish.bare = endToken) : cursor.Ended := by
  rw [Ended, ← Token.kind_bare, hfinish]
  rfl

/-- What is next in the view, in front of the view behind it. -/
structure Next (cursor : Cursor) (front : List Token) (token : Token) : Prop where
  view_eq : cursor.view = front ++ token :: cursor.behind.view
  front_breaks : ∀ other ∈ front, isBreak cursor.nesting other = true
  not_break : isBreak cursor.nesting token = false

/-- Where the text is not over, the next token is seen behind line ends that do not count. -/
theorem exists_next (hended : cursor.Ended) (hpeek : cursor.peek.kind ≠ .endOfFile) :
    ∃ front, cursor.Next front cursor.peek.bare ∧
      (cursor.nextTokens.filter fun token => !token.isTrivia).map Token.bare =
        front ++ [cursor.peek.bare] := by
  obtain ⟨skipped, hnext, hskipped⟩ := exists_nextTokens_eq hended hpeek
  have hpeekCounts := isSkippable_peek hended hpeek
  rw [isSkippable_eq, Bool.or_eq_false_iff] at hpeekCounts
  have htokens : (cursor.nextTokens.filter fun token => !token.isTrivia).map Token.bare =
      (skipped.filter fun token => !token.isTrivia).map Token.bare ++ [cursor.peek.bare] := by
    rw [hnext, List.filter_append, List.map_append,
      List.filter_cons_of_pos (by simp [hpeekCounts.1])]
    rfl
  refine ⟨_, ⟨?_, fun other hother => ?_, hpeekCounts.2⟩, htokens⟩
  · have hview : cursor.view =
      (cursor.nextTokens.filter fun token => !token.isTrivia).map Token.bare ++
        cursor.behind.view := by
      rw [view, cursor.rest_eq, List.filter_append, List.map_append]
      rfl
    rw [hview, htokens, List.append_assoc, List.singleton_append]
  · obtain ⟨first, hfirst, rfl⟩ := List.mem_map.mp hother
    obtain ⟨hmem, htrivia⟩ := List.mem_filter.mp hfirst
    have hskip := hskipped first hmem
    rw [isSkippable_eq, Bool.or_eq_true] at hskip
    exact hskip.resolve_left (by simpa using htrivia)

/-- The token behind the next one is the next one of what stands behind. -/
theorem bare_peekSecond (hfinish : cursor.finish.bare = endToken) : cursor.peekSecond.bare =
    ahead cursor.nesting (cursor.view.dropWhile (isBreak cursor.nesting)).tail := by
  have hsplit := List.takeWhile_append_dropWhile (p := cursor.isSkippable) (l := cursor.rest)
  have hview := congrArg (fun tokens => (tokens.filter fun token => !token.isTrivia).map Token.bare)
    hsplit
  simp only [List.filter_append, List.map_append] at hview
  have hfront : ∀ token ∈ ((cursor.rest.takeWhile cursor.isSkippable).filter
      fun token => !token.isTrivia).map Token.bare, isBreak cursor.nesting token = true := by
    intro token htoken
    obtain ⟨first, hfirst, rfl⟩ := List.mem_map.mp htoken
    obtain ⟨hmem, htrivia⟩ := List.mem_filter.mp hfirst
    have hskip := List.mem_takeWhile_imp hmem
    rw [isSkippable_eq, Bool.or_eq_true] at hskip
    exact hskip.resolve_left (by simpa using htrivia)
  rw [view, ← hview, List.dropWhile_append_of_pos hfront]
  simp only [peekSecond]
  cases hdrop : cursor.rest.dropWhile cursor.isSkippable with
  | nil => exact hfinish
  | cons token rest =>
      have hcounts : cursor.isSkippable token = false := by
        have hhead := List.head?_dropWhile_not cursor.isSkippable cursor.rest
        simpa [hdrop] using hhead
      rw [isSkippable_eq, Bool.or_eq_false_iff] at hcounts
      have hnext := @bare_peek { cursor with rest } hfinish
      rw [List.filter_cons_of_pos (by simp [hcounts.1]), List.map_cons,
        List.dropWhile_cons_of_neg (by simp [hcounts.2])]
      exact hnext

/-! ## Cursors that have met nothing wrong -/

/-- No token is left that could not be read, the end of the text is not among the tokens before
it, and no operand of the line is missing. -/
structure Sound (cursor : Cursor) : Prop where
  finish : cursor.finish.bare = endToken
  inside : ∀ token ∈ cursor.rest, token.kind ≠ .endOfFile ∧ token.kind ≠ .invalid
  notFailed : cursor.operandFailed = false

theorem Sound.ended (h : cursor.Sound) : cursor.Ended := ended_of_bare h.finish

theorem Sound.behind (h : cursor.Sound) : cursor.behind.Sound where
  finish := by rw [finish_behind, h.finish]
  inside token htoken := h.inside token (by
    rw [cursor.rest_eq]
    exact List.mem_append_right _ htoken)
  notFailed := by rw [operandFailed_behind, h.notFailed]

/-- Soundness has nothing to do with brackets. -/
theorem Sound.enter (h : cursor.Sound) : cursor.enter.Sound := ⟨h.finish, h.inside, h.notFailed⟩

theorem Sound.leave (h : cursor.Sound) : cursor.leave.Sound := ⟨h.finish, h.inside, h.notFailed⟩

/-- A line forgets what failed before it. -/
theorem Sound.restart (h : cursor.Sound) : cursor.mark false = cursor := by
  rw [mark, ← h.notFailed]

theorem Sound.view_inside (h : cursor.Sound) {token : Token} (htoken : token ∈ cursor.view) :
    token.kind ≠ .endOfFile ∧ token.kind ≠ .invalid := by
  obtain ⟨first, hfirst, rfl⟩ := List.mem_map.mp htoken
  exact h.inside first (List.mem_filter.mp hfirst).1

theorem Sound.kind_peek_ne (h : cursor.Sound) : cursor.peek.kind ≠ .invalid := by
  rcases List.mem_append.mp cursor.peek_mem with hmem | hmem
  · exact (h.inside _ hmem).2
  · rw [List.mem_singleton.mp hmem, h.ended]
    decide

end Cursor

end NovelAsm
