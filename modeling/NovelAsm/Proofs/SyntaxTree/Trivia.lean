import NovelAsm.Proofs.SyntaxTree.Lossless

/-!
Parsers do not see trivia. Where two texts have the same tokens once trivia are left out, the
runs before them are in lockstep (`Parser.withoutTrivia`), also where they report something: an
error node takes tokens in the same way. So their trees have one core.
-/

namespace NovelAsm

namespace Parser

open SyntaxTree Cursor

/-- Two cursors that differ in trivia and places alone. -/
structure Twins (cursor twin : Cursor) : Prop where
  finish : cursor.finish.bare = endToken
  twinFinish : twin.finish.bare = endToken
  view_eq : twin.view = cursor.view
  nesting_eq : twin.nesting = cursor.nesting
  failed_eq : twin.operandFailed = cursor.operandFailed

variable {cursor twin : Cursor}

theorem Twins.bare_peek (h : Twins cursor twin) : twin.peek.bare = cursor.peek.bare := by
  rw [Cursor.bare_peek h.finish, Cursor.bare_peek h.twinFinish, h.view_eq, h.nesting_eq]

theorem Twins.bare_peekSecond (h : Twins cursor twin) :
    twin.peekSecond.bare = cursor.peekSecond.bare := by
  rw [Cursor.bare_peekSecond h.finish, Cursor.bare_peekSecond h.twinFinish, h.view_eq, h.nesting_eq]

/-- Twins take tokens of one core and stay twins. -/
theorem Twins.take (h : Twins cursor twin) (hpeek : cursor.peek.kind ≠ .endOfFile) :
    coreAll (twin.nextTokens.map .token) = coreAll (cursor.nextTokens.map .token) ∧
      Twins cursor.behind twin.behind := by
  have hkind : twin.peek.kind = cursor.peek.kind := Token.kind_of_bare h.bare_peek
  obtain ⟨front, hnext, hseen⟩ := exists_next (ended_of_bare h.finish) hpeek
  obtain ⟨other, htwin, htwinSeen⟩ := exists_next (ended_of_bare h.twinFinish) (hkind ▸ hpeek)
  have hbreaks := htwin.front_breaks
  have htoken := htwin.not_break
  rw [h.nesting_eq] at hbreaks htoken
  obtain ⟨rfl, hbare, hrest⟩ := front_unique hbreaks hnext.front_breaks htoken hnext.not_break
    (htwin.view_eq.symm.trans (h.view_eq.trans hnext.view_eq))
  refine ⟨?_, ?_⟩
  · rw [coreAll_of_seen, coreAll_of_seen, seen_tokens, seen_tokens, hseen, htwinSeen, hbare]
  · exact ⟨by rw [finish_behind, h.finish], by rw [finish_behind, h.twinFinish], hrest,
      by rw [nesting_behind, nesting_behind, h.nesting_eq],
      by rw [operandFailed_behind, operandFailed_behind, h.failed_eq]⟩

/-- The depth of brackets is the same for both. -/
theorem Twins.level (h : Twins cursor twin) (depth : Nat) :
    Twins (cursor.level depth) (twin.level depth) :=
  ⟨h.finish, h.twinFinish, h.view_eq, rfl, h.failed_eq⟩

theorem Twins.mark (h : Twins cursor twin) (operandFailed : Bool) :
    Twins (cursor.mark operandFailed) (twin.mark operandFailed) :=
  ⟨h.finish, h.twinFinish, h.view_eq, h.nesting_eq, rfl⟩

/-- Trivia and places make no difference to the cores of trees. -/
def withoutTrivia : Lockstep where
  toLikeness := .cores
  near := Twins
  asks _ _ _ := True
  tells _ _ := True
  tells_nil := trivial
  tells_append _ _ := trivial
  asks_tail _ := trivial
  asks_front _ _ := trivial
  asks_node _ _ := trivial
  asks_inside _ _ _ _ := trivial
  asks_unclosed _ := trivial
  nesting_eq h := h.nesting_eq
  kind_peek h _ := Token.kind_of_bare h.bare_peek
  kind_peekSecond h _ _ _ _ := Token.kind_of_bare h.bare_peekSecond
  isFlag_eq h _ _ _ _ := by
    rw [isFlag, isFlag, Token.kind_of_bare h.bare_peek, Token.text_of_bare h.bare_peek,
      Token.kind_of_bare h.bare_peekSecond]
  take {_ depth _ _} h hpeek _ _ := (h.take hpeek).imp_right fun hbehind => hbehind.level depth
  leaf h hpeek _ _ := by
    obtain ⟨hcore, hbehind⟩ := h.take hpeek
    exact ⟨coreAll_node_congr _ hcore, hbehind⟩
  leave h _ := ⟨h.finish, h.twinFinish, h.view_eq, by rw [leave, leave, h.nesting_eq], h.failed_eq⟩
  report _ _ _ := trivial
  fail h _ := h.mark true
  restart h := h.mark false
  failed_eq h := h.failed_eq

end Parser

namespace ParsedSource

open SyntaxTree NovelAsm.Parser

/-- Texts with the same tokens have trees of one core. -/
theorem coreAll_children_congr {source other : Bytes}
    (h : Lexed.tokensOf other = Lexed.tokensOf source) :
    coreAll (read other .origin).tree.children = coreAll (read source .origin).tree.children := by
  obtain ⟨outcome, said, hreading⟩ := exists_reading source .origin
  obtain ⟨result, more, hother⟩ := exists_reading other .origin
  have htwins : Twins (before source .origin) (before other .origin) :=
    ⟨Lexed.bare_finish 0 .origin source, Lexed.bare_finish 0 .origin other, by
      rw [view_before, view_before, h], rfl, rfl⟩
  rw [hreading.coreAll_children, hother.coreAll_children]
  exact (hreading.compare hother withoutTrivia htwins trivial).1

end ParsedSource

end NovelAsm
