import NovelAsm.Proofs.SyntaxTree.Lossless

/-!
How far a clean run looks. It looks at what it takes and at the next token behind that, so before
the same tokens in front of others, of which the first one is the same, it goes on alike
(`Parser.elsewhere`). Inside of brackets it has not taken all that is the same, because the closing
bracket is still to come.
-/

namespace NovelAsm

namespace Parser

open SyntaxTree Cursor

variable {α : Type} {allowed : Allowed} {clean : Bool} {cursor twin : Cursor}

theorem Reached.view_eq {outcome : Outcome α} (h : Reached allowed clean cursor outcome) :
    cursor.view = seen outcome.trees ++ outcome.cursor.view := by
  rw [view, h.rest_eq, List.filter_append, List.map_append]
  rfl

/-- A clean run that takes something takes the next token. -/
theorem Reached.exists_behind {outcome : Outcome α} (h : Reached allowed clean cursor outcome)
    (hfinish : cursor.finish.bare = endToken) (hclean : outcome.clean = true)
    (hne : leavesOf outcome.trees ≠ []) (hinside : ∀ token ∈ cursor.view, token.kind ≠ .endOfFile) :
    cursor.peek.kind ≠ .endOfFile ∧ ∃ more, cursor.behind.view = more ++ outcome.cursor.view := by
  obtain ⟨front, last, hleaves⟩ := (List.eq_nil_or_concat (leavesOf outcome.trees)).resolve_left hne
  have hlast := (h.last hclean last (by simp [hleaves])).1
  rw [isSkippable_eq, Bool.or_eq_false_iff] at hlast
  have hseen : last.bare ∈ seen outcome.trees := by simp [seen, hleaves, hlast.1]
  rcases exists_front cursor.nesting (seen outcome.trees) with hall | ⟨breaks, token, more, htaken,
    hbreaks, htoken⟩
  · exact absurd (hall _ hseen) (by simp [hlast.2])
  · have hview : cursor.view = breaks ++ token :: (more ++ outcome.cursor.view) := by
      rw [h.view_eq, htaken, List.append_assoc]
      rfl
    have hpeek : cursor.peek.kind ≠ .endOfFile := by
      rw [Cursor.kind_peek hfinish, hview, ahead_front _ _ hbreaks htoken]
      exact hinside token (by simp [hview])
    obtain ⟨others, hnext, -⟩ := exists_next (ended_of_bare hfinish) hpeek
    obtain ⟨-, -, hrest⟩ := front_unique hnext.front_breaks hbreaks hnext.not_break htoken
      (hnext.view_eq.symm.trans hview)
    exact ⟨hpeek, more, hrest⟩

/-- Two cursors before the same tokens, in front of some and of others. -/
structure Shared (behind other : List Token) (cursor twin : Cursor) : Prop where
  sound : cursor.Sound
  twinSound : twin.Sound
  nesting_eq : twin.nesting = cursor.nesting
  split : ∃ taken, cursor.view = taken ++ behind ∧ twin.view = taken ++ other

/-- A clean run that ends before some tokens or in front of them; in brackets there is more in
front than line ends. -/
structure Within (behind : List Token) (clean : Bool) (last : Cursor) : Prop where
  clean_eq : clean = true
  split : ∃ left, last.view = left ++ behind ∧
    (0 < last.nesting → ∃ token ∈ left, token.kind ≠ .newline)

section Locality

variable {behind other : List Token}

theorem Within.before {outcome : Outcome α} (h : Within behind outcome.clean outcome.cursor)
    (hreached : Reached allowed clean cursor outcome) : Within behind clean cursor where
  clean_eq := hreached.clean_of h.clean_eq
  split := by
    obtain ⟨left, hview, hinside⟩ := h.split
    refine ⟨seen outcome.trees ++ left, ?_, fun hopened => ?_⟩
    · rw [hreached.view_eq, hview, List.append_assoc]
    · obtain ⟨token, htoken, hkind⟩ := hinside (by rwa [hreached.nesting_eq])
      exact ⟨token, List.mem_append_right _ htoken, hkind⟩

/-- Behind the first of the tokens that a run takes, the others are still to come. -/
theorem Within.further {outcome : Outcome α} (h : Within behind outcome.clean outcome.cursor)
    (hreached : Reached allowed clean cursor outcome) (hsound : cursor.Sound)
    (hne : leavesOf outcome.trees ≠ []) :
    cursor.peek.kind ≠ .endOfFile ∧ Within behind clean cursor.behind := by
  obtain ⟨hpeek, more, hmore⟩ := hreached.exists_behind hsound.finish h.clean_eq hne
    fun token htoken => (hsound.view_inside htoken).1
  obtain ⟨left, hview, hinside⟩ := h.split
  refine ⟨hpeek, hreached.clean_of h.clean_eq, more ++ left, ?_, fun hopened => ?_⟩
  · rw [hmore, hview, List.append_assoc]
  · rw [nesting_behind, ← hreached.nesting_eq] at hopened
    obtain ⟨token, htoken, hkind⟩ := hinside hopened
    exact ⟨token, List.mem_append_right _ htoken, hkind⟩

/-- In front of a closing bracket there is more than line ends. -/
theorem Within.inside (hclean : Within behind clean cursor.behind.leave)
    (hstands : Stands clean cursor) (hpeek : cursor.peek.kind ≠ .endOfFile)
    (hcloses : cursor.peek.kind.Closes) : Within behind clean cursor := by
  obtain ⟨left, hview, -⟩ := hclean.split
  obtain ⟨front, hnext, -⟩ := exists_next hstands.ended hpeek
  refine ⟨hclean.clean_eq, front ++ cursor.peek.bare :: left, ?_, fun _ =>
    ⟨cursor.peek.bare, by simp, fun hline => ?_⟩⟩
  · rw [hnext.view_eq, List.append_assoc]
    exact congrArg (fun rest => front ++ cursor.peek.bare :: rest) hview
  · have hdepth := hcloses 0
    rw [← Token.kind_bare, hline] at hdepth
    cases hdepth

/-- The next token is the same. -/
theorem Shared.bare_peek (h : Shared behind other cursor twin)
    (hwithin : Within behind clean cursor)
    (hahead : ahead 0 other = ahead 0 behind) : twin.peek.bare = cursor.peek.bare := by
  obtain ⟨taken, hview, htwin⟩ := h.split
  obtain ⟨left, hleft, hinside⟩ := hwithin.split
  obtain rfl : taken = left := List.append_cancel_right (hview.symm.trans hleft)
  rw [Cursor.bare_peek h.sound.finish, Cursor.bare_peek h.twinSound.finish, h.nesting_eq, hview,
    htwin]
  refine ahead_append ?_
  rcases Nat.eq_zero_or_pos cursor.nesting with hzero | hopened
  · exact .inr (by rw [hzero, hahead])
  · exact .inl (hinside hopened)

/-- The same token is taken, and the cursors behind it are before the same tokens. -/
theorem Shared.take (h : Shared behind other cursor twin) (hpeek : cursor.peek.kind ≠ .endOfFile)
    (hleft : ∃ left, cursor.behind.view = left ++ behind) :
    seen (twin.nextTokens.map .token) = seen (cursor.nextTokens.map .token) ∧
      Shared behind other cursor.behind twin.behind := by
  obtain ⟨left, hleft⟩ := hleft
  obtain ⟨taken, hview, htwin⟩ := h.split
  obtain ⟨front, hnext, hseen⟩ := exists_next h.sound.ended hpeek
  have htaken : taken = front ++ cursor.peek.bare :: left := by
    refine List.append_cancel_right (hview.symm.trans ?_)
    rw [hnext.view_eq, hleft, List.append_assoc]
    rfl
  have htwinView : twin.view = front ++ cursor.peek.bare :: (left ++ other) := by
    rw [htwin, htaken, List.append_assoc]
    rfl
  have hfront : ∀ token ∈ front, isBreak twin.nesting token = true := by
    rw [h.nesting_eq]
    exact hnext.front_breaks
  have htoken : isBreak twin.nesting cursor.peek.bare = false := by
    rw [h.nesting_eq]
    exact hnext.not_break
  have htwinPeek : twin.peek.kind ≠ .endOfFile := by
    rw [Cursor.kind_peek h.twinSound.finish, htwinView, ahead_front _ _ hfront htoken]
    exact hpeek
  obtain ⟨others, htwinNext, htwinSeen⟩ := exists_next h.twinSound.ended htwinPeek
  obtain ⟨rfl, hbare, hrest⟩ := front_unique htwinNext.front_breaks hfront htwinNext.not_break
    htoken (htwinNext.view_eq.symm.trans htwinView)
  refine ⟨?_, h.sound.behind, h.twinSound.behind, ?_, left, hleft, hrest⟩
  · rw [seen_tokens, seen_tokens, hseen, htwinSeen, hbare]
  · rw [nesting_behind, nesting_behind, h.nesting_eq]

/-- The token behind the next one is the same where a run takes something. -/
theorem Shared.bare_peekSecond {outcome : Outcome α} (h : Shared behind other cursor twin)
    (hreached : Reached allowed clean cursor outcome)
    (hne : outcome.clean = true → leavesOf outcome.trees ≠ [])
    (hwithin : Within behind outcome.clean outcome.cursor)
    (hahead : ahead 0 other = ahead 0 behind) :
    twin.peekSecond.bare = cursor.peekSecond.bare := by
  obtain ⟨hpeek, hbehind⟩ := hwithin.further hreached h.sound (hne hwithin.clean_eq)
  obtain ⟨left, hleft, -⟩ := hbehind.split
  rw [← peek_behind, ← peek_behind]
  exact (h.take hpeek ⟨left, hleft⟩).2.bare_peek hbehind hahead

/-- What follows is looked at no further than to its next token. -/
def elsewhere {behind other : List Token} (hahead : ahead 0 other = ahead 0 behind) : Lockstep where
  toLikeness := .cores
  toAgreement := .silence
  near := Shared behind other
  asks clean _ last := Within behind clean last
  asks_tail h := h
  asks_front hreached h := h.before hreached
  asks_node _ h := h
  asks_inside hstands hpeek hcloses h := h.inside hstands hpeek hcloses
  asks_unclosed h := nomatch h.clean_eq
  nesting_eq h := h.nesting_eq
  kind_peek h hwithin := Token.kind_of_bare (h.bare_peek hwithin hahead)
  kind_peekSecond h hreached hne hwithin _ :=
    Token.kind_of_bare (h.bare_peekSecond hreached hne hwithin hahead)
  isFlag_eq h hreached hne hwithin _ := by
    have hfirst := h.bare_peek (hwithin.before hreached) hahead
    have hsecond := h.bare_peekSecond hreached hne hwithin hahead
    rw [isFlag, isFlag, Token.kind_of_bare hfirst, Token.text_of_bare hfirst,
      Token.kind_of_bare hsecond]
  take {_ depth _ _} h hpeek _ hwithin := by
    obtain ⟨left, hleft, -⟩ := hwithin.split
    obtain ⟨hseen, hbehind⟩ := h.take hpeek ⟨left, hleft⟩
    have hsound := hbehind.sound
    have htwinSound := hbehind.twinSound
    exact ⟨coreAll_congr_seen hseen, ⟨hsound.finish, hsound.inside, hsound.notFailed⟩,
      ⟨htwinSound.finish, htwinSound.inside, htwinSound.notFailed⟩, rfl, hbehind.split⟩
  leaf h hpeek _ hwithin := by
    obtain ⟨left, hleft, -⟩ := hwithin.split
    obtain ⟨hseen, hbehind⟩ := h.take hpeek ⟨left, hleft⟩
    exact ⟨coreAll_node_congr _ (coreAll_congr_seen hseen), hbehind⟩
  leave _ h := nomatch h.clean_eq
  report _ _ h := nomatch h.clean_eq
  fail _ h := nomatch h.clean_eq
  restart h := by
    rw [h.sound.restart, h.twinSound.restart]
    exact h
  failed_eq h := h.twinSound.notFailed.trans h.sound.notFailed.symm

end Locality

end Parser

end NovelAsm
