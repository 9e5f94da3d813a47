import NovelAsm.Proofs.Layout.Tokens
import NovelAsm.Proofs.Layout.Trees
import NovelAsm.Proofs.SyntaxTree.Parsed

/-!
Parsers do not see layout. Where the tokens of two texts settle to the same ones, clean runs before
them are in lockstep (`Parser.withoutLayout`), and their joined trees are the same. What stands in
an instruction or a definition itself is outside of brackets, so that it is found in the joined
trees as well.
-/

namespace NovelAsm

namespace SyntaxTree

/-- Trees with nodes as a parser makes them. -/
def AllGrown (trees : List SyntaxTree) : Prop := ∀ tree ∈ trees, tree.Everywhere (Grown false)

theorem AllGrown.inside {kind : SyntaxKind} {trees : List SyntaxTree}
    (h : AllGrown [.node kind trees]) : AllGrown trees := fun _ htree =>
  (h _ (List.mem_singleton_self _)).children _ htree

theorem AllGrown.here {kind : SyntaxKind} {trees : List SyntaxTree}
    (h : AllGrown [.node kind trees]) : (SyntaxTree.node kind trees).Grown false :=
  (h _ (List.mem_singleton_self _)).here

/-- No line end stands in a definition itself. -/
theorem joinedAll_definition {trees : List SyntaxTree}
    (h : (SyntaxTree.node .definition trees).Grown false) :
    joinedAll true trees = joinedAll false trees := by
  have hlevel : ∀ leaf, .token leaf ∈ trees → leaf.kind ≠ .newline := h.level rfl
  clear h
  induction trees with
  | nil => simp
  | cons tree rest ih =>
      have hrest := ih fun leaf hleaf => hlevel leaf (List.mem_cons_of_mem _ hleaf)
      cases tree with
      | token leaf =>
          have hkind := hlevel leaf (List.mem_cons_self ..)
          simp only [joinedAll, hrest, Bool.true_or, Bool.false_or, bne_iff_ne.mpr hkind]
      | node kind children => rw [joinedAll_node_cons, joinedAll_node_cons, hrest]

/-- An instruction begins with its word, also without line ends. -/
theorem exists_joined_word {trees : List SyntaxTree}
    (h : (SyntaxTree.node .instruction trees).Grown false) :
    ∃ (word : Token) (more : List SyntaxTree),
      (SyntaxTree.node .instruction trees).firstText = word.text ∧
        joinedAll false trees = .token word.bare :: more := by
  obtain ⟨word, taken, more, rfl, htook, hkind⟩ :
    ∃ word taken more, trees = taken ++ more ∧ Took 0 word taken ∧ word.kind ≠ .newline :=
    h.worded rfl
  have hsignificant := htook.significant
  refine ⟨word, joinedAll false more, ?_, ?_⟩
  · rw [firstText, htook.firstSignificant?_eq]
    rfl
  · rw [joinedAll_append, ← joinedAll_coreAll taken, htook.coreAll_eq]
    simp [joinedAll, hsignificant, hkind]

/-- Nodes that are the same without the line ends in them. -/
theorem joinedAll_grown_congr {kind : SyntaxKind} {trees copies : List SyntaxTree}
    (hkind : kind.isOneToken = false) (hgrown : (SyntaxTree.node kind trees).Grown false)
    (hcopy : (SyntaxTree.node kind copies).Grown false)
    (h : joinedAll false copies = joinedAll false trees) :
    joinedAll false [.node kind copies] = joinedAll false [.node kind trees] := by
  have hparts : mnemonic kind copies = mnemonic kind trees ∧
      joinedAll (kind == .definition) copies = joinedAll (kind == .definition) trees := by
    by_cases hdefinition : kind = .definition
    · subst hdefinition
      exact ⟨rfl, (joinedAll_definition hcopy).trans (h.trans (joinedAll_definition hgrown).symm)⟩
    · rw [beq_false_of_ne hdefinition]
      refine ⟨?_, h⟩
      by_cases hinstruction : kind = .instruction
      · subst hinstruction
        obtain ⟨word, more, hword, hjoined⟩ := exists_joined_word hgrown
        obtain ⟨other, others, hother, hjoinedCopy⟩ := exists_joined_word hcopy
        have hhead := List.head_eq_of_cons_eq (hjoinedCopy.symm.trans (h.trans hjoined))
        have htext := Token.text_of_bare (SyntaxTree.token.inj hhead)
        simp only [mnemonic, hword, hother, htext]
      · rw [mnemonic_of_ne (beq_false_of_ne hinstruction),
          mnemonic_of_ne (beq_false_of_ne hinstruction)]
  rw [joinedAll_node_cons, joinedAll_node_cons, joined_of_not_oneToken hkind,
    joined_of_not_oneToken hkind, hparts.1, hparts.2]

/-- Line ends before a token are layout. -/
theorem joinedAll_of_seen {nesting : Nat} {front tokens : List Token} {token : Token}
    (hseen : seen (tokens.map .token) = front ++ [token])
    (hfront : ∀ other ∈ front, Cursor.isBreak nesting other = true) :
    joinedAll false (tokens.map .token) = joinedAll false [.token token] := by
  have hnone : joinedAll false ((front.filter Token.isSignificant).map .token) = [] := by
    rw [joinedAll_tokens, List.map_eq_nil_iff, List.filter_eq_nil_iff]
    intro other hother
    simp [Cursor.kind_of_isBreak (hfront other (List.mem_filter.mp hother).1)]
  rw [← joinedAll_coreAll, coreAll_of_seen, hseen, List.filter_append, List.map_append,
    joinedAll_append, hnone, List.nil_append]
  cases htoken : token.isSignificant <;> simp [joinedAll, htoken]

end SyntaxTree

namespace Parser

open SyntaxTree Cursor

/-- Two cursors before tokens that differ in layout alone, and nothing wrong has been met. -/
structure Settled (cursor twin : Cursor) : Prop where
  sound : cursor.Sound
  twinSound : twin.Sound
  nesting_eq : twin.nesting = cursor.nesting
  settle_eq : settle cursor.nesting twin.view = settle cursor.nesting cursor.view

variable {cursor twin : Cursor}

theorem Settled.bare_peek (h : Settled cursor twin) : twin.peek.bare = cursor.peek.bare := by
  rw [Cursor.bare_peek h.sound.finish, Cursor.bare_peek h.twinSound.finish, h.nesting_eq,
    ← ahead_settle cursor.nesting twin.view, h.settle_eq, ahead_settle]

theorem Settled.kind_peek (h : Settled cursor twin) : twin.peek.kind = cursor.peek.kind :=
  Token.kind_of_bare h.bare_peek

/-- The same token is taken, behind line ends of which those that are no layout are the same; what
settles behind it is the same. -/
theorem Settled.take (h : Settled cursor twin) (hpeek : cursor.peek.kind ≠ .endOfFile) :
    settle (cursor.peek.kind.depthBehind cursor.nesting) twin.behind.view =
        settle (cursor.peek.kind.depthBehind cursor.nesting) cursor.behind.view ∧
      ∃ front others, cursor.Next front cursor.peek.bare ∧ twin.Next others cursor.peek.bare ∧
        seen (cursor.nextTokens.map .token) = front ++ [cursor.peek.bare] ∧
        seen (twin.nextTokens.map .token) = others ++ [cursor.peek.bare] ∧
        (if beginsOperand (cursor.peek.bare :: twin.behind.view) then others else []) =
          if beginsOperand (cursor.peek.bare :: cursor.behind.view) then front else [] := by
  obtain ⟨front, hnext, hseen⟩ := exists_next h.sound.ended hpeek
  obtain ⟨others, htwin, htwinSeen⟩ := exists_next h.twinSound.ended (h.kind_peek ▸ hpeek)
  rw [h.bare_peek] at htwin htwinSeen
  rw [← seen_tokens] at hseen htwinSeen
  have hview := h.settle_eq
  rw [htwin.view_eq, hnext.view_eq,
    settle_front (h.nesting_eq ▸ htwin.front_breaks) hnext.not_break,
    settle_front hnext.front_breaks hnext.not_break, Token.kind_bare] at hview
  have hbreaks {front : List Token} (h : ∀ other ∈ front, isBreak cursor.nesting other = true)
      (condition : Bool) : ∀ other ∈ (if condition then front else []),
        isBreak cursor.nesting other = true := by
    cases condition with
    | false => exact fun _ hmem => absurd hmem List.not_mem_nil
    | true => exact h
  obtain ⟨hsame, -, hrest⟩ := front_unique (hbreaks (h.nesting_eq ▸ htwin.front_breaks) _)
    (hbreaks hnext.front_breaks _) hnext.not_break hnext.not_break hview
  exact ⟨hrest, front, others, hnext, htwin, hseen, htwinSeen, hsame⟩

/-- Behind the end of a text nothing is found. -/
theorem bare_peekSecond_of_end (h : cursor.Sound) (hpeek : cursor.peek.kind = .endOfFile) :
    cursor.peekSecond.bare = endToken := by
  have hnone : cursor.view.dropWhile (isBreak cursor.nesting) = [] := by
    rcases exists_front cursor.nesting cursor.view with hall | ⟨front, token, rest, hview, hfront,
      htoken⟩
    · exact List.dropWhile_eq_nil_iff.mpr hall
    · rw [Cursor.kind_peek h.finish, hview, ahead_front _ _ hfront htoken] at hpeek
      exact absurd hpeek (h.view_inside (by simp [hview])).1
  rw [Cursor.bare_peekSecond h.finish, hnone]
  rfl

/-- Behind a token that is no bracket, the next token is the same. -/
theorem Settled.bare_peekSecond (h : Settled cursor twin) (hflat : cursor.peek.kind.IsFlat) :
    twin.peekSecond.bare = cursor.peekSecond.bare := by
  by_cases hpeek : cursor.peek.kind = .endOfFile
  · rw [bare_peekSecond_of_end h.sound hpeek,
      bare_peekSecond_of_end h.twinSound (h.kind_peek.trans hpeek)]
  · obtain ⟨hrest, -⟩ := h.take hpeek
    rw [hflat] at hrest
    rw [← peek_behind, ← peek_behind, Cursor.bare_peek h.sound.behind.finish,
      Cursor.bare_peek h.twinSound.behind.finish, nesting_behind, nesting_behind, h.nesting_eq,
      ← ahead_settle cursor.nesting twin.behind.view, hrest, ahead_settle]

theorem Settled.behind (h : Settled cursor twin) (hpeek : cursor.peek.kind ≠ .endOfFile) :
    Settled (cursor.behind.level (cursor.peek.kind.depthBehind cursor.nesting))
      (twin.behind.level (cursor.peek.kind.depthBehind cursor.nesting)) :=
  have hsound := h.sound.behind
  have htwin := h.twinSound.behind
  ⟨⟨hsound.finish, hsound.inside, hsound.notFailed⟩, ⟨htwin.finish, htwin.inside, htwin.notFailed⟩,
    rfl, (h.take hpeek).1⟩

/-- In the place of an operand of one token, and outside of brackets, all that is taken is the
same. -/
theorem Settled.seen_eq (h : Settled cursor twin) (hpeek : cursor.peek.kind ≠ .endOfFile)
    (hwhole : cursor.nesting = 0 ∨
      cursor.peek.kind.isOperandBefore cursor.peekSecond.kind = true) :
    seen (twin.nextTokens.map .token) = seen (cursor.nextTokens.map .token) := by
  obtain ⟨hrest, front, others, hnext, htwin, hseen, htwinSeen, hfronts⟩ := h.take hpeek
  rw [hseen, htwinSeen]
  suffices hsame : others = front by rw [hsame]
  rcases Nat.eq_zero_or_pos cursor.nesting with hzero | hopened
  · have hbreaks := hnext.front_breaks
    have hothers := htwin.front_breaks
    rw [h.nesting_eq, hzero] at hothers
    rw [hzero] at hbreaks
    rw [eq_nil_of_breaks hbreaks, eq_nil_of_breaks hothers]
  · have hoperand := hwhole.resolve_left (Nat.ne_of_gt hopened)
    have hflat := TokenKind.isFlat_of_isOperandBefore hoperand
    have hbegins {rest : List Token}
        (hrest : (ahead cursor.nesting rest).kind = cursor.peekSecond.kind) :
        beginsOperand (cursor.peek.bare :: rest) = true := by
      rw [beginsOperand_cons hopened hnext.not_break, Token.kind_bare, hrest, hoperand]
    have hahead : (ahead cursor.nesting cursor.behind.view).kind = cursor.peekSecond.kind := by
      rw [← peek_behind, Cursor.kind_peek h.sound.behind.finish, nesting_behind]
    rw [hflat] at hrest
    rw [hbegins hahead, hbegins (by rw [← ahead_settle, hrest, ahead_settle, hahead])] at hfronts
    exact hfronts

/-- Layout makes no difference to the joined trees of clean runs. -/
def withoutLayout : Lockstep where
  toAgreement := .silence
  near := Settled
  asks clean _ _ := clean = true
  same trees copies :=
    AllGrown trees → AllGrown copies → joinedAll false copies = joinedAll false trees
  same_nil _ _ := rfl
  same_append h hmore htrees hcopies := by
    rw [joinedAll_append, joinedAll_append,
      h (fun tree htree => htrees tree (List.mem_append_left _ htree))
        (fun tree htree => hcopies tree (List.mem_append_left _ htree)),
      hmore (fun tree htree => htrees tree (List.mem_append_right _ htree))
        (fun tree htree => hcopies tree (List.mem_append_right _ htree))]
  same_node hkind h htrees hcopies := joinedAll_grown_congr hkind htrees.here hcopies.here
    (h htrees.inside hcopies.inside)
  asks_tail h := h
  asks_front hreached h := hreached.clean_of h
  asks_node _ h := h
  asks_inside _ _ _ h := h
  asks_unclosed h := nomatch h
  nesting_eq h := h.nesting_eq
  kind_peek h _ := h.kind_peek
  kind_peekSecond h _ _ _ hflat := Token.kind_of_bare (h.bare_peekSecond hflat)
  isFlag_eq {_ _ cursor twin _} h _ _ _ _ := by
    rw [isFlag, isFlag, h.kind_peek, Token.text_of_bare h.bare_peek]
    by_cases hname : cursor.peek.kind = .identifier
    · rw [Token.kind_of_bare (h.bare_peekSecond (hname ▸ fun _ => rfl))]
    · rw [beq_false_of_ne hname, Bool.false_and, Bool.false_and, Bool.false_and]
  take h hpeek hdepth hclean := by
    obtain ⟨-, front, others, hnext, htwin, hseen, htwinSeen, -⟩ := h.take hpeek
    refine ⟨fun _ _ => ?_, hdepth hclean ▸ h.behind hpeek⟩
    rw [joinedAll_of_seen hseen hnext.front_breaks, joinedAll_of_seen htwinSeen htwin.front_breaks]
  leaf {kind _ cursor twin} h hpeek hwhole hclean := by
    have hexact := hwhole hclean
    have hflat : cursor.peek.kind.IsFlat :=
      hexact.elim And.right TokenKind.isFlat_of_isOperandBefore
    have hbehind := h.behind hpeek
    rw [hflat, level_behind, ← h.nesting_eq, level_behind] at hbehind
    have hseen := h.seen_eq hpeek (hexact.imp_left And.left)
    exact ⟨fun _ _ => joinedAll_congr_core (coreAll_node_congr _ (coreAll_congr_seen hseen)),
      hbehind⟩
  leave _ h := nomatch h
  report _ _ h := nomatch h
  fail _ h := nomatch h
  restart h := by
    rw [h.sound.restart, h.twinSound.restart]
    exact h
  failed_eq h := h.twinSound.notFailed.trans h.sound.notFailed.symm

end Parser

end NovelAsm
