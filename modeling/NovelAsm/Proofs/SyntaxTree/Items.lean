import NovelAsm.Proofs.SyntaxTree.Locality

/-!
The items of a text from its tokens. `Items tokens trees` says that tokens without trivia
and places are parsed into items without a complaint, and what the cores of these items are.
It is what a clean run of the parser finds, from whatever state with these tokens, and it
is put together item by item: where the tokens of a text are those of two texts behind one
another, and the second begins with a token that opens an item, its items are those of both.
-/

namespace NovelAsm

/-- A cursor before some tokens, outside of brackets, that has met nothing wrong. -/
structure Cursor.Before (cursor : Cursor) (tokens : List Token) : Prop where
  sound : cursor.Sound
  nesting_eq : cursor.nesting = 0
  view_eq : cursor.view = tokens

namespace Parser

open SyntaxTree Cursor

variable {state : ParseState} {first : Token} {tokens : List Token}

/-- A parser makes trees of what stands in front of some tokens, without a complaint. -/
def Makes (parser : Parser PUnit) (state : ParseState) (trees : List SyntaxTree)
    (behind : List Token) : Prop :=
  ∃ outcome, Ends parser state outcome [] ∧ coreAll outcome.trees = trees ∧
    outcome.cursor.Before behind

/-- There is one run from a state. -/
theorem Makes.unique {parser : Parser PUnit} {trees others : List SyntaxTree}
    {behind rest : List Token} (h : Makes parser state trees behind)
    (hother : Makes parser state others rest) : trees = others ∧ behind = rest := by
  obtain ⟨outcome, hends, rfl, hbehind⟩ := h
  obtain ⟨result, hresult, rfl, hrest⟩ := hother
  obtain ⟨-, hcursor, htrees, -⟩ := hends.unique hresult
  rw [htrees]
  exact ⟨rfl, hbehind.view_eq.symm.trans (hcursor ▸ hrest.view_eq)⟩

theorem Makes.bind {parser next : Parser PUnit} {trees more : List SyntaxTree}
    {middle behind : List Token} (h : Makes parser state trees middle)
    (hnext : ∀ state : ParseState, state.cursor.Before middle → Makes next state more behind) :
    Makes (parser >>= fun _ => next) state (trees ++ more) behind := by
  obtain ⟨outcome, hends, rfl, hmiddle⟩ := h
  obtain ⟨result, hresult, rfl, hbehind⟩ :=
    hnext (state.after outcome.cursor outcome.trees []) hmiddle
  exact ⟨result.behind outcome.trees, hends.bind hresult, coreAll_append _ _, hbehind⟩

theorem Makes.node {parser : Parser PUnit} {trees : List SyntaxTree} {behind : List Token}
    {kind : SyntaxKind} (h : Makes parser (state.opened kind) trees behind) :
    Makes (node kind parser) state [.node kind trees] behind := by
  obtain ⟨outcome, hends, rfl, hbehind⟩ := h
  refine ⟨outcome.node kind, hends.node, ?_, hbehind⟩
  rw [Outcome.node, coreAll_singleton rfl, core_node]

/-- Outside of brackets the next token is the first one. -/
theorem bare_peek_of_before (h : state.cursor.Before (first :: tokens)) :
    state.cursor.peek.bare = first := by
  rw [bare_peek h.sound.finish, h.nesting_eq, h.view_eq]
  rfl

theorem kind_peek_of_before (h : state.cursor.Before (first :: tokens)) :
    state.cursor.peek.kind = first.kind := by
  rw [← bare_peek_of_before h]
  rfl

theorem kind_ne_of_before (h : state.cursor.Before (first :: tokens)) :
    state.cursor.peek.kind ≠ .endOfFile := by
  rw [kind_peek_of_before h]
  exact (h.sound.view_inside (by rw [h.view_eq]; exact List.mem_cons_self ..)).1

theorem kind_peekSecond_of_before (h : state.cursor.Before (first :: tokens)) :
    state.cursor.peekSecond.kind = (ahead 0 tokens).kind := by
  have hsecond := bare_peekSecond h.sound.finish
  rw [h.nesting_eq, h.view_eq] at hsecond
  rw [← Token.kind_bare, hsecond]
  rfl

/-- Taking the first token of some. -/
theorem coreAll_nextTokens (h : state.cursor.Before (first :: tokens)) :
    coreAll (state.cursor.nextTokens.map .token) = [.token first] := by
  have htook := state.cursor.took h.sound.ended (kind_ne_of_before h)
  rw [h.nesting_eq] at htook
  rw [← bare_peek_of_before h, htook.coreAll_eq]

theorem behind_before (h : state.cursor.Before (first :: tokens)) :
    state.cursor.behind.Before tokens := by
  obtain ⟨front, hnext, -⟩ := exists_next h.sound.ended (kind_ne_of_before h)
  have hbreaks := hnext.front_breaks
  rw [h.nesting_eq] at hbreaks
  obtain rfl := eq_nil_of_breaks hbreaks
  exact ⟨h.sound.behind, (nesting_behind _).trans h.nesting_eq,
    (List.cons.inj (hnext.view_eq.symm.trans h.view_eq)).2⟩

theorem bump_makes (h : state.cursor.Before (first :: tokens)) :
    Makes bump state [.token first] tokens :=
  ⟨taking true state.cursor, rfl, coreAll_nextTokens h, behind_before h⟩

/-- An item that is taken from the beginning of a line, wherever these tokens stand, and that has
its name if it declares one. What is behind the tokens matters only as far as the next token. -/
structure TakesItem (taken rest : List Token) (tree : SyntaxTree) : Prop where
  shape : Shape taken rest tree
  named : tree.kind?.any declares = true → ∃ name, tree.NamedBy name
  elsewhere : ∀ (state : ParseState) (behind : List Token),
    state.cursor.Before (taken ++ behind) →
    tree.kind? = some .label ∨ ahead 0 behind = ahead 0 rest → Makes item state [tree] behind

theorem peekKind_bind_run {α : Type} (next : TokenKind → Parser α) (state : ParseState) :
    (peekKind >>= next) state = next state.cursor.peek.kind state := rfl

theorem label_takes {name colon : Token} (hname : name.kind = .identifier)
    (hcolon : colon.kind = .mark .colon) (rest : List Token) :
    TakesItem [name, colon] rest (.node .label [.token name, .token colon]) where
  shape := .label hname hcolon
  named _ := ⟨name, .label hname⟩
  elsewhere state behind h _ := by
    have hitem : item state = label state := by
      rw [item, peekKind_bind_run, kind_peek_of_before h, hname]
      have hsecond : state.cursor.peekSecond.kind = colon.kind := kind_peekSecond_of_before h
      change (if state.cursor.peekSecond.kind == .mark .colon then label else instruction) state = _
      rw [hsecond, hcolon]
      rfl
    have hopened : (state.opened .label).cursor.Before (name :: colon :: behind) := h
    obtain ⟨outcome, hends, hmade⟩ := ((bump_makes hopened).bind fun _ => bump_makes).node
    exact ⟨outcome, hitem.trans hends, hmade⟩

theorem Shape.isNode {taken rest : List Token} {tree : SyntaxTree} (h : Shape taken rest tree) :
    tree.isNode = true := by
  cases h with
  | label => rfl
  | instruction _ _ _ htree | definition _ _ _ htree | function _ _ htree | subroutine _ _ htree =>
      simp [SyntaxTree.isNode, htree]

/-- No item begins with a line end. -/
theorem Shape.opens {taken rest : List Token} {tree : SyntaxTree} (h : Shape taken rest tree) :
    ∃ first more, taken = first :: more ∧ first.kind ≠ .newline := by
  cases h with
  | label hname => exact ⟨_, _, rfl, by simp [hname]⟩
  | instruction hfirst => exact ⟨_, _, rfl, (isInner_ne hfirst).2.1⟩
  | definition hword => exact ⟨_, _, rfl, by simp [hword]⟩
  | function htaken | subroutine htaken =>
      obtain ⟨word, middle, last, rfl, hword, -⟩ := htaken
      exact ⟨word, middle ++ [last], rfl, by simp [hword]⟩

theorem Shape.ne_nil {taken rest : List Token} {tree : SyntaxTree} (h : Shape taken rest tree) :
    taken ≠ [] := by
  obtain ⟨first, more, rfl, -⟩ := h.opens
  exact List.cons_ne_nil _ _

/-- A tree that is made as an item has its name if it declares one. -/
theorem exists_name_of_grown {tree : SyntaxTree} (h : tree.Everywhere (Grown true))
    (hkind : tree.core.kind?.any declares = true) : ∃ name, tree.core.NamedBy name := by
  cases h with
  | token leaf => cases hkind
  | node here _ =>
      rw [core_node]
      exact (here.placed rfl _ _ rfl).named hkind

/-- What a clean run finds at the beginning of a line is an item. -/
theorem item_takes (h : state.cursor.Before (first :: tokens)) (hfit : state.cursor.Fit)
    {outcome : Outcome PUnit} (hends : Ends item state outcome []) :
    ∃ taken tree, first :: tokens = taken ++ outcome.cursor.view ∧
      coreAll outcome.trees = [tree] ∧ TakesItem taken outcome.cursor.view tree ∧
      outcome.cursor.nesting = 0 ∧ outcome.cursor.Fit := by
  have hout : Outside true state.cursor := ⟨⟨h.sound.ended, fun _ => hfit⟩, h.nesting_eq⟩
  obtain ⟨result, said, hrun, hitem⟩ :=
    (item_reads hout (kind_ne_of_before h)).runs hout.toStands rfl
  obtain ⟨-, hcursor, htrees, rfl⟩ := hends.unique hrun.ends
  have hclean : result.clean = true := hrun.clean_eq
  obtain ⟨tree, htree, hshape⟩ := hitem.shape hclean
  have hview : first :: tokens = seen result.trees ++ result.cursor.view :=
    h.view_eq.symm.trans hrun.reached.view_eq
  have hlast := hrun.reached.fit hclean
  have hnesting : result.cursor.nesting = 0 := hrun.reached.nesting_eq.trans h.nesting_eq
  have hcore : coreAll result.trees = [tree.core] := by
    rw [htree, coreAll_singleton ((isNode_core tree).symm.trans hshape.isNode)]
  have hgrown : tree.Everywhere (Grown true) :=
    hclean ▸ hrun.reached.grown tree (htree ▸ List.mem_singleton_self tree)
  rw [hcursor, htrees]
  refine ⟨_, tree.core, hview, hcore, ⟨hshape, exists_name_of_grown hgrown, ?_⟩, hnesting, hlast⟩
  intro twin behind htwin hbehind
  rcases hbehind with hlabel | hahead
  · -- A label is found whatever stands behind it.
    generalize seen result.trees = taken at hshape htwin
    generalize tree.core = core at hshape hlabel
    cases hshape with
    | label hname hcolon =>
        exact (label_takes hname hcolon result.cursor.view).elsewhere twin behind htwin (.inl rfl)
    | instruction _ _ _ hkind | definition _ _ _ hkind | function _ _ hkind
    | subroutine _ _ hkind => cases hkind.symm.trans hlabel
  · obtain ⟨token, others, htaken, -⟩ := hshape.opens
    rw [htaken] at htwin
    have htwinOut : Outside false twin.cursor := .unclean htwin.sound.ended htwin.nesting_eq
    obtain ⟨_, _, htwinRun, -⟩ :=
      (item_reads htwinOut (kind_ne_of_before htwin)).runs htwinOut.toStands rfl
    obtain ⟨copy, more, hfollows⟩ := hrun.guides (elsewhere hahead) twin
      ⟨h.sound, htwin.sound, htwin.nesting_eq.trans h.nesting_eq.symm, _, h.view_eq.trans hview,
        htwin.view_eq.trans (by rw [htaken])⟩
      ⟨hclean, [], rfl, fun hopened => absurd hnesting (Nat.ne_of_gt hopened)⟩
      (Option.isSome_of_eq_some htwinRun.ends)
    obtain ⟨left, hleft, hcopy⟩ := hfollows.near.split
    obtain rfl : left = [] :=
      List.append_cancel_right (show left ++ result.cursor.view = [] ++ _ from hleft.symm)
    obtain rfl : more = [] := hfollows.tells
    exact ⟨copy, hfollows.ends, hfollows.same.trans hcore, hfollows.near.twinSound,
      hfollows.near.nesting_eq.trans hnesting, hcopy⟩

/-- The items of some tokens, with the line ends between them. -/
inductive Items : List Token → List SyntaxTree → Prop
  | nil : Items [] []
  | newline {token : Token} {rest : List Token} {trees : List SyntaxTree}
      (hkind : token.kind = .newline) (hrest : Items rest trees) :
      Items (token :: rest) (.token token :: trees)
  | item {taken rest : List Token} {tree : SyntaxTree} {trees : List SyntaxTree}
      (hitem : TakesItem taken rest tree) (hrest : Items rest trees) :
      Items (taken ++ rest) (tree :: trees)

/-- The rounds that are left of the loop over the items of a text. -/
def itemRounds (count : Nat) : Parser PUnit := loop (repeated itemRound) count ()

/-- A round that takes something, and the others behind it. -/
def roundOf (step : Parser PUnit) (count : Nat) : Parser PUnit := do
  step
  itemRounds count

theorem itemRounds_nil (h : state.cursor.Before []) (count : Nat) :
    itemRounds (count + 1) state = some ((), state) := by
  have hkind : state.cursor.peek.kind = .endOfFile := by
    rw [kind_peek h.sound.finish, h.nesting_eq, h.view_eq]
    rfl
  change ((itemRound state).bind _).bind _ = _
  rw [itemRound, peekKind_bind_run, hkind]
  rfl

theorem itemRounds_newline (hkind : state.cursor.peek.kind = .newline) (count : Nat) :
    itemRounds (count + 1) state = roundOf bump count state := by
  change ((itemRound state).bind _).bind _ = _
  rw [itemRound, peekKind_bind_run, hkind]
  rfl

theorem itemRounds_item (hend : state.cursor.peek.kind ≠ .endOfFile)
    (hline : state.cursor.peek.kind ≠ .newline) (count : Nat) :
    itemRounds (count + 1) state = roundOf item count state := by
  have hround : itemRound state = again item state := by
    rw [itemRound, peekKind_bind_run]
    generalize state.cursor.peek.kind = kind at hend hline ⊢
    cases kind with
    | endOfFile => exact absurd rfl hend
    | newline => exact absurd rfl hline
    | _ => rfl
  change ((itemRound state).bind _).bind _ = (item state).bind _
  rw [hround]
  change (((item state).bind _).bind _).bind _ = (item state).bind _
  cases item state <;> rfl

/-- What is reported in a round is still reported at the end. -/
theorem exists_rounds {step : Parser PUnit} {result outcome : Outcome PUnit} {said : Diagnostics}
    {count : Nat} (hstep : Ends step state result said) (hout : Outside result.clean result.cursor)
    (hcount : result.cursor.rest.length < count)
    (hends : Ends (roundOf step count) state outcome []) :
    said = [] ∧ ∃ final, Ends (itemRounds count) (state.after result.cursor result.trees said)
      final [] ∧ outcome.trees = result.trees ++ final.trees ∧ outcome.cursor = final.cursor := by
  have hstart : (state.after result.cursor result.trees said).cursor = result.cursor := rfl
  obtain ⟨final, more, hrun, -⟩ := (itemRounds_reads hout hcount 0).runs hout.toStands hstart
  obtain ⟨-, hcursor, htrees, hnone⟩ := hends.unique (hstep.bind hrun.ends)
  obtain ⟨rfl, rfl⟩ := List.append_eq_nil_iff.mp hnone.symm
  exact ⟨rfl, final, hrun.ends, htrees, hcursor⟩

/-- A clean run over the items of a text finds its items, and nothing is left. -/
theorem items_of_rounds (count : Nat) (h : state.cursor.Before tokens) (hfit : state.cursor.Fit)
    (hcount : state.cursor.rest.length < count) {outcome : Outcome PUnit}
    (hends : Ends (itemRounds count) state outcome []) : Items tokens (coreAll outcome.trees) := by
  induction count generalizing state tokens outcome with
  | zero => exact absurd hcount (Nat.not_lt_zero _)
  | succ count ih =>
      have hout : Outside true state.cursor := ⟨⟨h.sound.ended, fun _ => hfit⟩, h.nesting_eq⟩
      cases tokens with
      | nil =>
          have hnone : Ends (itemRounds (count + 1)) state ⟨(), [], true, state.cursor⟩ [] :=
            ends_quiet (itemRounds_nil h count)
          obtain ⟨-, -, htrees, -⟩ := hends.unique hnone
          rw [htrees, coreAll]
          exact .nil
      | cons first rest =>
          have hpeek := kind_ne_of_before h
          have hkind := kind_peek_of_before h
          by_cases hline : first.kind = .newline
          · have hround := (itemRounds_newline (hkind.trans hline) count).symm.trans hends
            have hless := length_behind_lt h.sound.ended hpeek
            have hbump : Ends bump state (taking true state.cursor) [] := rfl
            obtain ⟨-, final, hfinal, htrees, -⟩ := exists_rounds hbump hout.behind
              (by change state.cursor.behind.rest.length < count; omega) hround
            rw [htrees, coreAll_append, taking, coreAll_nextTokens h]
            exact .newline hline (ih (behind_before h) hfit.behind
              (by change state.cursor.behind.rest.length < count; omega) hfinal)
          · have hround := (itemRounds_item hpeek (hkind ▸ hline) count).symm.trans hends
            obtain ⟨result, said, hrun, hitem⟩ := (item_reads hout hpeek).runs hout.toStands rfl
            have hless : result.cursor.rest.length < count := by
              have := hrun.reached.length_lt hitem.taken
              omega
            obtain ⟨rfl, final, hfinal, htrees, -⟩ :=
              exists_rounds hrun.ends (hout.reached hrun.reached) hless hround
            obtain ⟨taken, tree, hview, hcore, htakes, hnesting, hlast⟩ :=
              item_takes h hfit hrun.ends
            rw [hview, htrees, coreAll_append, hcore]
            exact .item htakes (ih ⟨hlast.sound, hnesting, rfl⟩ hlast hless hfinal)

/-- Wherever the tokens of some items are all that is left, a run finds these items. -/
theorem Items.rounds {trees : List SyntaxTree} (h : Items tokens trees) {count : Nat}
    (hbefore : state.cursor.Before tokens) (hcount : tokens.length < count) :
    Makes (itemRounds count) state trees [] := by
  induction h generalizing count state with
  | nil =>
      obtain ⟨count, rfl⟩ := Nat.exists_eq_succ_of_ne_zero (Nat.ne_of_gt hcount)
      exact ⟨⟨(), [], true, state.cursor⟩, ends_quiet (itemRounds_nil hbefore count),
        by rw [coreAll], hbefore⟩
  | newline hline hrest ih =>
      obtain ⟨count, rfl⟩ := Nat.exists_eq_succ_of_ne_zero (Nat.ne_of_gt (Nat.zero_lt_of_lt hcount))
      have hround := itemRounds_newline ((kind_peek_of_before hbefore).trans hline) count
      obtain ⟨outcome, hends, hmade⟩ := (bump_makes hbefore).bind fun _ hbehind =>
        ih hbehind (Nat.lt_of_succ_lt_succ hcount)
      exact ⟨outcome, hround.trans hends, hmade⟩
  | @item taken rest tree trees hitem hrest ih =>
      obtain ⟨count, rfl⟩ := Nat.exists_eq_succ_of_ne_zero (Nat.ne_of_gt (Nat.zero_lt_of_lt hcount))
      obtain ⟨first, more, rfl, hfirst⟩ := hitem.shape.opens
      have hshorter : rest.length < count := by
        rw [List.length_append, List.length_cons] at hcount
        omega
      have hround := itemRounds_item (kind_ne_of_before hbefore)
        (by rwa [kind_peek_of_before hbefore]) count
      obtain ⟨outcome, hends, hmade⟩ :=
        (hitem.elsewhere state _ hbefore (.inr rfl)).bind fun _ hbehind => ih hbehind hshorter
      exact ⟨outcome, hround.trans hends, hmade⟩

theorem length_view_le (cursor : Cursor) : cursor.view.length ≤ cursor.rest.length := by
  simpa [view] using List.length_filter_le _ _

/-- A clean run over a text finds its items. -/
theorem items_of_clean (h : state.cursor.Before tokens) (hfit : state.cursor.Fit)
    {outcome : Outcome PUnit} (hends : Ends items state outcome []) :
    Items tokens (coreAll outcome.trees) :=
  items_of_rounds _ h hfit (Nat.lt_succ_self _) hends

/-- The items of the tokens of a text are found in it. -/
theorem Items.run {trees : List SyntaxTree} (h : Items tokens trees)
    (hbefore : state.cursor.Before tokens) : Makes items state trees [] :=
  h.rounds hbefore (Nat.lt_succ_of_le (hbefore.view_eq ▸ length_view_le state.cursor))

/-- Tokens as a text without flaws has them, but for trivia and places. -/
def Proper (tokens : List Token) : Prop :=
  ∀ token ∈ tokens, token.bare = token ∧ token.isTrivia = false ∧ token.kind ≠ .endOfFile ∧
    token.kind ≠ .invalid ∧ token.Readable

/-- The parser before some tokens that are all of its text. -/
def alone (tokens : List Token) : ParseState := .start ⟨tokens, endToken, []⟩

theorem Proper.fit (h : Proper tokens) : (alone tokens).cursor.Fit where
  sound := ⟨rfl, fun token htoken => ⟨(h token htoken).2.2.1, (h token htoken).2.2.2.1⟩, rfl⟩
  readable token htoken := (h token htoken).2.2.2.2

theorem Proper.before (h : Proper tokens) : (alone tokens).cursor.Before tokens := by
  have hfilter : tokens.filter (fun token => !token.isTrivia) = tokens :=
    List.filter_eq_self.mpr fun token htoken => by simp [(h token htoken).2.1]
  refine ⟨h.fit.sound, rfl, ?_⟩
  calc (alone tokens).cursor.view
    _ = tokens.map Token.bare := congrArg (List.map Token.bare) hfilter
    _ = tokens.map id := List.map_congr_left fun token htoken => (h token htoken).1
    _ = tokens := List.map_id tokens

theorem proper_of_fit {cursor : Cursor} (h : cursor.Fit) : Proper cursor.view := by
  intro token htoken
  obtain ⟨other, hother, rfl⟩ := List.mem_map.mp htoken
  obtain ⟨hmem, htrivia⟩ := List.mem_filter.mp hother
  exact ⟨rfl, show other.isTrivia = false by simpa using htrivia, (h.sound.inside other hmem).1,
    (h.sound.inside other hmem).2, h.readable other hmem⟩

theorem Proper.of_append_right {tokens more : List Token} (h : Proper (tokens ++ more)) :
    Proper more :=
  fun token htoken => h token (List.mem_append_right _ htoken)

theorem Proper.of_append_left {tokens more : List Token} (h : Proper (tokens ++ more)) :
    Proper tokens :=
  fun token htoken => h token (List.mem_append_left _ htoken)

/-- Tokens begin with one item at most. -/
theorem TakesItem.unique {taken rest other behind : List Token} {tree twin : SyntaxTree}
    (h : TakesItem taken rest tree) (hother : TakesItem other behind twin)
    (heq : taken ++ rest = other ++ behind) (hproper : Proper (taken ++ rest)) :
    taken = other ∧ rest = behind ∧ tree = twin := by
  have hfirst := h.elsewhere _ rest hproper.before (.inr rfl)
  obtain ⟨htree, rfl⟩ :=
    hfirst.unique (hother.elsewhere _ behind (heq ▸ hproper.before) (.inr rfl))
  exact ⟨List.append_cancel_right heq, rfl, List.singleton_inj.mp htree⟩

theorem Items.unique {trees others : List SyntaxTree} (h : Items tokens trees)
    (hother : Items tokens others) (hproper : Proper tokens) : trees = others :=
  ((h.run hproper.before).unique (hother.run hproper.before)).1

theorem Items.of_newline {token : Token} {rest : List Token} {trees : List SyntaxTree}
    (h : Items (token :: rest) trees) (hkind : token.kind = .newline) :
    ∃ others, trees = .token token :: others ∧ Items rest others := by
  generalize htokens : token :: rest = tokens at h
  cases h with
  | nil => cases htokens
  | newline _ hrest =>
      obtain ⟨rfl, rfl⟩ := List.cons.inj htokens
      exact ⟨_, rfl, hrest⟩
  | item hitem _ =>
      obtain ⟨first, more, rfl, hfirst⟩ := hitem.shape.opens
      obtain ⟨rfl, -⟩ := List.cons.inj htokens
      exact absurd hkind hfirst

theorem Items.of_item {taken rest : List Token} {tree : SyntaxTree} {trees : List SyntaxTree}
    (h : Items (taken ++ rest) trees) (hitem : TakesItem taken rest tree)
    (hproper : Proper (taken ++ rest)) :
    ∃ others, trees = tree :: others ∧ Items rest others := by
  generalize htokens : taken ++ rest = tokens at h
  cases h with
  | nil =>
      have := hitem.shape.ne_nil
      simp_all
  | newline hkind _ =>
      obtain ⟨first, more, rfl, hfirst⟩ := hitem.shape.opens
      obtain ⟨rfl, -⟩ := List.cons.inj htokens
      exact absurd hkind hfirst
  | item hother hrest =>
      obtain ⟨rfl, rfl, rfl⟩ := hitem.unique hother htokens hproper
      exact ⟨_, rfl, hrest⟩

/-- Tokens at whose beginning an item opens that ends whatever stands before it. -/
def Opens (tokens : List Token) : Prop :=
  ∃ token rest, tokens = token :: rest ∧ (isItemKeyword token.kind = true ∨
    token.kind = .identifier ∧ ∃ colon more, rest = colon :: more ∧ colon.kind = .mark .colon)

theorem Opens.not_endsLine {tokens : List Token} (h : Opens tokens) : endsLine tokens = false := by
  obtain ⟨token, rest, rfl, hword | ⟨hname, -⟩⟩ := h
  · cases hkind : token.kind with
    | keyword word => simp [endsLine, ahead_zero_cons, hkind, isLineEnd]
    | _ => simp [hkind, isItemKeyword] at hword
  · simp [endsLine, ahead_zero_cons, hname, isLineEnd]

/-- A clean text whose second token is a colon opens an item. -/
theorem Items.opens {first colon : Token} {rest : List Token} {trees : List SyntaxTree}
    (h : Items (first :: colon :: rest) trees) (hline : first.kind ≠ .newline)
    (hcolon : colon.kind = .mark .colon) : Opens (first :: colon :: rest) := by
  refine ⟨first, _, rfl, ?_⟩
  generalize htokens : first :: colon :: rest = tokens at h
  cases h with
  | nil => cases htokens
  | newline hkind _ =>
      obtain ⟨rfl, -⟩ := List.cons.inj htokens
      exact absurd hkind hline
  | item hitem _ =>
      cases hitem.shape with
      | label hname =>
          obtain ⟨rfl, -⟩ := List.cons.inj htokens
          exact Or.inr ⟨hname, colon, rest, rfl, hcolon⟩
      | @instruction _ more _ _ _ hplain hend =>
          obtain ⟨rfl, hrest⟩ := List.cons.inj htokens
          exfalso
          cases more with
          | nil =>
              obtain rfl : _ = _ := hrest
              simp [endsLine, ahead_zero_cons, hcolon, isLineEnd] at hend
          | cons second more =>
              obtain ⟨rfl, -⟩ := List.cons.inj hrest
              exact (hplain.inner colon (by simp)).1 hcolon
      | definition hword =>
          obtain ⟨rfl, -⟩ := List.cons.inj htokens
          exact Or.inl (by rw [hword]; rfl)
      | function hencloses | subroutine hencloses =>
          obtain ⟨_, _, _, rfl, hword, -⟩ := hencloses
          obtain ⟨rfl, -⟩ := List.cons.inj htokens
          exact Or.inl (by rw [hword]; rfl)

/-- A line does not run on into an item. -/
theorem Opens.not_plain {tokens taken rest : List Token} (h : Opens tokens)
    (heq : tokens = taken ++ rest) (hne : taken ≠ []) (hend : endsLine rest = true) :
    ¬ Plain taken := by
  intro hplain
  obtain ⟨token, others, rfl, hopens⟩ := h
  obtain ⟨first, more, rfl⟩ := List.exists_cons_of_ne_nil hne
  obtain ⟨rfl, rfl⟩ := List.cons.inj heq
  rcases hopens with hword | ⟨-, colon, behind, hcolon, hkind⟩
  · rw [(hplain.inner token (List.mem_cons_self ..)).2] at hword
    cases hword
  · cases more with
    | nil =>
        obtain rfl : rest = colon :: behind := hcolon
        simp [endsLine, ahead_zero_cons, hkind, isLineEnd] at hend
    | cons second more =>
        obtain ⟨rfl, -⟩ := List.cons.inj hcolon
        exact (hplain.inner second (by simp)).1 hkind

theorem Plain.of_append_right {taken more : List Token} (h : Plain (taken ++ more)) :
    Plain more where
  inner token htoken := h.inner token (List.mem_append_right _ htoken)
  last token htoken := by
    apply h.last
    rw [List.getLast?_append]
    simpa using Or.inl htoken

theorem Shape.of_inner {first : Token} {more rest : List Token} {tree : SyntaxTree}
    (h : Shape (first :: more) rest tree) (hfirst : isInner first.kind = true) :
    (∃ colon, more = [colon] ∧ colon.kind = .mark .colon) ∨
      Plain (first :: more) ∧ endsLine rest = true := by
  generalize htaken : first :: more = taken at h
  have hword : isItemKeyword first.kind = false := (isInner_ne hfirst).2.2.2
  cases h with
  | label _ hcolon =>
      obtain ⟨rfl, rfl⟩ := List.cons.inj htaken
      exact Or.inl ⟨_, rfl, hcolon⟩
  | instruction _ hplain hend => exact Or.inr ⟨htaken ▸ hplain, hend⟩
  | definition hkind =>
      obtain ⟨rfl, rfl⟩ := List.cons.inj htaken
      rw [hkind] at hword
      cases hword
  | function hencloses | subroutine hencloses =>
      obtain ⟨_, _, _, rfl, hkind, -⟩ := hencloses
      obtain ⟨rfl, -⟩ := List.cons.inj htaken
      rw [hkind] at hword
      cases hword

theorem Shape.of_definition {first : Token} {more rest : List Token} {tree : SyntaxTree}
    (h : Shape (first :: more) rest tree) (hfirst : first.kind = .keyword .definition) :
    Plain more ∧ endsLine rest = true := by
  generalize htaken : first :: more = taken at h
  cases h with
  | label hkind =>
      obtain ⟨rfl, -⟩ := List.cons.inj htaken
      simp [hfirst] at hkind
  | instruction hinner =>
      obtain ⟨rfl, -⟩ := List.cons.inj htaken
      rw [hfirst] at hinner
      cases hinner
  | definition _ hplain hend =>
      obtain ⟨-, rfl⟩ := List.cons.inj htaken
      exact ⟨hplain, hend⟩
  | function hencloses | subroutine hencloses =>
      obtain ⟨_, _, _, rfl, hkind, -⟩ := hencloses
      obtain ⟨rfl, -⟩ := List.cons.inj htaken
      simp [hfirst] at hkind

/-- The words that a function or a subroutine begins and ends with. -/
def Pairs (opener closer : Keyword) : Prop :=
  opener = .function ∧ closer = .endFunction ∨ opener = .subroutine ∧ closer = .endSubroutine

theorem Shape.of_opener {opener closer : Keyword} {first : Token} {more rest : List Token}
    {tree : SyntaxTree} (h : Shape (first :: more) rest tree) (hpair : Pairs opener closer)
    (hfirst : first.kind = .keyword opener) : Encloses opener closer (first :: more) := by
  generalize htaken : first :: more = taken at h
  cases h with
  | label hkind | instruction hkind | definition hkind =>
      obtain ⟨rfl, -⟩ := List.cons.inj htaken
      rcases hpair with ⟨rfl, -⟩ | ⟨rfl, -⟩ <;> simp [hfirst, isInner, isItemKeyword] at hkind
  | function hencloses =>
      obtain ⟨_, _, _, heq, hkind, -⟩ := id hencloses
      obtain ⟨rfl, -⟩ := List.cons.inj (htaken.trans heq)
      rcases hpair with ⟨rfl, rfl⟩ | ⟨rfl, -⟩
      · exact htaken ▸ hencloses
      · simp [hfirst] at hkind
  | subroutine hencloses =>
      obtain ⟨_, _, _, heq, hkind, -⟩ := id hencloses
      obtain ⟨rfl, -⟩ := List.cons.inj (htaken.trans heq)
      rcases hpair with ⟨rfl, -⟩ | ⟨rfl, rfl⟩
      · simp [hfirst] at hkind
      · exact htaken ▸ hencloses

/-- A procedure ends where its closing word stands first. -/
theorem Encloses.unique {opener closer : Keyword} {taken more : List Token}
    (h : Encloses opener closer taken) (hmore : Encloses opener closer (taken ++ more)) :
    more = [] := by
  obtain ⟨word, middle, last, rfl, -, hlast, -⟩ := h
  obtain ⟨word', middle', last', heq, -, -, hmiddle'⟩ := hmore
  by_contra hne
  obtain ⟨init, final, rfl⟩ := (List.eq_nil_or_concat more).resolve_left hne
  have hbehind : middle ++ [last] ++ init = middle' := by
    have htail : middle ++ [last] ++ init ++ [final] = middle' ++ [last'] := by
      simpa using (List.cons.inj heq).2
    exact (List.append_inj' htail rfl).1
  exact hmiddle' last (by simp [← hbehind]) hlast

/-- What ends with its text, but is no label, does not run on into an item. -/
theorem Shape.stops {taken more rest : List Token} {tree twin : SyntaxTree}
    (h : Shape taken [] tree) (hmore : Shape (taken ++ more) rest twin) (hne : more ≠ [])
    (hopens : Opens (more ++ rest)) : tree.kind? = some .label := by
  obtain ⟨first, others, rfl, -⟩ := h.opens
  cases h with
  | label => rfl
  | instruction hfirst hplain _ _ =>
      exfalso
      rcases hmore.of_inner hfirst with ⟨colon, heq, hcolon⟩ | ⟨hplain', hend⟩
      · -- A name and a colon, of which the text has the name alone.
        obtain rfl : more = [colon] := by
          cases others with
          | nil => simpa using heq
          | cons _ _ =>
              obtain ⟨-, hmore⟩ := List.append_eq_nil_iff.mp (List.cons.inj heq).2
              exact absurd hmore hne
        obtain ⟨token, behind, heq', hword | ⟨hname, -⟩⟩ := hopens
        all_goals
          obtain ⟨rfl, -⟩ := List.cons.inj heq'
          simp_all [isItemKeyword]
      · exact hopens.not_plain rfl hne hend (Plain.of_append_right
          (show Plain ((first :: others) ++ more) from hplain'))
  | definition hfirst _ _ _ =>
      obtain ⟨hplain, hend⟩ := hmore.of_definition hfirst
      exact absurd hplain.of_append_right (hopens.not_plain rfl hne hend)
  | function hencloses =>
      obtain ⟨_, _, _, heq, hword, -⟩ := id hencloses
      obtain ⟨rfl, -⟩ := List.cons.inj heq
      exact absurd (hencloses.unique (hmore.of_opener (.inl ⟨rfl, rfl⟩) hword)) hne
  | subroutine hencloses =>
      obtain ⟨_, _, _, heq, hword, -⟩ := id hencloses
      obtain ⟨rfl, -⟩ := List.cons.inj heq
      exact absurd (hencloses.unique (hmore.of_opener (.inr ⟨rfl, rfl⟩) hword)) hne

theorem Shape.congr {taken rest behind : List Token} {tree : SyntaxTree}
    (h : Shape taken rest tree)
    (hahead : tree.kind? = some .label ∨ ahead 0 behind = ahead 0 rest) :
    Shape taken behind tree := by
  have hend (hkind : tree.kind? ≠ some .label) (hend : endsLine rest = true) :
      endsLine behind = true := by
    rw [endsLine, hahead.resolve_left hkind]
    exact hend
  cases h with
  | label hname hcolon => exact .label hname hcolon
  | instruction hfirst hplain hends htree =>
      exact .instruction hfirst hplain (hend (by simp [htree]) hends) htree
  | definition hword hplain hends htree =>
      exact .definition hword hplain (hend (by simp [htree]) hends) htree
  | function hencloses hends htree =>
      exact .function hencloses (hend (by simp [htree]) hends) htree
  | subroutine hencloses hends htree =>
      exact .subroutine hencloses (hend (by simp [htree]) hends) htree

/-- An item is taken alike before all tokens that begin alike. -/
theorem TakesItem.congr {taken rest behind : List Token} {tree : SyntaxTree}
    (h : TakesItem taken rest tree)
    (hahead : tree.kind? = some .label ∨ ahead 0 behind = ahead 0 rest) :
    TakesItem taken behind tree where
  shape := h.shape.congr hahead
  named := h.named
  elsewhere state other hstate hother :=
    h.elsewhere state other hstate
      (hahead.elim Or.inl fun hahead => hother.imp id fun hother => hother.trans hahead)

theorem Shape.label_or_endsLine {taken rest : List Token} {tree : SyntaxTree}
    (h : Shape taken rest tree) : tree.kind? = some .label ∨ endsLine rest = true := by
  cases h with
  | label => exact Or.inl rfl
  | instruction _ _ hend | definition _ _ hend | function _ hend | subroutine _ hend =>
      exact Or.inr hend

/-- An item that another one follows in a text of clean items is an item of that text. -/
theorem TakesItem.of_append {taken rest behind : List Token} {tree : SyntaxTree}
    (h : TakesItem taken rest tree) (hopens : Opens behind) {trees : List SyntaxTree}
    (hwhole : Items (taken ++ (rest ++ behind)) trees)
    (hproper : Proper (taken ++ (rest ++ behind))) :
    TakesItem taken (rest ++ behind) tree := by
  by_cases hlabel : tree.kind? = some .label
  · exact h.congr (Or.inl hlabel)
  by_cases hrest : rest ≠ []
  · exact h.congr (Or.inr (ahead_zero_append hrest behind))
  obtain rfl : rest = [] := not_not.mp hrest
  -- The item ends with its text, so that nothing ends its line before the item that follows.
  exfalso
  rw [List.nil_append] at hwhole hproper
  generalize htokens : taken ++ behind = tokens at hwhole
  cases hwhole with
  | nil => exact h.shape.ne_nil (List.append_eq_nil_iff.mp htokens).1
  | newline hkind _ =>
      obtain ⟨first, more, rfl, hfirst⟩ := h.shape.opens
      obtain ⟨rfl, -⟩ := List.cons.inj htokens
      exact hfirst hkind
  | @item taken' rest' tree' _ hitem _ =>
      have hequal (htaken : taken' = taken) (hrest : rest' = behind) : False := by
        subst htaken hrest
        rcases hitem.shape.label_or_endsLine with hkind | hend
        · have hsame : TakesItem taken' [] tree' := hitem.congr (Or.inl hkind)
          obtain ⟨-, -, rfl⟩ := h.unique hsame rfl (by
            rw [List.append_nil]
            exact hproper.of_append_left)
          exact hlabel hkind
        · have hnot := hopens.not_endsLine
          rw [hend] at hnot
          cases hnot
      rcases List.append_eq_append_iff.mp htokens with ⟨middle, rfl, rfl⟩ | ⟨middle, rfl, rfl⟩
      · by_cases hmiddle : middle = []
        · exact hequal (by simp [hmiddle]) (by simp [hmiddle])
        · exact hlabel (h.shape.stops hitem.shape hmiddle hopens)
      · by_cases hmiddle : middle = []
        · exact hequal (by simp [hmiddle]) (by simp [hmiddle])
        · -- The item of the whole text is shorter, and would be taken from the text alone.
          have hsame := hitem.congr (Or.inr (ahead_zero_append hmiddle behind).symm)
          obtain ⟨-, hnone, -⟩ := hsame.unique h (List.append_nil _).symm hproper.of_append_left
          exact hmiddle hnone

/-- Where the second of two texts opens an item, the items of both together are those of the
first and then those of the second. -/
theorem Items.exists_append {front behind : List Token} {first trees : List SyntaxTree}
    (h : Items front first) (hopens : Opens behind) (hwhole : Items (front ++ behind) trees)
    (hproper : Proper (front ++ behind)) :
    ∃ second, trees = first ++ second ∧ Items behind second := by
  induction h generalizing trees with
  | nil => exact ⟨trees, rfl, hwhole⟩
  | newline hkind _ ih =>
      obtain ⟨others, rfl, hothers⟩ := hwhole.of_newline hkind
      obtain ⟨second, rfl, hsecond⟩ := ih hothers fun token htoken =>
        hproper token (List.mem_cons_of_mem _ htoken)
      exact ⟨second, rfl, hsecond⟩
  | item hitem _ ih =>
      rw [List.append_assoc] at hwhole hproper
      have hitem := hitem.of_append hopens hwhole hproper
      obtain ⟨others, rfl, hothers⟩ := hwhole.of_item hitem hproper
      obtain ⟨second, rfl, hsecond⟩ := ih hothers hproper.of_append_right
      exact ⟨second, rfl, hsecond⟩

/-- The first item of a clean text has a name, if it opens a segment. -/
theorem Items.exists_names {trees : List SyntaxTree} (h : Items tokens trees)
    (hopens : Opens tokens) : ∃ tree rest name, trees = tree :: rest ∧ tree.NamedBy name := by
  cases h with
  | nil =>
      obtain ⟨token, rest, hnil, -⟩ := hopens
      cases hnil
  | newline hline =>
      have hend := hopens.not_endsLine
      simp [endsLine, ahead_zero_cons, hline, isLineEnd] at hend
  | @item taken rest tree trees hitem hrest =>
      have hdeclares : tree.kind?.any declares = true := by
        cases hitem.shape with
        | label => rfl
        | instruction _ hplain hend =>
            exact absurd hplain (hopens.not_plain rfl (List.cons_ne_nil _ _) hend)
        | definition _ _ _ hkind | function _ _ hkind | subroutine _ _ hkind =>
            rw [hkind]
            rfl
      obtain ⟨name, hname⟩ := hitem.named hdeclares
      exact ⟨tree, trees, name, rfl, hname⟩

end Parser

end NovelAsm
