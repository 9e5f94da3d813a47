import NovelAsm.Proofs.SyntaxTree.Reads

/-!
Runs in lockstep. A `Lockstep` compares a run with a second one, which begins near the first one:
it says when two cursors are near each other, what is asked of the first run, and which trees and
reports are then the same. Its laws are about one step each. That all runs obey them is shown by
the same induction that shows that there are runs (`Parser.Reads.runs`), so a new way of comparing
runs needs no proof for each routine of the grammar.
-/

namespace NovelAsm

/-- The state in which the right operand of an operator is read. -/
def ParseState.operated (state : ParseState) (left : Parser.Outcome PUnit) (said : Diagnostics) :
    ParseState where
  cursor := left.cursor.behind
  top := ⟨.binaryExpr, left.trees ++ left.cursor.nextTokens.map .token⟩
  outer := state.stack
  diagnostics := state.diagnostics ++ said

namespace Parser

open SyntaxTree

variable {α β : Type}

/-- A run from a state ends with an outcome, and something has been reported meanwhile. -/
def Ends (parser : Parser α) (state : ParseState) (outcome : Outcome α) (said : Diagnostics) :
    Prop :=
  parser state = some (outcome.answer, state.after outcome.cursor outcome.trees said)

/-- A report of a problem at the next token. -/
def complaint (problem : SyntaxProblem) (cursor : Cursor) : Diagnostic :=
  .error problem.code (ascii problem.message) cursor.peek.span

/-- A way of comparing the trees that two runs make. -/
structure Likeness where
  same : List SyntaxTree → List SyntaxTree → Prop
  same_nil : same [] []
  same_append {trees copies more others : List SyntaxTree} :
    same trees copies → same more others → same (trees ++ more) (copies ++ others)
  same_node {kind : SyntaxKind} {trees copies : List SyntaxTree} :
    kind.isOneToken = false → same trees copies → same [.node kind trees] [.node kind copies]

/-- Trees are the same if they have the same core. -/
def Likeness.cores : Likeness where
  same trees copies := coreAll copies = coreAll trees
  same_nil := rfl
  same_append h hmore := by rw [coreAll_append, coreAll_append, h, hmore]
  same_node _ h := coreAll_node_congr _ h

/-- A way of comparing what two runs report. -/
structure Agreement where
  tells : Diagnostics → Diagnostics → Prop
  tells_nil : tells [] []
  tells_append {said copy more other : Diagnostics} :
    tells said copy → tells more other → tells (said ++ more) (copy ++ other)

/-- The second run reports nothing. -/
def Agreement.silence : Agreement where
  tells _ more := more = []
  tells_nil := rfl
  tells_append h hmore := by rw [h, hmore]; rfl

/-- A way of comparing a run with a second one that begins near it. What is asked of the first run
depends on whether it is clean, on what it makes and where it ends. -/
structure Lockstep extends Likeness, Agreement where
  near : Cursor → Cursor → Prop
  asks : Bool → List SyntaxTree → Cursor → Prop
  asks_tail {clean : Bool} {trees more : List SyntaxTree} {last : Cursor} :
    asks clean (trees ++ more) last → asks clean more last
  asks_front {allowed : Allowed} {clean : Bool} {middle : Cursor} {trees : List SyntaxTree}
    {outcome : Outcome PUnit} : Reached allowed clean middle outcome →
      asks outcome.clean (trees ++ outcome.trees) outcome.cursor → asks clean trees middle
  asks_node {kind : SyntaxKind} {clean : Bool} {trees : List SyntaxTree} {last : Cursor} :
    kind.isOneToken = false → asks clean [.node kind trees] last → asks clean trees last
  asks_inside {clean : Bool} {trees : List SyntaxTree} {cursor : Cursor} : Stands clean cursor →
    cursor.peek.kind ≠ .endOfFile → cursor.peek.kind.Closes →
      asks clean (trees ++ cursor.nextTokens.map .token) cursor.behind.leave →
        asks clean trees cursor
  asks_unclosed {clean : Bool} {trees : List SyntaxTree} {cursor : Cursor} :
    asks false trees cursor.leave → asks clean trees cursor
  nesting_eq {cursor twin : Cursor} : near cursor twin → twin.nesting = cursor.nesting
  kind_peek {clean : Bool} {trees : List SyntaxTree} {cursor twin : Cursor} :
    near cursor twin → asks clean trees cursor → twin.peek.kind = cursor.peek.kind
  kind_peekSecond {allowed : Allowed} {clean : Bool} {cursor twin : Cursor}
    {outcome : Outcome PUnit} : near cursor twin → Reached allowed clean cursor outcome →
      (outcome.clean = true → leavesOf outcome.trees ≠ []) →
      asks outcome.clean outcome.trees outcome.cursor → cursor.peek.kind.IsFlat →
        twin.peekSecond.kind = cursor.peekSecond.kind
  isFlag_eq {allowed : Allowed} {clean : Bool} {cursor twin : Cursor}
    {outcome : Outcome PUnit} : near cursor twin → Reached allowed clean cursor outcome →
      (outcome.clean = true → leavesOf outcome.trees ≠ []) →
      asks outcome.clean outcome.trees outcome.cursor →
      (isFlag cursor = true →
        ∃ more, outcome.trees = .node .flag (cursor.nextTokens.map .token) :: more) →
        isFlag twin = isFlag cursor
  /-- What the next token does to the depth of brackets is known as long as nothing is wrong. -/
  take {clean : Bool} {depth : Nat} {cursor twin : Cursor} : near cursor twin →
    cursor.peek.kind ≠ .endOfFile →
    (clean = true → cursor.peek.kind.depthBehind cursor.nesting = depth) →
    asks clean (cursor.nextTokens.map .token) (cursor.behind.level depth) →
      same (cursor.nextTokens.map .token) (twin.nextTokens.map .token) ∧
        near (cursor.behind.level depth) (twin.behind.level depth)
  /-- In the place of its token, a node of one token is the same. -/
  leaf {kind : SyntaxKind} {clean : Bool} {cursor twin : Cursor} : near cursor twin →
    cursor.peek.kind ≠ .endOfFile →
    (clean = true → cursor.nesting = 0 ∧ cursor.peek.kind.IsFlat ∨
      cursor.peek.kind.isOperandBefore cursor.peekSecond.kind = true) →
    asks clean [.node kind (cursor.nextTokens.map .token)] cursor.behind →
      same [.node kind (cursor.nextTokens.map .token)] [.node kind (twin.nextTokens.map .token)] ∧
        near cursor.behind twin.behind
  leave {trees : List SyntaxTree} {cursor twin : Cursor} : near cursor twin →
    asks false trees cursor.leave → near cursor.leave twin.leave
  report {trees : List SyntaxTree} {cursor twin : Cursor} (problem : SyntaxProblem) :
    near cursor twin → asks false trees cursor →
      tells [complaint problem cursor] [complaint problem twin]
  fail {trees : List SyntaxTree} {cursor twin : Cursor} : near cursor twin →
    asks false trees (cursor.mark true) → near (cursor.mark true) (twin.mark true)
  restart {cursor twin : Cursor} : near cursor twin → near (cursor.mark false) (twin.mark false)
  failed_eq {cursor twin : Cursor} : near cursor twin → twin.operandFailed = cursor.operandFailed

namespace Lockstep

/-- What is asked of a run. -/
def Asks (step : Lockstep) (outcome : Outcome α) : Prop :=
  step.asks outcome.clean outcome.trees outcome.cursor

/-- The second run brings about the same. -/
structure Follows (step : Lockstep) (other : Parser α) (twin : ParseState) (outcome : Outcome α)
    (said : Diagnostics) (copy : Outcome α) (more : Diagnostics) : Prop where
  ends : Ends other twin copy more
  answer_eq : copy.answer = outcome.answer
  same : step.same outcome.trees copy.trees
  near : step.near outcome.cursor copy.cursor
  tells : step.tells said more

theorem Asks.tail {step : Lockstep} {outcome : Outcome α} {trees : List SyntaxTree}
    (h : step.Asks (outcome.behind trees)) : step.Asks outcome := step.asks_tail h

theorem Asks.front {step : Lockstep} {outcome : Outcome α} {trees : List SyntaxTree}
    {allowed : Allowed} {clean : Bool} {middle : Cursor} (h : step.Asks (outcome.behind trees))
    (hreached : Reached allowed clean middle outcome) : step.asks clean trees middle :=
  step.asks_front (hreached.answering ()) h

theorem Asks.inside {step : Lockstep} {outcome : Outcome α} {kind : SyntaxKind}
    (h : step.Asks (outcome.node kind)) (hkind : kind.isOneToken = false) : step.Asks outcome :=
  step.asks_node hkind h

end Lockstep

/-- However a run is compared with a second one that begins near it: if it brings about what is
asked, the second one does the same, unless a bound of the second one is used up. -/
def Guides (cursor : Cursor) (other : Parser α) (outcome : Outcome α) (said : Diagnostics) : Prop :=
  ∀ (step : Lockstep) (twin : ParseState), step.near cursor twin.cursor → step.Asks outcome →
    (other twin).isSome = true → ∃ copy more, step.Follows other twin outcome said copy more

section Steps

variable {clean : Bool} {cursor : Cursor} {state twin : ParseState}

/-- A run ends in one way. -/
theorem Ends.unique {parser : Parser α} {outcome result : Outcome α} {said more : Diagnostics}
    (h : Ends parser state outcome said) (hother : Ends parser state result more) :
    outcome.answer = result.answer ∧ outcome.cursor = result.cursor ∧
      outcome.trees = result.trees ∧ said = more := by
  obtain ⟨hanswer, hstate⟩ := Prod.mk.inj (Option.some.inj (h.symm.trans hother))
  exact ⟨hanswer, ParseState.after_inj hstate⟩

/-- A run that takes nothing and reports nothing moves the cursor at most. -/
theorem ends_quiet {parser : Parser α} {answer : α}
    (h : parser state = some (answer, { state with cursor := cursor })) :
    Ends parser state ⟨answer, [], clean, cursor⟩ [] := by
  rw [Ends, ParseState.after_nothing]
  exact h

theorem Ends.bind {parser : Parser α} {next : α → Parser β} {outcome : Outcome α}
    {result : Outcome β} {said more : Diagnostics} (h : Ends parser state outcome said)
    (hnext : Ends (next outcome.answer) (state.after outcome.cursor outcome.trees said) result
      more) :
    Ends (parser >>= next) state (result.behind outcome.trees) (said ++ more) := by
  rw [Ends] at h hnext ⊢
  change (parser state).bind _ = _
  rw [h]
  refine hnext.trans ?_
  rw [ParseState.after_after]
  rfl

/-- A node takes what is read in it from the stack. -/
theorem Ends.node {parser : Parser α} {outcome : Outcome α} {said : Diagnostics}
    {kind : SyntaxKind} (h : Ends parser (state.opened kind) outcome said) :
    Ends (node kind parser) state (outcome.node kind) said := by
  rw [Ends] at h ⊢
  change (parser (state.opened kind)).bind (fun (answer, behind) =>
    (finishNode behind).bind fun (_, last) => some (answer, last)) = _
  rw [h]
  rfl

theorem Guides.bind {other : Parser α} {nextOther : α → Parser β} {outcome : Outcome α}
    {result : Outcome β} {said more : Diagnostics} {allowed : Allowed}
    (h : Guides cursor other outcome said)
    (hnext : Guides outcome.cursor (nextOther outcome.answer) result more)
    (hreached : Reached allowed outcome.clean outcome.cursor result) :
    Guides cursor (other >>= nextOther) (result.behind outcome.trees) (said ++ more) := by
  intro step twin hnear hasks hsome
  change ((other twin).bind fun (answer, behind) => nextOther answer behind).isSome = true at hsome
  obtain ⟨copy, others, hfollows⟩ := h step twin hnear (hasks.front hreached)
    (Option.isSome_of_isSome_bind hsome)
  rw [hfollows.ends, Option.bind_some, hfollows.answer_eq] at hsome
  obtain ⟨last, final, hlast⟩ := hnext step
    (twin.after copy.cursor copy.trees others) hfollows.near hasks.tail hsome
  exact ⟨last.behind copy.trees, others ++ final,
    hfollows.ends.bind (hfollows.answer_eq ▸ hlast.ends), hlast.answer_eq,
    step.same_append hfollows.same hlast.same, hlast.near,
    step.tells_append hfollows.tells hlast.tells⟩

theorem Guides.node {other : Parser α} {outcome : Outcome α} {said : Diagnostics}
    {kind : SyntaxKind} (h : Guides cursor other outcome said) (hkind : kind.isOneToken = false) :
    Guides cursor (Parser.node kind other) (outcome.node kind) said := by
  intro step twin hnear hasks hsome
  obtain ⟨copy, more, hfollows⟩ := h step (twin.opened kind) hnear (hasks.inside hkind)
    (Option.isSome_of_isSome_bind hsome)
  exact ⟨copy.node kind, more, hfollows.ends.node, hfollows.answer_eq,
    step.same_node hkind hfollows.same, hfollows.near, hfollows.tells⟩

/-- A step that takes nothing and reports nothing. -/
theorem guides_quiet {other : Parser α} {outcome : Outcome α} (htrees : outcome.trees = [])
    (h : ∀ (step : Lockstep) (twin : ParseState), step.near cursor twin.cursor → step.Asks outcome →
      ∃ last, step.near outcome.cursor last ∧
        other twin = some (outcome.answer, { twin with cursor := last })) :
    Guides cursor other outcome [] := by
  intro step twin hnear hasks _
  obtain ⟨last, hlast, hother⟩ := h step twin hnear hasks
  exact ⟨⟨outcome.answer, [], outcome.clean, last⟩, [], ends_quiet hother, rfl,
    htrees ▸ step.same_nil, hlast, step.tells_nil⟩

theorem guides_bump (hpeek : cursor.peek.kind ≠ .endOfFile)
    (hflat : clean = true → cursor.peek.kind.IsFlat) :
    Guides cursor bump (taking clean cursor) [] := by
  intro step twin hnear hasks _
  obtain ⟨hsame, hbehind⟩ := step.take hnear hpeek
    (fun hclean => hflat hclean cursor.nesting) (by rwa [Cursor.level_behind])
  rw [Cursor.level_behind, ← step.nesting_eq hnear, Cursor.level_behind] at hbehind
  exact ⟨taking clean twin.cursor, [], rfl, rfl, hsame, hbehind, step.tells_nil⟩

theorem guides_leaf {kind : SyntaxKind} (hpeek : cursor.peek.kind ≠ .endOfFile)
    (hwhole : clean = true → cursor.nesting = 0 ∧ cursor.peek.kind.IsFlat ∨
      cursor.peek.kind.isOperandBefore cursor.peekSecond.kind = true) :
    Guides cursor (Parser.node kind bump) ((taking clean cursor).node kind) [] := by
  intro step twin hnear hasks _
  obtain ⟨hsame, hbehind⟩ := step.leaf hnear hpeek hwhole hasks
  exact ⟨(taking clean twin.cursor).node kind, [], rfl, rfl, hsame, hbehind, step.tells_nil⟩

theorem guides_report (problem : SyntaxProblem) :
    Guides cursor (report problem) ⟨(), [], false, cursor⟩ [complaint problem cursor] := by
  intro step twin hnear hasks _
  exact ⟨⟨(), [], false, twin.cursor⟩, [complaint problem twin.cursor], rfl, rfl, step.same_nil,
    hnear, step.report problem hnear hasks⟩

theorem accept_eq (kind : TokenKind) (state : ParseState) :
    accept kind state =
      if state.cursor.peek.kind = kind then
        some (true, state.after state.cursor.behind (state.cursor.nextTokens.map .token) [])
      else some (false, state) := by
  change (if state.cursor.peek.kind == kind then _ else _ : Parser Bool) state = _
  simp only [beq_iff_eq]
  split <;> rfl

theorem expect_eq (kind : TokenKind) (problem : SyntaxProblem) (state : ParseState) :
    expect kind problem state =
      if state.cursor.peek.kind = kind then
        some (true, state.after state.cursor.behind (state.cursor.nextTokens.map .token) [])
      else some (false, state.after state.cursor [] [complaint problem state.cursor]) := by
  change (accept kind state).bind _ = _
  rw [accept_eq]
  split <;> rfl

/-! ## Brackets -/

/-- The report of a bracket that is not closed. -/
def unclosed (cursor : Cursor) (closer : TokenKind) (problem : SyntaxProblem) : Diagnostics :=
  if cursor.peek.kind = closer then [] else [complaint problem cursor]

/-- A closing bracket is taken, or reported to be missing. -/
theorem closing_eq (outcome : Outcome PUnit) (said : Diagnostics) (closer : TokenKind)
    (problem : SyntaxProblem) :
    (require closer problem >>= fun _ => move .leave)
        (state.after outcome.cursor outcome.trees said) =
      some ((), state.after (outcome.closed closer).cursor (outcome.closed closer).trees
        (said ++ unclosed outcome.cursor closer problem)) := by
  have hstep (behind : ParseState) : (require closer problem >>= fun _ => move .leave) behind =
      (expect closer problem behind).map fun (_, last) =>
        ((), { last with cursor := last.cursor.leave }) := by
    change ((expect closer problem behind).bind _).bind _ = _
    cases expect closer problem behind <;> rfl
  rw [hstep, expect_eq, Outcome.closed, unclosed]
  change (if outcome.cursor.peek.kind = closer then _ else _ : Option _).map _ = _
  split
  · rw [ParseState.after_after]
    rfl
  · rw [ParseState.after_after, List.append_nil]
    rfl

theorem bracketed_eq (inside : Parser PUnit) (closer : TokenKind) (problem : SyntaxProblem)
    (state : ParseState) : bracketed closer problem inside state =
      (inside (state.after state.cursor.behind.enter (state.cursor.nextTokens.map .token) [])).bind
        fun (_, behind) => (require closer problem >>= fun _ => move .leave) behind := rfl

theorem Ends.bracketed {inside : Parser PUnit} {closer : TokenKind} {problem : SyntaxProblem}
    {outcome : Outcome PUnit} {said : Diagnostics}
    (h : Ends inside
      (state.after state.cursor.behind.enter (state.cursor.nextTokens.map .token) [])
        outcome said) :
    Ends (bracketed closer problem inside) state
      ((outcome.closed closer).behind (state.cursor.nextTokens.map .token))
      (said ++ unclosed outcome.cursor closer problem) := by
  rw [Ends, bracketed_eq, h]
  refine (closing_eq outcome said closer problem).trans ?_
  rw [ParseState.after_after]
  rfl

/-- The closing bracket is in the same place. -/
theorem Lockstep.closed {step : Lockstep} {outcome copy : Outcome PUnit} {closer : TokenKind}
    (problem : SyntaxProblem) (hnear : step.near outcome.cursor copy.cursor)
    (hsame : step.same outcome.trees copy.trees) (hinside : step.Asks outcome)
    (hcloses : closer.Closes) (hcloser : closer ≠ .endOfFile)
    (hopened : 0 < outcome.cursor.nesting) (hasks : step.Asks (outcome.closed closer)) :
    step.same (outcome.closed closer).trees (copy.closed closer).trees ∧
      step.near (outcome.closed closer).cursor (copy.closed closer).cursor ∧
      step.tells (unclosed outcome.cursor closer problem)
        (unclosed copy.cursor closer problem) := by
  have hkind := step.kind_peek hnear hinside
  rw [Outcome.closed] at hasks ⊢
  rw [Outcome.closed, unclosed, unclosed, hkind]
  split at hasks
  · rename_i hclosed
    rw [if_pos hclosed, if_pos hclosed, if_pos hclosed, if_pos hclosed]
    have hdepth : outcome.clean = true →
        outcome.cursor.peek.kind.depthBehind outcome.cursor.nesting =
          outcome.cursor.nesting - 1 := by
      intro _
      obtain ⟨depth, hdepth⟩ := Nat.exists_eq_add_one.mpr hopened
      rw [hclosed, hdepth, hcloses, Nat.add_sub_cancel]
    obtain ⟨htaken, hbehind⟩ := step.take hnear (hclosed ▸ hcloser) hdepth
      (Cursor.leave_behind outcome.cursor ▸ step.asks_tail hasks)
    rw [← Cursor.leave_behind, ← step.nesting_eq hnear, ← Cursor.leave_behind] at hbehind
    exact ⟨step.same_append hsame htaken, hbehind, step.tells_nil⟩
  · rename_i hmissed
    rw [if_neg hmissed, if_neg hmissed, if_neg hmissed, if_neg hmissed]
    exact ⟨hsame, step.leave hnear hasks, step.report problem hnear (step.asks_unclosed hasks)⟩

theorem Guides.bracketed {other : Parser PUnit} {closer : TokenKind} (problem : SyntaxProblem)
    {outcome : Outcome PUnit} {said : Diagnostics} {allowed : Allowed}
    (h : Guides cursor.behind.enter other outcome said) (hpeek : cursor.peek.kind ≠ .endOfFile)
    (hopens : cursor.peek.kind.Opens) (hcloses : closer.Closes) (hcloser : closer ≠ .endOfFile)
    (hreached : Reached allowed clean cursor.behind.enter outcome)
    (hstands : Stands outcome.clean outcome.cursor) :
    Guides cursor (Parser.bracketed closer problem other)
      ((outcome.closed closer).behind (cursor.nextTokens.map .token))
      (said ++ unclosed outcome.cursor closer problem) := by
  intro step twin hnear hasks hsome
  have hinside : step.Asks (outcome.behind (cursor.nextTokens.map .token)) := by
    rw [Outcome.closed] at hasks
    split at hasks
    · rename_i hclosed
      exact step.asks_inside hstands (hclosed ▸ hcloser) (hclosed ▸ hcloses)
        (by rwa [Lockstep.Asks, Outcome.behind, ← List.append_assoc] at hasks)
    · exact step.asks_unclosed hasks
  obtain ⟨htaken, hentered⟩ := step.take hnear hpeek (fun _ => hopens _)
    (Cursor.enter_behind cursor ▸ hinside.front hreached)
  rw [← Cursor.enter_behind, ← step.nesting_eq hnear, ← Cursor.enter_behind] at hentered
  rw [bracketed_eq] at hsome
  obtain ⟨copy, more, hfollows⟩ := h step (twin.after twin.cursor.behind.enter
    (twin.cursor.nextTokens.map .token) []) hentered hinside.tail
    (Option.isSome_of_isSome_bind hsome)
  have hopened : 0 < outcome.cursor.nesting := by
    rw [hreached.nesting_eq]
    exact Nat.succ_pos _
  obtain ⟨hsame, hlast, htells⟩ := Lockstep.closed problem hfollows.near hfollows.same hinside.tail
    hcloses hcloser hopened hasks.tail
  exact ⟨(copy.closed closer).behind (twin.cursor.nextTokens.map .token), _,
    hfollows.ends.bracketed, rfl, step.same_append htaken hsame, hlast,
    step.tells_append hfollows.tells htells⟩

/-! ## Operators -/

/-- A round that hands nothing on. -/
def repeated (round : Parser Bool) (_ : PUnit) : Parser (Option PUnit) := do
  return if ← round then some () else none

/-- A round of the operators behind a checkpoint. -/
def operatorRound (start : Nat) (operand : Nat → Parser PUnit) (power : Nat) : Parser Bool := do
  let next := bindingPower (← peekKind)
  if next ≤ power then return false else again (binary start (operand next))

/-- The operators behind what is read behind a checkpoint. -/
def operators (first : Nat → Parser PUnit) (operand : Nat → Parser PUnit) (power count : Nat) :
    Parser PUnit := do
  let start ← checkpoint
  first start
  loop (repeated (operatorRound start operand power)) count ()

/-- What is read behind a checkpoint as the left operand of an operator. -/
def behindOperator (first : Nat → Parser PUnit) (operand : Parser PUnit) (start : Nat) :
    Parser PUnit := do
  first start
  binary start operand

theorem operators_zero (first : Nat → Parser PUnit) (operand : Nat → Parser PUnit) (power : Nat)
    (state : ParseState) : operators first operand power 0 state = none := by
  change (first state.top.children.length state).bind (fun _ => none) = none
  cases first state.top.children.length state <;> rfl

/-- The operators behind what has been read, of which the next one is looked at. -/
theorem operators_succ {first : Nat → Parser PUnit} {operand : Nat → Parser PUnit}
    {power count : Nat} {state behind : ParseState}
    (h : (checkpoint >>= first) state = some ((), behind)) :
    operators first operand power (count + 1) state =
      if bindingPower behind.cursor.peek.kind ≤ power then some ((), behind)
      else operators (behindOperator first (operand (bindingPower behind.cursor.peek.kind))) operand
        power count state := by
  have hfirst : first state.top.children.length state = some ((), behind) := h
  change (first state.top.children.length state).bind _ = if _ then _ else
    ((first state.top.children.length state).bind _).bind _
  rw [hfirst]
  change (((if bindingPower behind.cursor.peek.kind ≤ power then _ else _ : Parser Bool)
    behind).bind _).bind _ = _
  split
  · rfl
  · change (((binary state.top.children.length (operand _) behind).bind _).bind _).bind _ =
      (binary state.top.children.length (operand _) behind).bind _
    cases binary state.top.children.length
      (operand (bindingPower behind.cursor.peek.kind)) behind <;> rfl

theorem binary_eq (operand : Parser PUnit) (left : Outcome PUnit) (said : Diagnostics) :
    binary state.top.children.length operand (state.after left.cursor left.trees said) =
      (operand (state.operated left said)).bind fun (_, behind) => finishNode behind := by
  have hstart : startNodeAt state.top.children.length .binaryExpr
      (state.after left.cursor left.trees said) =
        some ((), ⟨left.cursor, ⟨.binaryExpr, left.trees⟩, state.stack,
          state.diagnostics ++ said⟩) := by
    change some ((), (⟨left.cursor, ⟨.binaryExpr, (state.top.children ++ left.trees).drop _⟩,
      ⟨state.top.kind, (state.top.children ++ left.trees).take _⟩ :: state.outer, _⟩ :
        ParseState)) = _
    rw [List.drop_left, List.take_left]
    rfl
  change (startNodeAt state.top.children.length .binaryExpr
    (state.after left.cursor left.trees said)).bind (fun (_, started) =>
      (operand (started.after started.cursor.behind
        (started.cursor.nextTokens.map .token) [])).bind fun (_, behind) => finishNode behind) = _
  rw [hstart]
  change (operand (⟨left.cursor.behind, ⟨.binaryExpr, left.trees ++ _⟩, _, _ ++ []⟩ :
    ParseState)).bind _ = _
  rw [List.append_nil]
  rfl

variable {first : Nat → Parser PUnit} {operand : Parser PUnit} {left right : Outcome PUnit}
  {said more : Diagnostics}

theorem Ends.operated (h : Ends (checkpoint >>= first) state left said)
    (hright : Ends operand (state.operated left said) right more) :
    Ends (checkpoint >>= behindOperator first operand) state (left.operated right)
      (said ++ more) := by
  have hfirst : first state.top.children.length state =
      some ((), state.after left.cursor left.trees said) := h
  rw [Ends]
  change (first state.top.children.length state).bind
    (fun (_, behind) => binary state.top.children.length operand behind) = _
  rw [hfirst]
  change binary state.top.children.length operand _ = _
  rw [binary_eq, hright]
  change some ((), (⟨right.cursor, ⟨state.top.kind, state.top.children ++ _⟩, state.outer,
    state.diagnostics ++ said ++ more⟩ : ParseState)) = _
  rw [List.append_assoc state.diagnostics]
  rfl

/-- What is read in front of all operators does not look at the checkpoint. -/
theorem Ends.checkpoint {first : Parser PUnit} (h : Ends first state left said) :
    Ends (Parser.checkpoint >>= fun _ => first) state left said := h

/-- Where no operator binds tighter, the operand is all. -/
theorem Ends.operators_last {power : Nat} (h : Ends (Parser.checkpoint >>= first) state left said)
    (operands : Nat → Parser PUnit) (hpower : bindingPower left.cursor.peek.kind ≤ power)
    (count : Nat) :
    Ends (operators first operands power (count + 1)) state left said :=
  (operators_succ h).trans (if_pos hpower)

/-- An operator that binds tighter makes a new left operand. -/
theorem Ends.operators_next {power : Nat} (h : Ends (Parser.checkpoint >>= first) state left said)
    (operands : Nat → Parser PUnit) (hpower : power < bindingPower left.cursor.peek.kind)
    (count : Nat) :
    operators first operands power (count + 1) state = operators
      (behindOperator first (operands (bindingPower left.cursor.peek.kind))) operands power count
        state :=
  (operators_succ h).trans (if_neg (Nat.not_le.mpr hpower))

/-- What is asked of an operator is asked of its operands. -/
theorem Lockstep.Asks.operands {step : Lockstep} {allowed : Allowed}
    (h : step.Asks (left.operated right)) (hstands : Stands left.clean left.cursor)
    (hpeek : left.cursor.peek.kind ≠ .endOfFile)
    (hallowed : allowed.takes left.cursor.peek.kind = true)
    (hright : Reached allowed left.clean left.cursor.behind right) :
    step.Asks left ∧ step.Asks (taking left.clean left.cursor) ∧ step.Asks right := by
  have htrees := step.asks_node rfl h
  have hfront := step.asks_front hright htrees
  have htaken : Reached allowed left.clean left.cursor (taking left.clean left.cursor) :=
    reached_taking hstands hpeek fun _ => hallowed
  exact ⟨step.asks_front htaken hfront, step.asks_tail hfront, step.asks_tail htrees⟩

theorem Guides.operated {allowed : Allowed} (h : Guides cursor (checkpoint >>= first) left said)
    (hmore : Guides left.cursor.behind operand right more) (hstands : Stands left.clean left.cursor)
    (hpeek : left.cursor.peek.kind ≠ .endOfFile) (hflat : left.cursor.peek.kind.IsFlat)
    (hallowed : allowed.takes left.cursor.peek.kind = true)
    (hright : Reached allowed left.clean left.cursor.behind right) :
    Guides cursor (checkpoint >>= behindOperator first operand) (left.operated right)
      (said ++ more) := by
  intro step twin hnear hasks hsome
  obtain ⟨hleft, htaken, hlast⟩ := hasks.operands hstands hpeek hallowed hright
  have hrun : (checkpoint >>= behindOperator first operand) twin =
      ((checkpoint >>= first) twin).bind fun (_, behind) =>
        binary twin.top.children.length operand behind := rfl
  rw [hrun] at hsome
  obtain ⟨copy, others, hfollows⟩ := h step twin hnear hleft (Option.isSome_of_isSome_bind hsome)
  rw [hfollows.ends] at hsome
  change (binary twin.top.children.length operand _).isSome = true at hsome
  rw [binary_eq] at hsome
  obtain ⟨hsame, hbehind⟩ := step.take hfollows.near hpeek
    (fun _ => hflat left.cursor.nesting) (by rwa [Cursor.level_behind])
  rw [Cursor.level_behind, ← step.nesting_eq hfollows.near, Cursor.level_behind] at hbehind
  obtain ⟨final, last, hfinal⟩ := hmore step (twin.operated copy others) hbehind hlast
    (Option.isSome_of_isSome_bind hsome)
  exact ⟨copy.operated final, others ++ last, hfollows.ends.operated hfinal.ends, rfl,
    step.same_node rfl (step.same_append (step.same_append hfollows.same hsame) hfinal.same),
    hfinal.near, step.tells_append hfollows.tells hfinal.tells⟩

variable {operands : Nat → Parser PUnit} {power : Nat}

/-- Where no operator binds tighter, there is none in the other run either. -/
theorem Guides.last (h : Guides cursor (checkpoint >>= first) left said)
    (hpower : bindingPower left.cursor.peek.kind ≤ power) (count : Nat) :
    Guides cursor (operators first operands power count) left said := by
  intro step twin hnear hasks hsome
  obtain ⟨copy, others, hfollows⟩ := h step twin hnear hasks
    (Option.isSome_of_isSome_bind (f := fun (_, behind) => loop
      (repeated (operatorRound twin.top.children.length operands power)) count () behind) hsome)
  cases count with
  | zero => simp [operators_zero] at hsome
  | succ count =>
      have hstop : bindingPower copy.cursor.peek.kind ≤ power := by
        rwa [step.kind_peek hfollows.near hasks]
      exact ⟨copy, others,
        { hfollows with ends := hfollows.ends.operators_last operands hstop count }⟩

/-- An operator that binds tighter is found in the other run. -/
theorem Guides.next {outcome : Outcome PUnit} (h : Guides cursor (checkpoint >>= first) left said)
    (hpower : power < bindingPower left.cursor.peek.kind)
    (hmore : ∀ count, Guides cursor (operators
      (behindOperator first (operands (bindingPower left.cursor.peek.kind))) operands power count)
      outcome more)
    (hleft : ∀ step : Lockstep, step.Asks outcome → step.Asks left) (count : Nat) :
    Guides cursor (operators first operands power count) outcome more := by
  intro step twin hnear hasks hsome
  obtain ⟨copy, others, hfollows⟩ := h step twin hnear (hleft step hasks)
    (Option.isSome_of_isSome_bind (f := fun (_, behind) => loop
      (repeated (operatorRound twin.top.children.length operands power)) count () behind) hsome)
  cases count with
  | zero => simp [operators_zero] at hsome
  | succ count =>
      have hkind := step.kind_peek hfollows.near (hleft step hasks)
      have hround : operators first operands power (count + 1) twin = _ :=
        hfollows.ends.operators_next operands (by rwa [hkind]) count
      rw [hkind] at hround
      rw [hround] at hsome
      obtain ⟨final, last, hfinal⟩ := hmore count step twin hnear hasks hsome
      exact ⟨final, last, { hfinal with ends := hround.trans hfinal.ends }⟩

theorem climb_eq (first : Parser PUnit) (operands : Nat → Parser PUnit) (power : Nat)
    (state : ParseState) : climb first operands power state =
      (first state).bind fun (_, behind) =>
        operators (fun _ => first) operands power (behind.cursor.rest.length + 1) state := by
  change (first state).bind _ = _
  cases hfirst : first state with
  | none => rfl
  | some result =>
      change _ = (first state).bind _
      rw [hfirst]
      rfl

theorem Ends.climb {first : Parser PUnit} {operands : Nat → Parser PUnit} {power : Nat}
    {outcome : Outcome PUnit} (h : Ends first state left said)
    (hmore : Ends (operators (fun _ => first) operands power (left.cursor.rest.length + 1)) state
      outcome more) :
    Ends (Parser.climb first operands power) state outcome more := by
  rw [Ends, climb_eq, h]
  exact hmore

theorem Guides.climb {other : Parser PUnit} {outcome : Outcome PUnit}
    (h : ∀ count, Guides cursor (operators (fun _ => other) operands power count) outcome said) :
    Guides cursor (Parser.climb other operands power) outcome said := by
  intro step twin hnear hasks hsome
  rw [climb_eq] at hsome
  cases hfirst : other twin with
  | none =>
      rw [hfirst] at hsome
      cases hsome
  | some result =>
      have hrun := climb_eq other operands power twin
      rw [hfirst, Option.bind_some] at hsome hrun
      obtain ⟨copy, more, hfollows⟩ := h _ step twin hnear hasks hsome
      exact ⟨copy, more, { hfollows with ends := hrun.trans hfollows.ends }⟩

end Steps

end Parser

end NovelAsm
