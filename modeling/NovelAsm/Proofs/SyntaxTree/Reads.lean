import NovelAsm.Proofs.SyntaxTree.Grown

/-!
What a parser reads. `Parser.Reads` is one relation for everything that is said of the parser's
runs, closed under the steps that parsers are built from: it says of a parser, before what it
stands, and what is known of the outcome of a run. Every routine of the grammar is shown once to
be in the relation, and what holds of all that is in it is shown by one induction each.

The relation is about two parsers that differ in their bounds alone, since runs that stand before
different tokens are to be compared later.
-/

namespace NovelAsm

namespace ParseState

theorem after_after (state : ParseState) (middle last : Cursor) (trees more : List SyntaxTree)
    (said others : Diagnostics) :
    (state.after middle trees said).after last more others =
      state.after last (trees ++ more) (said ++ others) := by
  simp [after, OpenNode.append]

theorem after_nothing (state : ParseState) (cursor : Cursor) :
    state.after cursor [] [] = { state with cursor := cursor } := by
  simp [after, OpenNode.append]

/-- Nothing is lost of a step. -/
theorem after_inj {state : ParseState} {cursor other : Cursor} {trees more : List SyntaxTree}
    {said others : Diagnostics}
    (h : state.after cursor trees said = state.after other more others) :
    cursor = other ∧ trees = more ∧ said = others := by
  simpa [after, OpenNode.append] using h

/-- The state in a node that is started. -/
def opened (state : ParseState) (kind : SyntaxKind) : ParseState :=
  { state with top := ⟨kind, []⟩, outer := state.stack }

end ParseState

namespace Parser

open SyntaxTree

variable {α β : Type}

/-- What a run brings about: its answer, what it puts into the innermost node, and where it
stands at its end. A clean run has met nothing wrong, and nothing was wrong before it. -/
structure Outcome (α : Type) where
  answer : α
  trees : List SyntaxTree
  clean : Bool
  cursor : Cursor

namespace Outcome

/-- An outcome with what was put into the node before. -/
def behind (outcome : Outcome α) (trees : List SyntaxTree) : Outcome α :=
  { outcome with trees := trees ++ outcome.trees }

/-- An outcome in a node of its own. -/
def node (outcome : Outcome α) (kind : SyntaxKind) : Outcome α :=
  { outcome with trees := [.node kind outcome.trees] }

/-- An operator between two operands. -/
def operated (left right : Outcome PUnit) : Outcome PUnit :=
  ⟨(), [.node .binaryExpr (left.trees ++ left.cursor.nextTokens.map .token ++ right.trees)],
    right.clean, right.cursor⟩

/-- What stands in brackets, up to the closing one. -/
def closed (outcome : Outcome PUnit) (closer : TokenKind) : Outcome PUnit :=
  if outcome.cursor.peek.kind = closer then
    ⟨(), outcome.trees ++ outcome.cursor.nextTokens.map .token, outcome.clean,
      outcome.cursor.behind.leave⟩
  else ⟨(), outcome.trees, false, outcome.cursor.leave⟩

end Outcome

/-- The outcome of taking the next token. -/
def taking (clean : Bool) (cursor : Cursor) : Outcome PUnit :=
  ⟨(), cursor.nextTokens.map .token, clean, cursor.behind⟩

/-- What a parser may take and put into the innermost node as long as nothing is wrong: tokens of
some kinds, besides trivia and line ends in brackets, and nodes of some kinds. -/
structure Allowed where
  takes : TokenKind → Bool
  holds : SyntaxKind → Bool

/-- What may be taken in a node is what may be taken around it. -/
def Allowed.inside (allowed : Allowed) (kind : SyntaxKind) : Allowed :=
  { allowed with holds := kind.admits }

/-- Whether one allows no more than another. -/
structure Allowed.Le (allowed wider : Allowed) : Prop where
  takes : ∀ kind, allowed.takes kind = true → wider.takes kind = true
  holds : ∀ kind, allowed.holds kind = true → wider.holds kind = true

/-- Whether the next token is a flag. -/
def isFlag (cursor : Cursor) : Bool :=
  cursor.peek.kind == .identifier && (Flag.ofText? cursor.peek.text).isSome
    && (cursor.peekSecond.kind == .mark .comma || isLineEnd cursor.peekSecond.kind)

theorem isOperandBefore_of_isFlag {cursor : Cursor} (h : isFlag cursor = true) :
    cursor.peek.kind = .identifier ∧
      cursor.peek.kind.isOperandBefore cursor.peekSecond.kind = true := by
  simp only [isFlag, Bool.and_eq_true, Bool.or_eq_true, beq_iff_eq] at h
  obtain ⟨⟨hkind, -⟩, hsecond⟩ := h
  rw [hkind, TokenKind.isOperandBefore, bne_iff_ne]
  refine ⟨rfl, fun hparen => ?_⟩
  rw [hparen] at hsecond
  rcases hsecond with h | h <;> cases h

/-- A cursor before the end of a text; nothing has been wrong before it if that is said. -/
structure Stands (clean : Bool) (cursor : Cursor) : Prop where
  ended : cursor.Ended
  fit : clean = true → cursor.Fit

/-- What holds of any outcome: the leaves of what was made are the tokens that were taken, the
brackets are those before, and the nodes are as a parser makes them. -/
structure Reached (allowed : Allowed) (clean : Bool) (cursor : Cursor)
    (outcome : Outcome α) : Prop where
  rest_eq : cursor.rest = leavesOf outcome.trees ++ outcome.cursor.rest
  nesting_eq : outcome.cursor.nesting = cursor.nesting
  finish_eq : outcome.cursor.finish = cursor.finish
  clean_of : outcome.clean = true → clean = true
  fit : outcome.clean = true → outcome.cursor.Fit
  kinds : outcome.clean = true → ∀ token ∈ leavesOf outcome.trees,
    token.isTrivia = true ∨ token.kind = .newline ∨ allowed.takes token.kind = true
  last : outcome.clean = true → ∀ token ∈ (leavesOf outcome.trees).getLast?,
    cursor.isSkippable token = false ∧ allowed.takes token.kind = true
  among : outcome.clean = true → Among allowed.holds outcome.trees
  grown : ∀ tree ∈ outcome.trees, tree.Everywhere (Grown outcome.clean)

/-- `Reads allowed clean cursor post parser other`: before a cursor, the parser takes tokens of
allowed kinds as long as nothing is wrong, and the outcome of its run has a property. Nothing is
said of the second parser but that it differs from the first one in its bounds. -/
inductive Reads : {α : Type} → Allowed → Bool → Cursor → (Outcome α → Prop) →
    Parser α → Parser α → Prop
  | pure {α : Type} {allowed : Allowed} {clean : Bool} {cursor : Cursor}
      {post : Outcome α → Prop} {answer : α} (h : post ⟨answer, [], clean, cursor⟩) :
      Reads allowed clean cursor post (Pure.pure answer) (Pure.pure answer)
  | bind {α β : Type} {allowed : Allowed} {clean : Bool} {cursor : Cursor}
      {P : Outcome α → Prop} {post : Outcome β → Prop} {parser other : Parser α}
      {next nextOther : α → Parser β} (h : Reads allowed clean cursor P parser other)
      (hnext : ∀ outcome, P outcome → Reached allowed clean cursor outcome →
        Reads allowed outcome.clean outcome.cursor
          (fun result => post (result.behind outcome.trees))
          (next outcome.answer) (nextOther outcome.answer)) :
      Reads allowed clean cursor post (parser >>= next) (other >>= nextOther)
  /-- What is allowed can be said to be more. -/
  | widen {α : Type} {allowed wider : Allowed} {clean : Bool} {cursor : Cursor}
      {P post : Outcome α → Prop} {parser other : Parser α}
      (h : Reads allowed clean cursor P parser other)
      (hwider : allowed.Le wider)
      (hpost : ∀ outcome, P outcome → Reached allowed clean cursor outcome → post outcome) :
      Reads wider clean cursor post parser other
  | peekKind {allowed : Allowed} {clean : Bool} {cursor : Cursor}
      {post : Outcome TokenKind → Prop} (h : post ⟨cursor.peek.kind, [], clean, cursor⟩) :
      Reads allowed clean cursor post peekKind peekKind
  /-- The token behind the next one is looked at only where the next one is taken. -/
  | peekSecondKind {α : Type} {allowed : Allowed} {clean : Bool} {cursor : Cursor}
      {post : Outcome α → Prop} {next nextOther : TokenKind → Parser α}
      (hflat : cursor.peek.kind.IsFlat)
      (hprogress : ∀ outcome, post outcome → outcome.clean = true → leavesOf outcome.trees ≠ [])
      (h : Reads allowed clean cursor post (next cursor.peekSecond.kind)
        (nextOther cursor.peekSecond.kind)) :
      Reads allowed clean cursor post (peekSecondKind >>= next) (peekSecondKind >>= nextOther)
  | bump {allowed : Allowed} {clean : Bool} {cursor : Cursor}
      {post : Outcome PUnit → Prop} (hpeek : cursor.peek.kind ≠ .endOfFile)
      (hflat : clean = true → cursor.peek.kind.IsFlat)
      (hallowed : clean = true → allowed.takes cursor.peek.kind = true)
      (h : post (taking clean cursor)) : Reads allowed clean cursor post bump bump
  | report {allowed : Allowed} {clean : Bool} {cursor : Cursor}
      {post : Outcome PUnit → Prop} {problem : SyntaxProblem} (h : post ⟨(), [], false, cursor⟩) :
      Reads allowed clean cursor post (report problem) (report problem)
  /-- That an operand could not be read has been reported. -/
  | fail {allowed : Allowed} {cursor : Cursor} {post : Outcome PUnit → Prop}
      (h : post ⟨(), [], false, cursor.mark true⟩) :
      Reads allowed false cursor post (move (.mark · true)) (move (.mark · true))
  | restart {allowed : Allowed} {clean : Bool} {cursor : Cursor}
      {post : Outcome PUnit → Prop} (h : post ⟨(), [], clean, cursor.mark false⟩) :
      Reads allowed clean cursor post (move (.mark · false)) (move (.mark · false))
  | takeFailed {allowed : Allowed} {clean : Bool} {cursor : Cursor}
      {post : Outcome Bool → Prop}
      (h : post ⟨cursor.operandFailed, [], clean, cursor.mark false⟩) :
      Reads allowed clean cursor post takeFailed takeFailed
  | node {α : Type} {allowed : Allowed} {clean : Bool} {cursor : Cursor}
      {P post : Outcome α → Prop} {parser other : Parser α} {kind : SyntaxKind}
      (hkind : kind.isOneToken = false)
      (h : Reads (allowed.inside kind) clean cursor P parser other)
      (hnode : ∀ outcome, P outcome → Reached (allowed.inside kind) clean cursor outcome →
        (outcome.clean = true → allowed.holds kind = true) ∧
          Grown outcome.clean (.node kind outcome.trees) ∧ post (outcome.node kind)) :
      Reads allowed clean cursor post (node kind parser) (node kind other)
  /-- A node of one token, before which no line end is passed over if that is read in its
  place. -/
  | leaf {allowed : Allowed} {clean : Bool} {cursor : Cursor}
      {post : Outcome PUnit → Prop} {kind : SyntaxKind} (hpeek : cursor.peek.kind ≠ .endOfFile)
      (hallowed : clean = true → allowed.takes cursor.peek.kind = true)
      (hholds : clean = true → allowed.holds kind = true)
      (hwhole : clean = true → cursor.nesting = 0 ∧ cursor.peek.kind.IsFlat ∨
        cursor.peek.kind.isOperandBefore cursor.peekSecond.kind = true)
      (hgrown : Grown clean (.node kind (cursor.nextTokens.map .token)))
      (h : post ((taking clean cursor).node kind)) :
      Reads allowed clean cursor post (node kind bump) (node kind bump)
  | flag {α : Type} {allowed : Allowed} {clean : Bool} {cursor : Cursor}
      {post : Outcome α → Prop} {next nextOther : Bool → Parser α}
      (hprogress : ∀ outcome, post outcome → outcome.clean = true → leavesOf outcome.trees ≠ [])
      (hallowed : clean = true → allowed.takes .identifier = true)
      (hholds : clean = true → allowed.holds .flag = true)
      (hgrown : isFlag cursor = true →
        Grown clean (.node .flag (cursor.nextTokens.map .token)))
      (hflag : isFlag cursor = true → Reads allowed clean cursor.behind
        (fun result => post (result.behind [.node .flag (cursor.nextTokens.map .token)]))
        (next true) (nextOther true))
      (hnone : isFlag cursor = false →
        Reads allowed clean cursor post (next false) (nextOther false)) :
      Reads allowed clean cursor post (flag >>= next) (flag >>= nextOther)
  | bracketed {allowed : Allowed} {clean : Bool} {cursor : Cursor}
      {P post : Outcome PUnit → Prop} {closer : TokenKind} {problem : SyntaxProblem}
      {inside other : Parser PUnit} (hpeek : cursor.peek.kind ≠ .endOfFile)
      (hopens : cursor.peek.kind.Opens) (hallowed : allowed.takes cursor.peek.kind = true)
      (hcloses : closer.Closes) (hcloser : closer ≠ .endOfFile)
      (hlast : allowed.takes closer = true)
      (h : Reads allowed clean cursor.behind.enter P inside other)
      (hpost : ∀ outcome, P outcome → Reached allowed clean cursor.behind.enter outcome →
        post ((outcome.closed closer).behind (cursor.nextTokens.map .token))) :
      Reads allowed clean cursor post (bracketed closer problem inside)
        (bracketed closer problem other)
  /-- What is read in front of an operator becomes its left operand. -/
  | climb {allowed : Allowed} {clean : Bool} {cursor : Cursor}
      {P post : Outcome PUnit → Prop} {first other : Parser PUnit}
      {operand operandOther : Nat → Parser PUnit} {power : Nat}
      (hallowed : ∀ kind, 0 < bindingPower kind → allowed.takes kind = true)
      (hholds : allowed.holds = SyntaxKind.isExpression)
      (hfirst : Reads allowed clean cursor P first other)
      (hround : ∀ outcome, P outcome → Reached allowed clean cursor outcome →
        power < bindingPower outcome.cursor.peek.kind →
        Reads allowed outcome.clean outcome.cursor.behind (fun right =>
            (∀ tree ∈ (outcome.operated right).trees, Grown right.clean tree) ∧
              P (outcome.operated right))
          (operand (bindingPower outcome.cursor.peek.kind))
          (operandOther (bindingPower outcome.cursor.peek.kind)))
      (hstop : ∀ outcome, P outcome → Reached allowed clean cursor outcome →
        bindingPower outcome.cursor.peek.kind ≤ power → post outcome) :
      Reads allowed clean cursor post (climb first operand power) (climb other operandOther power)
  /-- The bound of a loop is more than the tokens that are left. -/
  | rounds {α : Type} {allowed : Allowed} {clean : Bool} {cursor : Cursor}
      {post : Outcome α → Prop} {next nextOther : Nat → Parser α}
      (h : ∀ count twin, cursor.rest.length < count →
        Reads allowed clean cursor post (next count) (nextOther twin)) :
      Reads allowed clean cursor post (rounds >>= next) (rounds >>= nextOther)
  /-- The bound of the second parser may be used up. -/
  | spent {α : Type} {allowed : Allowed} {clean : Bool} {cursor : Cursor}
      {post : Outcome α → Prop} {parser other : Parser α}
      (h : Reads allowed clean cursor post parser other) :
      Reads allowed clean cursor post parser failure

/-! ## Outcomes -/

theorem leavesOf_node (kind : SyntaxKind) (trees : List SyntaxTree) :
    leavesOf [.node kind trees] = leavesOf trees := by
  simp [leavesOf, leaves]

section Outcomes

variable {allowed : Allowed} {clean : Bool} {cursor : Cursor}

theorem Reached.stands {outcome : Outcome α} (h : Reached allowed clean cursor outcome)
    (hstands : Stands clean cursor) : Stands outcome.clean outcome.cursor where
  ended := by rw [Cursor.Ended, h.finish_eq, hstands.ended]
  fit := h.fit

theorem Reached.length_le {outcome : Outcome α} (h : Reached allowed clean cursor outcome) :
    outcome.cursor.rest.length ≤ cursor.rest.length := by
  rw [h.rest_eq, List.length_append]
  exact Nat.le_add_left _ _

/-- Where something is taken, fewer tokens are left. -/
theorem Reached.length_lt {outcome : Outcome α} (h : Reached allowed clean cursor outcome)
    (htaken : leavesOf outcome.trees ≠ []) : outcome.cursor.rest.length < cursor.rest.length := by
  rw [h.rest_eq, List.length_append]
  exact Nat.lt_add_of_pos_left (List.length_pos_of_ne_nil htaken)

theorem Stands.behind (h : Stands clean cursor) : Stands clean cursor.behind where
  ended := by rw [Cursor.Ended, Cursor.finish_behind, h.ended]
  fit hclean := (h.fit hclean).behind

theorem Reached.behind {outcome : Outcome α} {result : Outcome β}
    (h : Reached allowed clean cursor outcome)
    (hnext : Reached allowed outcome.clean outcome.cursor result) :
    Reached allowed clean cursor (result.behind outcome.trees) where
  rest_eq := by
    rw [h.rest_eq, hnext.rest_eq, Outcome.behind, leavesOf_append, List.append_assoc]
  nesting_eq := hnext.nesting_eq.trans h.nesting_eq
  finish_eq := hnext.finish_eq.trans h.finish_eq
  clean_of hclean := h.clean_of (hnext.clean_of hclean)
  fit := hnext.fit
  kinds hclean := by
    rw [Outcome.behind, leavesOf_append]
    exact List.forall_mem_append.mpr ⟨h.kinds (hnext.clean_of hclean), hnext.kinds hclean⟩
  last hclean := by
    rw [Outcome.behind, leavesOf_append, List.getLast?_append]
    cases hlast : (leavesOf result.trees).getLast? with
    | none => exact h.last (hnext.clean_of hclean)
    | some token =>
        have hmore := hnext.last hclean
        rw [hlast] at hmore
        simpa [Cursor.isSkippable_eq, h.nesting_eq] using hmore
  among hclean := (h.among (hnext.clean_of hclean)).append (hnext.among hclean)
  grown := List.forall_mem_append.mpr
    ⟨fun tree htree => (h.grown tree htree).imp fun _ hgrown => hgrown.mono hnext.clean_of,
      hnext.grown⟩

/-- What an answer is does not matter. -/
theorem Reached.answering {outcome : Outcome α} (h : Reached allowed clean cursor outcome)
    (answer : β) :
    Reached allowed clean cursor ⟨answer, outcome.trees, outcome.clean, outcome.cursor⟩ :=
  { h with }

theorem Reached.widen {wider : Allowed} {outcome : Outcome α}
    (h : Reached allowed clean cursor outcome) (hwider : allowed.Le wider) :
    Reached wider clean cursor outcome :=
  { h with
    kinds := fun hclean token htoken =>
      (h.kinds hclean token htoken).imp_right (Or.imp_right (hwider.takes _))
    last := fun hclean token htoken => (h.last hclean token htoken).imp_right (hwider.takes _)
    among := fun hclean => (h.among hclean).mono hwider.holds }

theorem Reached.node {outcome : Outcome α} {kind : SyntaxKind}
    (h : Reached (allowed.inside kind) clean cursor outcome)
    (hholds : outcome.clean = true → allowed.holds kind = true)
    (hgrown : Grown outcome.clean (.node kind outcome.trees)) :
    Reached allowed clean cursor (outcome.node kind) where
  rest_eq := by rw [Outcome.node, leavesOf_node, ← h.rest_eq]
  nesting_eq := h.nesting_eq
  finish_eq := h.finish_eq
  clean_of := h.clean_of
  fit := h.fit
  kinds := by
    rw [Outcome.node, leavesOf_node]
    exact h.kinds
  last := by
    rw [Outcome.node, leavesOf_node]
    exact h.last
  among hclean := among_node (hholds hclean)
  grown := List.forall_mem_singleton.mpr (.node hgrown h.grown)

/-- Behind what stands in brackets there are tokens at most. -/
theorem Outcome.exists_closed (outcome : Outcome PUnit) (closer : TokenKind) :
    ∃ tokens : List Token, (outcome.closed closer).trees = outcome.trees ++ tokens.map .token := by
  rw [closed]
  split
  · exact ⟨_, rfl⟩
  · exact ⟨[], (List.append_nil _).symm⟩

/-- Where nothing is taken, everything is as it was. -/
theorem reached_nothing {answer : α} {less : Bool} {behind : Cursor}
    (hrest : behind.rest = cursor.rest) (hnesting : behind.nesting = cursor.nesting)
    (hfinish : behind.finish = cursor.finish) (hless : less = true → clean = true)
    (hfit : less = true → behind.Fit) :
    Reached allowed clean cursor ⟨answer, [], less, behind⟩ where
  rest_eq := hrest.symm
  nesting_eq := hnesting
  finish_eq := hfinish
  clean_of := hless
  fit := hfit
  kinds _ := nofun
  last _ := nofun
  among _ := .nil
  grown := nofun

theorem reached_taking (hstands : Stands clean cursor) (hpeek : cursor.peek.kind ≠ .endOfFile)
    (hallowed : clean = true → allowed.takes cursor.peek.kind = true) :
    Reached allowed clean cursor (taking clean cursor) where
  rest_eq := by
    rw [taking, leavesOf_tokens]
    exact cursor.rest_eq
  nesting_eq := cursor.nesting_behind
  finish_eq := cursor.finish_behind
  clean_of := id
  fit hclean := (hstands.fit hclean).behind
  kinds hclean token htoken := by
    obtain ⟨skipped, hnext, hskipped⟩ := Cursor.exists_nextTokens_eq hstands.ended hpeek
    rw [taking, leavesOf_tokens, hnext] at htoken
    rcases List.mem_append.mp htoken with hmem | hmem
    · have hskip := hskipped token hmem
      rw [Cursor.isSkippable_eq, Bool.or_eq_true] at hskip
      exact hskip.imp_right fun hbreak => .inl (Cursor.kind_of_isBreak hbreak)
    · rw [List.mem_singleton.mp hmem]
      exact .inr (.inr (hallowed hclean))
  last hclean token htoken := by
    obtain ⟨skipped, hnext, -⟩ := Cursor.exists_nextTokens_eq hstands.ended hpeek
    rw [taking, leavesOf_tokens, hnext, List.getLast?_concat] at htoken
    obtain rfl := Option.some.inj htoken
    exact ⟨Cursor.isSkippable_peek hstands.ended hpeek, hallowed hclean⟩
  among _ := among_tokens _
  grown tree htree := by
    obtain ⟨leaf, -, rfl⟩ := List.mem_map.mp htree
    exact .token leaf

/-- A closing bracket is taken or missed. -/
theorem Reached.closed {outcome : Outcome PUnit} {closer : TokenKind}
    (h : Reached allowed clean cursor.enter outcome) (hstands : Stands clean cursor)
    (hcloser : closer ≠ .endOfFile) (hlast : allowed.takes closer = true) :
    Reached allowed clean cursor (outcome.closed closer) := by
  have hends := h.stands ⟨hstands.ended, fun hclean => (hstands.fit hclean).enter⟩
  have hnesting : outcome.cursor.nesting - 1 = cursor.nesting := by
    rw [h.nesting_eq, Cursor.enter, Nat.add_sub_cancel]
  rw [Outcome.closed]
  split
  · rename_i hkind
    have htaken : Reached allowed _ _ (taking outcome.clean outcome.cursor) :=
      reached_taking hends (by rw [hkind]; exact hcloser)
        fun _ => by rw [hkind]; exact hlast
    have hboth := h.behind htaken
    exact { hboth with
      nesting_eq := by
        change outcome.cursor.behind.nesting - 1 = _
        rw [Cursor.nesting_behind, hnesting]
      fit := fun hclean => (htaken.fit hclean).leave
      last := fun hclean token htoken =>
        (hboth.last hclean token htoken).imp_left Cursor.isSkippable_of_enter }
  · have hnever {p : Prop} (hclean : false = true) : p := absurd hclean Bool.false_ne_true
    exact { h with
      nesting_eq := hnesting
      clean_of := hnever
      fit := hnever
      kinds := hnever
      last := hnever
      among := hnever
      grown := fun tree htree => (h.grown tree htree).imp fun _ => Grown.unclean }

end Outcomes

end Parser

end NovelAsm
