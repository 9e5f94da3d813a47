import NovelAsm.Proofs.SyntaxTree.Lockstep

/-!
The runs of a parser. Where a parser reads, its run has an outcome (`Parser.Reads.runs`): the
tokens that are left bound its loops and the depth of its expressions, so that no bound is used
up. It takes tokens from the front of what is left, which are the leaves of the trees that it puts
into the innermost node; every node that it starts is finished, so that it leaves the stack of
nodes as it found it, and the brackets too. And whatever it is compared with, it guides the other
run.
-/

namespace NovelAsm

namespace Parser

open SyntaxTree

variable {α β : Type}

theorem isEmpty_append (said more : Diagnostics) :
    (said ++ more).isEmpty = (said.isEmpty && more.isEmpty) := by
  cases said <;> rfl

/-- A report of a problem at one of the tokens that are left, or at the end of the text. -/
def Complaint (cursor : Cursor) (diagnostic : Diagnostic) : Prop :=
  ∃ problem : SyntaxProblem, ∃ token ∈ cursor.rest ++ [cursor.finish],
    diagnostic = .error problem.code (ascii problem.message) token.span

theorem complaint_peek (problem : SyntaxProblem) (cursor : Cursor) :
    Complaint cursor (complaint problem cursor) := ⟨problem, _, cursor.peek_mem, rfl⟩

section Runs

variable {allowed : Allowed} {clean : Bool} {cursor : Cursor} {state : ParseState}

theorem Complaint.before {outcome : Outcome α} {diagnostic : Diagnostic}
    (h : Complaint outcome.cursor diagnostic) (hreached : Reached allowed clean cursor outcome) :
    Complaint cursor diagnostic := by
  obtain ⟨problem, token, htoken, rfl⟩ := h
  refine ⟨problem, token, ?_, rfl⟩
  rw [hreached.rest_eq, List.append_assoc, ← hreached.finish_eq]
  exact List.mem_append_right _ htoken

/-- What is known of a run that ends, beside a second parser: a clean one has reported nothing. -/
structure Run (allowed : Allowed) (clean : Bool) (parser other : Parser α) (state : ParseState)
    (outcome : Outcome α) (said : Diagnostics) : Prop where
  ends : Ends parser state outcome said
  reached : Reached allowed clean state.cursor outcome
  clean_eq : outcome.clean = (clean && said.isEmpty)
  complaints : ∀ diagnostic ∈ said, Complaint state.cursor diagnostic
  guides : Guides state.cursor other outcome said

/-- There is one run from a state. -/
theorem Run.unique {parser other another : Parser α} {outcome result : Outcome α}
    {said more : Diagnostics} (h : Run allowed clean parser other state outcome said)
    (hother : Run allowed clean parser another state result more) :
    outcome = result ∧ said = more := by
  obtain ⟨hanswer, hcursor, htrees, rfl⟩ := h.ends.unique hother.ends
  obtain ⟨answer, trees, less, cursor⟩ := outcome
  obtain ⟨answerOther, treesOther, lessOther, cursorOther⟩ := result
  obtain rfl : less = lessOther := h.clean_eq.trans hother.clean_eq.symm
  cases hanswer
  cases hcursor
  cases htrees
  exact ⟨rfl, rfl⟩

theorem Run.bind {parser other : Parser α} {next nextOther : α → Parser β} {outcome : Outcome α}
    {result : Outcome β} {said more : Diagnostics}
    (h : Run allowed clean parser other state outcome said)
    (hnext : Run allowed outcome.clean (next outcome.answer) (nextOther outcome.answer)
      (state.after outcome.cursor outcome.trees said) result more) :
    Run allowed clean (parser >>= next) (other >>= nextOther) state
      (result.behind outcome.trees) (said ++ more) where
  ends := h.ends.bind hnext.ends
  reached := h.reached.behind hnext.reached
  clean_eq := by
    change result.clean = _
    rw [hnext.clean_eq, h.clean_eq, Bool.and_assoc, isEmpty_append]
  complaints := List.forall_mem_append.mpr
    ⟨h.complaints, fun diagnostic hmem => (hnext.complaints diagnostic hmem).before h.reached⟩
  guides := h.guides.bind hnext.guides hnext.reached

/-- A step that reports nothing. -/
theorem run_silent {parser other : Parser α} {outcome : Outcome α}
    (h : Ends parser state outcome []) (hreached : Reached allowed clean state.cursor outcome)
    (hclean : outcome.clean = clean) (hguides : Guides state.cursor other outcome []) :
    Run allowed clean parser other state outcome [] :=
  ⟨h, hreached, by rw [hclean, List.isEmpty_nil, Bool.and_true], nofun, hguides⟩

theorem Run.node {parser other : Parser α} {outcome : Outcome α} {said : Diagnostics}
    {kind : SyntaxKind}
    (h : Run (allowed.inside kind) clean parser other (state.opened kind) outcome said)
    (hkind : kind.isOneToken = false) (hholds : outcome.clean = true → allowed.holds kind = true)
    (hgrown : Grown outcome.clean (.node kind outcome.trees)) :
    Run allowed clean (Parser.node kind parser) (Parser.node kind other) state (outcome.node kind)
      said :=
  ⟨h.ends.node, h.reached.node hholds hgrown, h.clean_eq, h.complaints, h.guides.node hkind⟩

theorem run_bump (hstands : Stands clean state.cursor)
    (hpeek : state.cursor.peek.kind ≠ .endOfFile)
    (hflat : clean = true → state.cursor.peek.kind.IsFlat)
    (hallowed : clean = true → allowed.takes state.cursor.peek.kind = true) :
    Run allowed clean bump bump state (taking clean state.cursor) [] :=
  run_silent rfl (reached_taking hstands hpeek hallowed) rfl (guides_bump hpeek hflat)

theorem run_leaf {kind : SyntaxKind} (hstands : Stands clean state.cursor)
    (hpeek : state.cursor.peek.kind ≠ .endOfFile)
    (hallowed : clean = true → allowed.takes state.cursor.peek.kind = true)
    (hholds : clean = true → allowed.holds kind = true)
    (hwhole : clean = true → state.cursor.nesting = 0 ∧ state.cursor.peek.kind.IsFlat ∨
      state.cursor.peek.kind.isOperandBefore state.cursor.peekSecond.kind = true)
    (hgrown : Grown clean (.node kind (state.cursor.nextTokens.map .token))) :
    Run allowed clean (node kind bump) (node kind bump) state
      ((taking clean state.cursor).node kind) [] :=
  have htaken : Reached (allowed.inside kind) clean state.cursor (taking clean state.cursor) :=
    reached_taking hstands hpeek hallowed
  run_silent rfl (htaken.node hholds hgrown) rfl (guides_leaf hpeek hwhole)

theorem run_report (problem : SyntaxProblem) :
    Run allowed clean (report problem) (report problem) state ⟨(), [], false, state.cursor⟩
      [complaint problem state.cursor] where
  ends := rfl
  reached := reached_nothing rfl rfl rfl nofun nofun
  clean_eq := (Bool.and_false clean).symm
  complaints := List.forall_mem_singleton.mpr (complaint_peek problem state.cursor)
  guides := guides_report problem

theorem flag_bind (next : Bool → Parser α) (state : ParseState) :
    (flag >>= next) state =
      (if isFlag state.cursor then node .flag bump >>= fun _ => next true else next false)
        state := by
  rw [flag, bind_assoc]
  change ((if isFlag state.cursor then _ else _ : Parser Bool) >>= next) state = _
  split
  · rw [bind_assoc]
    rfl
  · rfl

/-- A run behind a flag, or one in front of what is none. -/
theorem Run.flag {next nextOther : Bool → Parser α} {outcome : Outcome α} {said : Diagnostics}
    (h : Run allowed clean
      (if isFlag state.cursor then Parser.node .flag bump >>= fun _ => next true else next false)
      (if isFlag state.cursor then Parser.node .flag bump >>= fun _ => nextOther true
        else nextOther false)
      state outcome said)
    (hprogress : outcome.clean = true → leavesOf outcome.trees ≠ [])
    (hflag : isFlag state.cursor = true →
      ∃ more, outcome.trees = .node .flag (state.cursor.nextTokens.map .token) :: more) :
    Run allowed clean (Parser.flag >>= next) (Parser.flag >>= nextOther) state outcome said :=
  { h with
    ends := (flag_bind _ _).trans h.ends
    guides := by
      intro step twin hnear hasks hsome
      have hreached := h.reached.answering ()
      have hsame := step.isFlag_eq hnear hreached hprogress hasks hflag
      rw [flag_bind, hsame] at hsome
      obtain ⟨copy, more, hfollows⟩ := h.guides step twin hnear hasks hsome
      refine ⟨copy, more, { hfollows with ends := (flag_bind _ _).trans ?_ }⟩
      rw [hsame]
      exact hfollows.ends }

/-- A run that looks at the token behind the next one, to which it comes if nothing is wrong. -/
theorem Run.peekSecondKind {next nextOther : TokenKind → Parser α} {outcome : Outcome α}
    {said : Diagnostics}
    (h : Run allowed clean (next state.cursor.peekSecond.kind)
      (nextOther state.cursor.peekSecond.kind) state outcome said)
    (hflat : state.cursor.peek.kind.IsFlat)
    (hprogress : outcome.clean = true → leavesOf outcome.trees ≠ []) :
    Run allowed clean (Parser.peekSecondKind >>= next) (Parser.peekSecondKind >>= nextOther) state
      outcome said :=
  { h with
    ends := h.ends
    guides := by
      intro step twin hnear hasks hsome
      have hreached := h.reached.answering ()
      have hsecond := step.kind_peekSecond hnear hreached hprogress hasks hflat
      have hother : (Parser.peekSecondKind >>= nextOther) twin =
          nextOther state.cursor.peekSecond.kind twin := by
        rw [← hsecond]
        rfl
      rw [hother] at hsome
      obtain ⟨copy, more, hfollows⟩ := h.guides step twin hnear hasks hsome
      exact ⟨copy, more, { hfollows with ends := hother.trans hfollows.ends }⟩ }

/-- The bound of the second run is known only when it begins, but the outcome does not depend on
it. -/
theorem Run.rounds {next nextOther : Nat → Parser α} {outcome : Outcome α} {said : Diagnostics}
    (hall : ∀ count, Run allowed clean (next (state.cursor.rest.length + 1)) (nextOther count) state
      outcome said) :
    Run allowed clean (Parser.rounds >>= next) (Parser.rounds >>= nextOther) state outcome said :=
  { hall 0 with
    ends := (hall 0).ends
    guides := by
      intro step twin hnear hasks hsome
      obtain ⟨copy, more, hfollows⟩ :=
        (hall (twin.cursor.rest.length + 1)).guides step twin hnear hasks hsome
      exact ⟨copy, more, { hfollows with ends := hfollows.ends }⟩ }

/-- What stands in brackets is read between them. -/
theorem Run.bracketed {inside other : Parser PUnit} {closer : TokenKind} (problem : SyntaxProblem)
    {outcome : Outcome PUnit} {said : Diagnostics}
    (h : Run allowed clean inside other
      (state.after state.cursor.behind.enter (state.cursor.nextTokens.map .token) []) outcome said)
    (hstands : Stands clean state.cursor) (hpeek : state.cursor.peek.kind ≠ .endOfFile)
    (hopens : state.cursor.peek.kind.Opens) (hallowed : allowed.takes state.cursor.peek.kind = true)
    (hcloses : closer.Closes) (hcloser : closer ≠ .endOfFile)
    (hlast : allowed.takes closer = true) :
    Run allowed clean (Parser.bracketed closer problem inside)
      (Parser.bracketed closer problem other) state
      ((outcome.closed closer).behind (state.cursor.nextTokens.map .token))
      (said ++ unclosed outcome.cursor closer problem) := by
  have hopened : Reached allowed clean state.cursor (taking clean state.cursor) :=
    reached_taking hstands hpeek fun _ => hallowed
  have hentered : Stands clean state.cursor.behind.enter :=
    ⟨hstands.behind.ended, fun hclean => (hstands.behind.fit hclean).enter⟩
  have hreached : Reached allowed clean state.cursor.behind.enter outcome := h.reached
  have hclosed := hreached.closed hstands.behind hcloser hlast
  refine ⟨h.ends.bracketed, hopened.behind hclosed, ?_, ?_,
    h.guides.bracketed problem hpeek hopens hcloses hcloser hreached (hreached.stands hentered)⟩
  · change (outcome.closed closer).clean = _
    rw [isEmpty_append, ← Bool.and_assoc, ← h.clean_eq, Outcome.closed, unclosed]
    split
    · exact (Bool.and_true _).symm
    · exact (Bool.and_false _).symm
  · refine List.forall_mem_append.mpr ⟨fun diagnostic hmem => ?_, fun diagnostic hmem => ?_⟩
    · have hinside : Complaint (taking clean state.cursor).cursor diagnostic :=
        h.complaints diagnostic hmem
      exact hinside.before hopened
    · rw [unclosed] at hmem
      split at hmem
      · cases hmem
      · rw [List.mem_singleton.mp hmem]
        have hinside : Complaint state.cursor.behind.enter (complaint problem outcome.cursor) :=
          (complaint_peek problem outcome.cursor).before hreached
        have hbehind : Complaint (taking clean state.cursor).cursor _ := hinside
        exact hbehind.before hopened

end Runs

/-! ## Operators -/

section Operators

variable {allowed : Allowed} {clean : Bool} {state : ParseState}

/-- Whatever binds is no bracket, and not the end of the text. -/
theorem flat_of_bindingPower {kind : TokenKind} (h : 0 < bindingPower kind) :
    kind.IsFlat ∧ kind ≠ .endOfFile := by
  cases kind with
  | mark mark => cases mark <;> first | exact ⟨fun _ => rfl, nofun⟩ | exact absurd h (by decide)
  | endOfFile => exact absurd h (Nat.lt_irrefl 0)
  | _ => exact ⟨fun _ => rfl, nofun⟩

theorem Run.operated {first otherFirst : Nat → Parser PUnit} {operand other : Parser PUnit}
    {left right : Outcome PUnit} {said more : Diagnostics}
    (h : Run allowed clean (checkpoint >>= first) (checkpoint >>= otherFirst) state left said)
    (hstands : Stands clean state.cursor) (hpower : 0 < bindingPower left.cursor.peek.kind)
    (hallowed : allowed.takes left.cursor.peek.kind = true)
    (hholds : allowed.holds = SyntaxKind.isExpression)
    (hright : Run allowed left.clean operand other (state.operated left said) right more)
    (hgrown : ∀ tree ∈ (left.operated right).trees, Grown right.clean tree) :
    Run allowed clean (checkpoint >>= behindOperator first operand)
      (checkpoint >>= behindOperator otherFirst other) state (left.operated right)
      (said ++ more) := by
  obtain ⟨hflat, hpeek⟩ := flat_of_bindingPower hpower
  have hends := h.reached.stands hstands
  have htaken : Reached allowed left.clean left.cursor (taking left.clean left.cursor) :=
    reached_taking hends hpeek fun _ => hallowed
  have hfront := h.reached.behind htaken
  have hinside : allowed.inside .binaryExpr = allowed := by
    rw [Allowed.inside, SyntaxKind.admits, ← hholds]
  refine ⟨h.ends.operated hright.ends, ?_, ?_, ?_,
    h.guides.operated hright.guides hends hpeek hflat hallowed hright.reached⟩
  · have hboth := hfront.behind hright.reached
    rw [← hinside] at hboth
    exact hboth.node (fun _ => by rw [hholds]; rfl) (hgrown _ (List.mem_singleton_self _))
  · change right.clean = _
    rw [hright.clean_eq, h.clean_eq, Bool.and_assoc, isEmpty_append]
  · exact List.forall_mem_append.mpr ⟨h.complaints, fun diagnostic hmem =>
      (hright.complaints diagnostic hmem).before hfront⟩

variable {P post : Outcome PUnit → Prop} {operand other : Nat → Parser PUnit} {power : Nat}

theorem Run.climb {first otherFirst : Parser PUnit} {operand other : Nat → Parser PUnit}
    {power : Nat} {left outcome : Outcome PUnit} {said more : Diagnostics}
    (h : Run allowed clean first otherFirst state left said)
    (hall : ∀ count, Run allowed clean
      (operators (fun _ => first) operand power (left.cursor.rest.length + 1))
      (operators (fun _ => otherFirst) other power count) state outcome more) :
    Run allowed clean (Parser.climb first operand power) (Parser.climb otherFirst other power) state
      outcome more :=
  { hall 0 with
    ends := h.ends.climb (hall 0).ends
    guides := .climb fun count => (hall count).guides }

/-- The operators behind an operand, which the tokens that are left bound. What is asked of them
all is asked of the operand. -/
theorem run_operators (hstands : Stands clean state.cursor)
    (hallowed : ∀ kind, 0 < bindingPower kind → allowed.takes kind = true)
    (hholds : allowed.holds = SyntaxKind.isExpression)
    (hround : ∀ left said, P left → Reached allowed clean state.cursor left →
      power < bindingPower left.cursor.peek.kind → ∃ right more,
        Run allowed left.clean (operand (bindingPower left.cursor.peek.kind))
          (other (bindingPower left.cursor.peek.kind)) (state.operated left said) right more ∧
        (∀ tree ∈ (left.operated right).trees, Grown right.clean tree) ∧ P (left.operated right))
    (hstop : ∀ outcome, P outcome → Reached allowed clean state.cursor outcome →
      bindingPower outcome.cursor.peek.kind ≤ power → post outcome)
    (n : Nat) {first otherFirst : Nat → Parser PUnit} {left : Outcome PUnit} {said : Diagnostics}
    (h : Run allowed clean (checkpoint >>= first) (checkpoint >>= otherFirst) state left said)
    (hleft : P left) (hbound : left.cursor.rest.length < n) :
    ∃ outcome more, (∀ count, Run allowed clean (operators first operand power n)
        (operators otherFirst other power count) state outcome more) ∧
      (∀ step : Lockstep, step.Asks outcome → step.Asks left) ∧ post outcome := by
  induction n generalizing first otherFirst left said with
  | zero => omega
  | succ n ih =>
      by_cases hpower : bindingPower left.cursor.peek.kind ≤ power
      · exact ⟨left, said, fun count => { h with
          ends := h.ends.operators_last operand hpower n, guides := h.guides.last hpower count },
            fun _ => id, hstop left hleft h.reached hpower⟩
      · rw [Nat.not_le] at hpower
        obtain ⟨right, more, hright, hgrown, hnext⟩ := hround left said hleft h.reached hpower
        have hpositive := Nat.zero_lt_of_lt hpower
        have hends := h.reached.stands hstands
        have hoperated := h.operated hstands hpositive (hallowed _ hpositive) hholds hright hgrown
        have hpeek := (flat_of_bindingPower hpositive).2
        have hless := Cursor.length_behind_lt hends.ended hpeek
        have hshorter : left.cursor.behind.rest.length = _ :=
          congrArg List.length hright.reached.rest_eq
        rw [List.length_append] at hshorter
        obtain ⟨outcome, others, hrun, hasks, hpost⟩ := ih hoperated hnext (by
          change right.cursor.rest.length < n
          omega)
        have hleftAsks (step : Lockstep) (houtcome : step.Asks outcome) : step.Asks left :=
          ((hasks step houtcome).operands hends hpeek (hallowed _ hpositive) hright.reached).1
        refine ⟨outcome, others, fun count => { hrun 0 with
          ends := (h.ends.operators_next operand hpower n).trans (hrun 0).ends, guides := ?_ },
            hleftAsks, hpost⟩
        exact h.guides.next hpower (fun count => (hrun count).guides) hleftAsks count

end Operators

/-! ## The runs of a parser -/

section Reads

/-- Where a parser reads, its run has an outcome: its bounds are enough, and each node that it
starts is finished. -/
theorem Reads.runs {allowed : Allowed} {clean : Bool} {cursor : Cursor}
    {post : Outcome α → Prop} {parser other : Parser α}
    (h : Reads allowed clean cursor post parser other) (hstands : Stands clean cursor)
    {state : ParseState} (hstate : state.cursor = cursor) :
    ∃ outcome said, Run allowed clean parser other state outcome said ∧ post outcome := by
  induction h generalizing state with
  | pure hpost =>
      subst hstate
      refine ⟨_, [], run_silent (ends_quiet rfl) (reached_nothing rfl rfl rfl id hstands.fit) rfl
        (guides_quiet rfl fun step twin hnear _ => ⟨_, hnear, rfl⟩), hpost⟩
  | bind _ _ ih ihNext =>
      subst hstate
      obtain ⟨outcome, said, hrun, hP⟩ := ih hstands rfl
      have hstart : (state.after outcome.cursor outcome.trees said).cursor = outcome.cursor := rfl
      obtain ⟨result, more, hnext, hpost⟩ :=
        ihNext outcome hP hrun.reached (hrun.reached.stands hstands) hstart
      exact ⟨_, _, hrun.bind hnext, hpost⟩
  | widen _ hwider hpost ih =>
      subst hstate
      obtain ⟨outcome, said, hrun, hP⟩ := ih hstands rfl
      exact ⟨outcome, said, { hrun with reached := hrun.reached.widen hwider },
        hpost outcome hP hrun.reached⟩
  | peekKind hpost =>
      subst hstate
      refine ⟨_, [], run_silent (ends_quiet rfl) (reached_nothing rfl rfl rfl id hstands.fit) rfl
        (guides_quiet rfl fun step twin hnear hasks => ⟨_, hnear, ?_⟩), hpost⟩
      rw [← step.kind_peek hnear hasks]
      rfl
  | peekSecondKind hflat hprogress _ ih =>
      subst hstate
      obtain ⟨outcome, said, hrun, hpost⟩ := ih hstands rfl
      exact ⟨outcome, said, hrun.peekSecondKind hflat (hprogress outcome hpost), hpost⟩
  | bump hpeek hflat hallowed hpost =>
      subst hstate
      exact ⟨_, [], run_bump hstands hpeek hflat hallowed, hpost⟩
  | report hpost =>
      subst hstate
      exact ⟨_, _, run_report _, hpost⟩
  | fail hpost =>
      subst hstate
      exact ⟨_, [], run_silent (ends_quiet rfl) (reached_nothing rfl rfl rfl id nofun) rfl
        (guides_quiet rfl fun step twin hnear hasks => ⟨_, step.fail hnear hasks, rfl⟩), hpost⟩
  | restart hpost =>
      subst hstate
      exact ⟨_, [], run_silent (ends_quiet rfl) (reached_nothing rfl rfl rfl id fun hclean =>
        (hstands.fit hclean).restart) rfl
        (guides_quiet rfl fun step twin hnear _ => ⟨_, step.restart hnear, rfl⟩), hpost⟩
  | takeFailed hpost =>
      subst hstate
      refine ⟨_, [], run_silent (ends_quiet rfl) (reached_nothing rfl rfl rfl id fun hclean =>
        (hstands.fit hclean).restart) rfl
        (guides_quiet rfl fun step twin hnear _ => ⟨_, step.restart hnear, ?_⟩), hpost⟩
      rw [← step.failed_eq hnear]
      rfl
  | @node _ _ _ _ _ _ _ _ kind hkind _ hnode ih =>
      subst hstate
      have hstart : (state.opened kind).cursor = state.cursor := rfl
      obtain ⟨outcome, said, hrun, hP⟩ := ih hstands hstart
      obtain ⟨hholds, hgrown, hpost⟩ := hnode outcome hP hrun.reached
      exact ⟨_, said, hrun.node hkind hholds hgrown, hpost⟩
  | leaf hpeek hallowed hholds hwhole hgrown hpost =>
      subst hstate
      exact ⟨_, [], run_leaf hstands hpeek hallowed hholds hwhole hgrown, hpost⟩
  | flag hprogress hallowed hholds hgrown _ _ ihFlag ihNone =>
      subst hstate
      cases hflag : isFlag state.cursor with
      | true =>
          have hstart : (state.after state.cursor.behind
              [.node .flag (state.cursor.nextTokens.map .token)] []).cursor = state.cursor.behind :=
            rfl
          obtain ⟨outcome, said, hrun, hpost⟩ := ihFlag hflag hstands.behind hstart
          obtain ⟨hkind, hsecond⟩ := isOperandBefore_of_isFlag hflag
          have hleaf := run_leaf hstands (by rw [hkind]; decide)
            (fun hclean => by rw [hkind]; exact hallowed hclean) hholds
            (fun _ => .inr hsecond) (hgrown hflag)
          refine ⟨_, [] ++ said, Run.flag ?_ (hprogress _ hpost) fun _ => ⟨_, rfl⟩, hpost⟩
          rw [if_pos hflag, if_pos hflag]
          exact hleaf.bind hrun
      | false =>
          obtain ⟨outcome, said, hrun, hpost⟩ := ihNone hflag hstands rfl
          refine ⟨outcome, said, Run.flag ?_ (hprogress _ hpost) (by simp [hflag]), hpost⟩
          rw [hflag]
          exact hrun
  | @bracketed _ _ _ _ _ _ problem _ _ hpeek hopens hallowed hcloses hcloser hlast _ hpost ih =>
      subst hstate
      have hinside : Stands _ state.cursor.behind.enter :=
        ⟨hstands.behind.ended, fun hclean => (hstands.behind.fit hclean).enter⟩
      have hstart : (state.after state.cursor.behind.enter
          (state.cursor.nextTokens.map .token) []).cursor = state.cursor.behind.enter := rfl
      obtain ⟨outcome, said, hrun, hP⟩ := ih hinside hstart
      exact ⟨_, _, hrun.bracketed problem hstands hpeek hopens hallowed hcloses hcloser hlast,
        hpost outcome hP hrun.reached⟩
  | @climb _ _ _ _ _ first other operand operandOther power hallowed hholds _ _ hstop ih ihRound =>
      subst hstate
      obtain ⟨left, said, hrun, hP⟩ := ih hstands rfl
      have hfirst : Run _ _ (checkpoint >>= fun _ => first) (checkpoint >>= fun _ => other) state
          left said := { hrun with ends := hrun.ends, guides := hrun.guides }
      obtain ⟨outcome, more, hall, -, hpost⟩ := run_operators hstands hallowed hholds
        (fun left said hleft hreached hpower => by
          have hstart : (state.operated left said).cursor = left.cursor.behind := rfl
          obtain ⟨right, more, hright, hgrown, hnext⟩ := ihRound left hleft hreached hpower
            (hreached.stands hstands).behind hstart
          exact ⟨right, more, hright, hgrown, hnext⟩)
        hstop _ hfirst hP (Nat.lt_succ_self _)
      exact ⟨outcome, more, hrun.climb hall, hpost⟩
  | rounds _ ih =>
      subst hstate
      obtain ⟨outcome, said, hrun, hpost⟩ := ih _ 0 (Nat.lt_succ_self _) hstands rfl
      refine ⟨outcome, said, .rounds fun count => ?_, hpost⟩
      obtain ⟨result, more, hother, -⟩ := ih _ count (Nat.lt_succ_self _) hstands rfl
      obtain ⟨rfl, rfl⟩ := hrun.unique hother
      exact hother
  | spent _ ih =>
      obtain ⟨outcome, said, hrun, hpost⟩ := ih hstands hstate
      exact ⟨outcome, said, { hrun with guides := fun _ _ _ _ hsome => by cases hsome }, hpost⟩

end Reads

end Parser

end NovelAsm
