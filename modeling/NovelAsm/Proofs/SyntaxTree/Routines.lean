import NovelAsm.Proofs.SyntaxTree.Expressions

/-!
What the routines of the grammar read, from operands to the items of a text. Each routine is shown
once to read: from any cursor, with what is known of its outcome.
-/

namespace NovelAsm

namespace Parser

open SyntaxTree

variable {α : Type} {allowed : Allowed} {clean : Bool} {cursor : Cursor}

/-! ## Operands -/

/-- A cursor outside of brackets. -/
structure Outside (clean : Bool) (cursor : Cursor) : Prop extends Stands clean cursor where
  nesting_eq : cursor.nesting = 0

theorem Outside.reached {outcome : Outcome α} (h : Outside clean cursor)
    (hreached : Reached allowed clean cursor outcome) : Outside outcome.clean outcome.cursor :=
  ⟨hreached.stands h.toStands, hreached.nesting_eq.trans h.nesting_eq⟩

theorem Outside.unclean (hended : cursor.Ended) (hnesting : cursor.nesting = 0) :
    Outside false cursor where
  ended := hended
  fit hclean := absurd hclean Bool.false_ne_true
  nesting_eq := hnesting

theorem Outside.behind (h : Outside clean cursor) : Outside clean cursor.behind :=
  ⟨h.toStands.behind, by rw [Cursor.nesting_behind, h.nesting_eq]⟩

/-- A cursor further on in the same brackets is outside of brackets too. -/
theorem Outside.further {less : Bool} {behind : Cursor} (h : Outside clean cursor)
    (hbehind : Further clean cursor less behind) : Outside less behind :=
  ⟨hbehind.stands, hbehind.nesting_eq.trans h.nesting_eq⟩

theorem Outside.took (h : Outside clean cursor) (hpeek : cursor.peek.kind ≠ .endOfFile) :
    Took 0 cursor.peek (cursor.nextTokens.map .token) :=
  h.nesting_eq ▸ cursor.took h.ended hpeek

/-- What is allowed among the operands of an instruction. -/
def operandsAllowed : Allowed := ⟨isInner, SyntaxKind.isOperand⟩

theorem inner_le : inner.Le operandsAllowed :=
  ⟨fun _ => id, fun kind hkind => by
    change (kind.isExpression || _) = true
    rw [show kind.isExpression = true from hkind, Bool.true_or]⟩

/-- An operand, which takes something if nothing is wrong. -/
def IsOperand (outcome : Outcome α) : Prop :=
  outcome.clean = true → leavesOf outcome.trees ≠ []

/-- A node that holds what it begins with is not empty. -/
theorem Stands.node_ne {outcome : Outcome α} {more : List SyntaxTree}
    (hstands : Stands clean cursor) (hpeek : cursor.peek.kind ≠ .endOfFile)
    (h : outcome.trees = cursor.nextTokens.map .token ++ more) (kind : SyntaxKind) :
    leavesOf (outcome.node kind).trees ≠ [] := by
  rw [Outcome.node, leavesOf_node, h]
  exact hstands.behind_ne hpeek more

/-- A node without a shape and a name of its own. -/
theorem plainNode_reads {kind : SyntaxKind} {parser other : Parser α}
    (hkind : isPlain kind = true ∧ kind.isOneToken = false ∧ allowed.holds kind = true)
    (hshaped : ∀ trees, Shaped kind trees) (hnames : declares kind = false)
    (h : Reads (allowed.inside kind) clean cursor (fun _ => True) parser other) :
    Reads allowed clean cursor (fun _ => True) (node kind parser) (node kind other) :=
  .node hkind.2.1 h fun _ _ hreached => ⟨fun _ => hkind.2.2, grown_plain hkind.1 fun hclean =>
    ⟨hshaped _, hreached.among hclean, fun h => nomatch hnames.symm.trans h⟩, trivial⟩

/-- A round of the loop over the entries of a list. -/
def listRound (entry : Parser PUnit) : Parser Bool := do
  if startsExpression (← peekKind) then
    entry
    accept (.mark .comma)
  else return false

/-- A list between brackets, in which there is nothing but entries with commas behind them. -/
theorem bracketedList_reads {kind : SyntaxKind} {closer : TokenKind} {problem : SyntaxProblem}
    {entry : Parser PUnit} (hstands : Stands clean cursor)
    (hkind : isPlain kind = true ∧ kind.isOneToken = false ∧ kind.isOperand = true)
    (hshaped : ∀ trees, Shaped kind trees) (hnames : declares kind = false)
    (hopens : cursor.peek.kind.Opens) (hinner : isInner cursor.peek.kind = true)
    (hcloses : closer.Closes) (hcloser : isInner closer = true)
    (hentry : ∀ {less : Bool} {behind : Cursor}, Stands less behind →
      Reads (operandsAllowed.inside kind) less behind (fun _ => True) entry entry) :
    Reads operandsAllowed clean cursor IsOperand
      (node kind <| bracketed closer problem <| many (listRound entry))
      (node kind <| bracketed closer problem <| many (listRound entry)) := by
  have hpeek := (isInner_ne hinner).2.2.1
  refine .node (P := fun outcome => ∃ more, outcome.trees = cursor.nextTokens.map .token ++ more)
    hkind.2.1 ?_ fun outcome hmore hreached => ?_
  · refine .bracketed hpeek hopens hinner hcloses (isInner_ne hcloser).2.2.1 hcloser
      (Reads.many (fun _ => True) hstands.behind.enter fun hbehind =>
        Reads.peekKind_bind ?_) fun outcome _ _ => ⟨_, rfl⟩
    split
    · exact .bind (hentry hbehind.stands) fun outcome _ hreached =>
        comma_reads rfl (hreached.stands hbehind.stands) _
    · exact .pure ⟨nofun, fun _ => trivial⟩
  · obtain ⟨more, hmore⟩ := hmore
    refine ⟨fun _ => hkind.2.2, grown_plain hkind.1 fun hclean =>
      ⟨hshaped _, hreached.among hclean, fun h => nomatch hnames.symm.trans h⟩,
      fun _ => hstands.node_ne hpeek hmore kind⟩

theorem arrayLiteral_reads (hstands : Stands clean cursor)
    (hkind : cursor.peek.kind = .mark .leftBracket) :
    Reads operandsAllowed clean cursor IsOperand arrayLiteral arrayLiteral :=
  bracketedList_reads hstands ⟨rfl, rfl, rfl⟩ (fun _ => trivial) rfl
    (by rw [hkind]; exact fun _ => rfl) (by rw [hkind]; rfl) (fun _ => rfl) rfl
    fun hbehind => (expression_reads hbehind).imp fun _ _ _ => trivial

/-- A case of a table jump. -/
def caseEntry : Parser PUnit :=
  node .jumpTableEntry do
    expression
    when (← expect (.mark .fatArrow) .missingArrow) expression

theorem caseEntry_reads (hstands : Stands clean cursor) {trees : SyntaxKind → Bool}
    (hholds : trees .jumpTableEntry = true) :
    Reads ⟨isInner, trees⟩ clean cursor (fun _ => True) caseEntry caseEntry := by
  refine .node (P := fun outcome => outcome.clean = true →
    (SyntaxTree.node .jumpTableEntry outcome.trees).childNodes.length = 2) rfl ?_
    fun outcome hlength hreached => ⟨fun _ => hholds, grown_plain rfl fun hclean =>
      .nameless rfl (hlength hclean) (hreached.among hclean), trivial⟩
  refine .bind (expression_reads hstands) fun left hleft hreached => ?_
  obtain ⟨first, hfirst⟩ := hleft
  have hfar := hreached.stands hstands
  refine Reads.expect_bind (by decide) (fun _ => rfl) rfl (fun hpeek => ?_) fun _ => .pure nofun
  refine (expression_reads hfar.behind).imp fun right hright _ _ => ?_
  obtain ⟨second, hsecond⟩ := hright
  have htook := left.cursor.took hfar.ended (by rw [hpeek]; decide)
  simp only [Outcome.behind, hfirst.trees_eq, hsecond.trees_eq, List.singleton_append]
  rw [childNodes_cons hfirst.isNode, childNodes_append, htook.childNodes,
    childNodes_cons hsecond.isNode]
  rfl

theorem jumpTable_reads (hstands : Stands clean cursor)
    (hkind : cursor.peek.kind = .mark .leftBrace) :
    Reads operandsAllowed clean cursor IsOperand jumpTable jumpTable := by
  have hentry {less : Bool} {behind : Cursor} (hbehind : Stands less behind) :
      Reads (operandsAllowed.inside .jumpTableBlock) less behind (fun _ => True) caseEntry
        caseEntry :=
    caseEntry_reads hbehind rfl
  exact bracketedList_reads hstands ⟨rfl, rfl, rfl⟩ (fun _ => trivial) rfl
    (by rw [hkind]; exact fun _ => rfl) (by rw [hkind]; rfl) (fun _ => rfl) rfl hentry

theorem positional_reads (hstands : Stands clean cursor) :
    Reads operandsAllowed clean cursor IsOperand positional positional := by
  refine Reads.peekKind_bind ?_
  split
  case h_1 hkind => exact jumpTable_reads hstands hkind
  case h_2 hkind => exact arrayLiteral_reads hstands hkind
  case h_3 =>
    refine (expression_reads hstands).widen inner_le fun outcome hexpression _ => ?_
    obtain ⟨tree, hsingle⟩ := hexpression
    exact hsingle.leavesOf_ne

theorem flag_grown (hflag : isFlag cursor = true) (hout : Outside clean cursor) :
    Grown clean (.node .flag (cursor.nextTokens.map .token)) := by
  obtain ⟨hkind, -⟩ := isOperandBefore_of_isFlag hflag
  refine grown_plain rfl fun _ => .nameless rfl ?_ (among_tokens _)
  have hfirst := (hout.took (by rw [hkind]; decide)).firstSignificant?_eq .flag []
  rw [List.append_nil] at hfirst
  simp only [isFlag, Bool.and_eq_true] at hflag
  rw [Shaped, hfirst]
  exact hflag.1.2

theorem operand_reads (behindFlag : Bool) (hout : Outside clean cursor) :
    Reads operandsAllowed clean cursor IsOperand (operand behindFlag) (operand behindFlag) := by
  refine .flag (fun _ => id) (fun _ => rfl) (fun _ => rfl) (flag_grown · hout) (fun hflag => ?_)
    fun _ => ?_
  · obtain ⟨hkind, -⟩ := isOperandBefore_of_isFlag hflag
    refine .pure fun _ => ?_
    rw [Outcome.behind, List.append_nil, leavesOf_node]
    exact hout.toStands.nextTokens_ne (by rw [hkind]; decide)
  · have hbehind {less : Bool} (hstands : Stands less cursor) :
        Reads operandsAllowed less cursor IsOperand
          (positional >>= fun _ => pure behindFlag) (positional >>= fun _ => pure behindFlag) :=
      .bind (positional_reads hstands) fun outcome houtcome _ => .pure (by
        simpa [IsOperand, Outcome.behind] using houtcome)
    cases behindFlag with
    | true => exact Reads.report_bind (hbehind hout.toStands.unclean)
    | false => exact hbehind hout.toStands

/-- What is allowed in instructions and labels. -/
def linesAllowed : Allowed := ⟨fun kind => !isItemKeyword kind, SyntaxKind.isLine⟩

theorem argumentList_reads (hout : Outside clean cursor) :
    Reads ⟨isInner, (· == .argumentList)⟩ clean cursor (fun _ => True) argumentList
      argumentList := by
  refine plainNode_reads ⟨rfl, rfl, rfl⟩ (fun _ => trivial) rfl ?_
  refine .rounds fun count twin hcount => (Reads.loop (fun _ => True)
    (fun behindFlag less behind hbehind => ?_) count twin (.refl hout.toStands) hcount).imp
      fun _ _ _ => trivial
  refine .bind (operand_reads behindFlag (hout.further hbehind)) fun outcome _ hreached => ?_
  refine Reads.accept_bind (by decide) (fun _ => rfl) rfl (fun hcomma => .pure ⟨fun _ => ?_, nofun⟩)
    fun _ => .pure ⟨nofun, fun _ => trivial⟩
  have hne := (hreached.stands hbehind.stands).nextTokens_ne (by rw [hcomma]; decide)
  simpa [Outcome.behind, leavesOf_append] using fun _ => hne

/-! ## Lines -/

/-- What nothing is wrong with is seen, apart from trivia and places. -/
theorem mem_seen {trees : List SyntaxTree} {token : Token} (h : token ∈ seen trees) :
    ∃ leaf ∈ leavesOf trees, leaf.isTrivia = false ∧ token = leaf.bare := by
  obtain ⟨leaf, hleaf, rfl⟩ := List.mem_map.mp h
  obtain ⟨hmem, htrivia⟩ := List.mem_filter.mp hleaf
  exact ⟨leaf, hmem, by simpa using htrivia, rfl⟩

theorem Reached.plain {outcome : Outcome α} (h : Reached allowed clean cursor outcome)
    (hclean : outcome.clean = true)
    (hallowed : ∀ kind, allowed.takes kind = true → isInner kind = true) :
    Plain (seen outcome.trees) where
  inner token htoken := by
    obtain ⟨leaf, hleaf, htrivia, rfl⟩ := mem_seen htoken
    rcases h.kinds hclean leaf hleaf with hskipped | hline | htaken
    · rw [htrivia] at hskipped
      cases hskipped
    · rw [Token.kind_bare, hline]
      exact ⟨nofun, rfl⟩
    · obtain ⟨hcolon, -, -, hword⟩ := isInner_ne (hallowed _ htaken)
      exact ⟨hcolon, hword⟩
  last token htoken := by
    rcases List.eq_nil_or_concat (leavesOf outcome.trees) with hnone | ⟨front, last, hleaves⟩
    · simp [seen, hnone] at htoken
    · have hlast := h.last hclean last (by simp [hleaves])
      rw [Cursor.isSkippable_eq, Bool.or_eq_false_iff] at hlast
      have hseen : (seen outcome.trees).getLast? = some last.bare := by
        simp [seen, hleaves, hlast.1.1]
      obtain rfl := Option.some.inj (hseen.symm.trans htoken)
      exact (isInner_ne (hallowed _ hlast.2)).2.1

theorem Took.seen_eq {token : Token} {trees : List SyntaxTree} (h : Took 0 token trees) :
    seen trees = [token.bare] := by
  obtain ⟨skipped, rfl, hskipped⟩ := h.split
  have hnone : skipped.filter (fun other => !other.isTrivia) = [] := by
    rw [List.filter_eq_nil_iff]
    intro other hother
    simpa [Cursor.isBreak] using hskipped other hother
  have htoken : token.isTrivia = false := by
    have := h.significant
    simp only [Token.isSignificant, Bool.and_eq_true, Bool.not_eq_true'] at this
    exact this.1
  rw [seen_tokens, List.filter_append, hnone]
  simp [htoken]

/-- A line ends before what is left. -/
theorem Outside.endsLine (h : Outside clean cursor) (hclean : clean = true)
    (hline : isLineEnd cursor.peek.kind = true) : endsLine cursor.view = true := by
  rw [Cursor.kind_peek (h.fit hclean).sound.finish, h.nesting_eq] at hline
  exact hline

/-- An item, which has its shape if nothing is wrong. -/
structure IsItem (outcome : Outcome PUnit) : Prop where
  taken : leavesOf outcome.trees ≠ []
  shape : outcome.clean = true → ∃ tree, outcome.trees = [tree] ∧
    Shape (seen outcome.trees) outcome.cursor.view tree.core

theorem GivesUp.isItem {outcome : Outcome PUnit} (h : GivesUp outcome) : IsItem outcome :=
  ⟨h.2.1, fun hclean => nomatch h.1.symm.trans hclean⟩

/-- The words that instructions begin with. -/
def opensInstruction : TokenKind → Bool
  | .identifier | .keyword .modulo | .keyword .division => true
  | _ => false

theorem inner_of_opensInstruction {kind : TokenKind} (h : opensInstruction kind = true) :
    isInner kind = true ∧ kind.IsFlat := by
  cases kind with
  | identifier => exact ⟨rfl, fun _ => rfl⟩
  | keyword word => cases word <;> first | exact ⟨rfl, fun _ => rfl⟩ | cases h
  | _ => cases h

theorem inner_le_lines : Allowed.Le ⟨isInner, SyntaxKind.isLine⟩ linesAllowed :=
  ⟨fun kind hkind => by simp [linesAllowed, (isInner_ne hkind).2.2.2], fun _ => id⟩

theorem instruction_reads (hout : Outside clean cursor)
    (hword : opensInstruction cursor.peek.kind = true) :
    Reads linesAllowed clean cursor IsItem instruction instruction := by
  obtain ⟨hinner, hflat⟩ := inner_of_opensInstruction hword
  have hpeek := (isInner_ne hinner).2.2.1
  have hstart : Outside clean (cursor.mark false) := ⟨hout.toStands.restart, hout.nesting_eq⟩
  have htook : Took 0 cursor.peek (cursor.nextTokens.map .token) := hout.took hpeek
  refine Reads.widen (P := IsItem) ?_ inner_le_lines fun _ hitem _ => hitem
  refine Reads.bind_eq (.restart rfl) ?_
  refine .node (P := fun outcome => ∃ more, outcome.trees = cursor.nextTokens.map .token ++ more ∧
    (outcome.clean = true → isLineEnd outcome.cursor.peek.kind = true)) rfl ?_
    fun outcome houtcome hreached => ?_
  · refine Reads.bump_bind hpeek (fun _ => hflat) (fun _ => hinner) (Reads.peekKind_bind ?_)
    refine .bind (P := fun _ => True)
      (Reads.when (fun _ => argumentList_reads hstart.behind) fun _ => trivial)
      fun outcome _ hreached => ?_
    refine (lineEnd_reads (hreached.stands hstart.toStands.behind)).imp fun last hlast _ =>
      ⟨_, rfl, fun hclean => (hlast.of_clean hclean).2⟩
  · obtain ⟨more, hmore, hline⟩ := houtcome
    have hends : Outside outcome.clean outcome.cursor := hstart.reached hreached
    have hseen : seen outcome.trees = cursor.peek.bare :: seen more := by
      rw [hmore, seen_append, Took.seen_eq htook]
      rfl
    refine ⟨fun _ => rfl, ⟨⟨nofun, nofun⟩, fun _ => ⟨cursor.peek, _, more, hmore, htook,
      (isInner_ne hinner).2.1⟩, ?_, nofun, ?_⟩, ⟨?_, fun hclean => ⟨_, rfl, ?_⟩⟩⟩
    · rintro (h | h) <;> cases h
    · rintro hclean _ _ ⟨⟩
      exact .nameless rfl trivial (hreached.among hclean)
    · exact hout.toStands.node_ne hpeek hmore .instruction
    · change Shape (seen [SyntaxTree.node .instruction outcome.trees]) outcome.cursor.view _
      have hplain := hreached.plain hclean fun _ => id
      rw [hseen] at hplain
      rw [seen_node, hseen]
      exact .instruction hinner hplain (hends.endsLine hclean (hline hclean)) rfl

theorem label_reads (hout : Outside clean cursor) (hkind : cursor.peek.kind = .identifier)
    (hsecond : cursor.peekSecond.kind = .mark .colon) :
    Reads linesAllowed clean cursor IsItem label label := by
  have hpeek : cursor.peek.kind ≠ .endOfFile := by rw [hkind]; decide
  rw [← Cursor.peek_behind] at hsecond
  have hname := hout.took hpeek
  have hcolon := hout.behind.took (by rw [hsecond]; decide)
  refine .node (P := fun outcome => outcome.trees = cursor.nextTokens.map .token ++
    cursor.behind.nextTokens.map .token) rfl ?_ fun outcome htrees hreached => ?_
  · exact Reads.bump_bind hpeek (fun _ => by rw [hkind]; exact fun _ => rfl)
      (fun _ => by rw [hkind]; rfl) (.bump (by rw [hsecond]; decide)
        (fun _ => by rw [hsecond]; exact fun _ => rfl) (fun _ => by rw [hsecond]; rfl) rfl)
  · have hcore : coreAll outcome.trees =
        [.token cursor.peek.bare, .token cursor.behind.peek.bare] := by
      rw [htrees, coreAll_append, hname.coreAll_eq, hcolon.coreAll_eq]
      rfl
    have hseen : seen outcome.trees = [cursor.peek.bare, cursor.behind.peek.bare] := by
      rw [htrees, seen_append, Took.seen_eq hname, Took.seen_eq hcolon]
      rfl
    refine ⟨fun _ => rfl, grown_plain rfl fun hclean => ⟨trivial, hreached.among hclean,
      fun _ => ⟨cursor.peek.bare, ?_⟩⟩, ⟨?_, fun _ => ⟨_, rfl, ?_⟩⟩⟩
    · rw [hcore]
      exact .label hkind
    · exact hout.toStands.node_ne hpeek htrees .label
    · change Shape (seen [SyntaxTree.node .label outcome.trees]) outcome.cursor.view _
      rw [seen_node, hseen, core_node, hcore]
      exact .label hkind hsecond

theorem labelOrInstruction_reads (hout : Outside clean cursor)
    (hkind : cursor.peek.kind = .identifier) :
    Reads linesAllowed clean cursor IsItem labelOrInstruction labelOrInstruction := by
  refine .peekSecondKind (by rw [hkind]; exact fun _ => rfl) (fun _ hitem _ => hitem.taken) ?_
  split
  · rename_i hsecond
    exact label_reads hout hkind (beq_iff_eq.mp hsecond)
  · exact instruction_reads hout (by rw [hkind]; rfl)

theorem body_reads (closer : Keyword) (hout : Outside clean cursor) :
    Reads linesAllowed clean cursor (fun _ => True) (body closer) (body closer) := by
  refine Reads.many (fun _ => True) hout.toStands fun {less behind} hbehind =>
    Reads.peekKind_bind ?_
  have hlevel := hout.further hbehind
  have hline {parser : Parser PUnit} (h : Reads linesAllowed less behind IsItem parser parser) :
      Reads linesAllowed less behind (Goes (fun _ => True) id) (again parser) (again parser) :=
    Reads.again (h.imp fun _ hitem _ => ⟨fun _ => hitem.taken, nofun⟩)
  split
  case h_1 hkind =>
    have hpeek : behind.peek.kind ≠ .endOfFile := by rw [hkind]; decide
    exact Reads.again (.bump hpeek (fun _ => by rw [hkind]; exact fun _ => rfl)
      (fun _ => by rw [hkind]; rfl) ⟨fun _ => hbehind.stands.nextTokens_ne hpeek, nofun⟩)
  case h_2 hkind => exact hline (labelOrInstruction_reads hlevel hkind)
  case h_3 hkind | h_4 hkind => exact hline (instruction_reads hlevel (by rw [hkind]; rfl))
  case h_5 | h_6 | h_7 | h_8 => exact .pure ⟨nofun, fun _ => trivial⟩
  case h_9 hend _ _ _ =>
    split
    · exact .pure ⟨nofun, fun _ => trivial⟩
    · exact hline ((recover_reads hbehind.stands hend _).imp fun _ hgiven _ => hgiven.isItem)

/-! ## Definitions -/

/-- What is allowed among items. -/
def itemsAllowed : Allowed := ⟨fun _ => true, SyntaxKind.isItem⟩

/-- Nothing but tokens that are no line ends, and nodes. -/
def Flat (trees : List SyntaxTree) : Prop :=
  ∀ leaf, .token leaf ∈ trees → leaf.kind ≠ .newline

theorem Flat.append {trees more : List SyntaxTree} (h : Flat trees) (hmore : Flat more) :
    Flat (trees ++ more) := fun leaf hleaf =>
  (List.mem_append.mp hleaf).elim (h leaf) (hmore leaf)

theorem flat_nil : Flat [] := nofun

theorem flat_node (kind : SyntaxKind) (trees : List SyntaxTree) : Flat [.node kind trees] := by
  simp [Flat]

theorem Single.flat {tree : SyntaxTree} {outcome : Outcome PUnit} (h : Single tree outcome) :
    Flat outcome.trees := by
  intro leaf hleaf
  rw [h.trees_eq, List.mem_singleton] at hleaf
  rw [← hleaf] at h
  cases h.isNode

theorem EndsLine.flat {outcome : Outcome PUnit} (h : EndsLine outcome) : Flat outcome.trees := by
  rcases h with ⟨-, -, children, htrees⟩ | ⟨htrees, -⟩
  · exact htrees ▸ flat_node .error children
  · exact htrees ▸ flat_nil

/-- Outside of brackets nothing is taken with a token but trivia. -/
theorem Took.flat {token : Token} {trees : List SyntaxTree} (h : Took 0 token trees)
    (hkind : token.kind ≠ .newline) : Flat trees := by
  obtain ⟨skipped, rfl, hskipped⟩ := h.split
  intro leaf hleaf hline
  simp only [List.mem_map, List.mem_append, List.mem_singleton] at hleaf
  obtain ⟨other, hother | rfl, hsame⟩ := hleaf
  · obtain rfl : other = leaf := by cases hsame; rfl
    have htrivia := (hskipped other hother).resolve_right (by simp [Cursor.isBreak])
    rw [Token.isTrivia, hline] at htrivia
    cases htrivia
  · obtain rfl : other = leaf := by cases hsame; rfl
    exact hkind hline

/-- What a definition has behind its word: no line ends, and if nothing is wrong, a name and one
expression up to the end of the line. -/
structure Defines (outcome : Outcome PUnit) : Prop where
  flat : Flat outcome.trees
  named : outcome.clean = true → ∃ name names more, outcome.trees = names ++ more ∧
    Took 0 name names ∧ (name.kind = .identifier ∨ name.kind = .register)
  children : outcome.clean = true →
    (SyntaxTree.node .definition outcome.trees).childNodes.length = 1
  ends : outcome.clean = true → isLineEnd outcome.cursor.peek.kind = true

theorem defines_reads (hout : Outside clean cursor) :
    Reads inner clean cursor Defines
      (do definedName; when (← expect (.mark .equals) .missingEquals) expression; lineEnd)
      (do definedName; when (← expect (.mark .equals) .missingEquals) expression; lineEnd) := by
  refine .bind (P := fun outcome => Flat outcome.trees ∧ (outcome.clean = true →
      Took 0 cursor.peek outcome.trees ∧
        (cursor.peek.kind = .identifier ∨ cursor.peek.kind = .register)))
    (Reads.peekKind_bind ?_) fun name hname hnameReached => ?_
  · split
    case h_1 hkind | h_2 hkind =>
      have hpeek : cursor.peek.kind ≠ .endOfFile := by rw [hkind]; decide
      have htook := hout.took hpeek
      exact .bump hpeek (fun _ => by rw [hkind]; exact fun _ => rfl) (fun _ => by rw [hkind]; rfl)
        ⟨Took.flat htook (by rw [hkind]; decide), fun _ => ⟨htook, by simp [hkind]⟩⟩
    case h_3 => exact .report ⟨flat_nil, nofun⟩
  obtain ⟨hflat, hnamed⟩ := hname
  have hbehind := hout.reached hnameReached
  refine Reads.expect_bind (by decide) (fun _ => rfl) rfl (fun hpeek => ?_) fun _ => ?_
  · have hequals := hbehind.took (by rw [hpeek]; decide)
    refine .bind (expression_reads hbehind.toStands.behind) fun value hvalue hvalueReached => ?_
    obtain ⟨tree, hsingle⟩ := hvalue
    have hstands := hvalueReached.stands hbehind.toStands.behind
    refine (lineEnd_reads hstands).imp fun last hlast hlastReached => ⟨?_, fun hclean => ?_,
      fun hclean => ?_, fun hclean => (hlast.of_clean hclean).2⟩
    · exact hflat.append ((Took.flat hequals (by rw [hpeek]; decide)).append
        (hsingle.flat.append hlast.flat))
    · have hvalueClean := hvalueReached.clean_of (hlastReached.clean_of hclean)
      exact ⟨_, _, _, rfl, hnamed hvalueClean⟩
    · have hvalueClean := hvalueReached.clean_of (hlastReached.clean_of hclean)
      simp only [Outcome.behind, (hlast.of_clean hclean).1, hsingle.trees_eq, List.append_nil]
      rw [childNodes_append, (hnamed hvalueClean).1.childNodes, childNodes_append,
        hequals.childNodes, childNodes_cons hsingle.isNode]
      rfl
  · refine (lineEnd_reads hbehind.toStands.unclean).imp fun last hlast hlastReached => ?_
    have hclean : ¬ last.clean = true := Bool.eq_false_iff.mp hlastReached.not_clean
    exact ⟨hflat.append hlast.flat, (absurd · hclean), (absurd · hclean), (absurd · hclean)⟩

theorem definition_reads (hout : Outside clean cursor)
    (hkind : cursor.peek.kind = .keyword .definition) :
    Reads itemsAllowed clean cursor IsItem definition definition := by
  have hpeek : cursor.peek.kind ≠ .endOfFile := by rw [hkind]; decide
  have hword := hout.took hpeek
  refine .node (P := fun outcome => ∃ tail : Outcome PUnit, Defines tail ∧
      outcome = tail.behind (cursor.nextTokens.map .token) ∧
      (tail.clean = true → Plain (seen tail.trees))) rfl ?_ fun outcome houtcome hreached => ?_
  · refine Reads.bump_bind hpeek (fun _ => by rw [hkind]; exact fun _ => rfl) (fun _ => rfl) ?_
    exact (defines_reads hout.behind).widen ⟨fun _ _ => rfl, fun _ => id⟩
      fun tail hdefines htail => ⟨tail, hdefines, rfl, fun hclean => htail.plain hclean fun _ => id⟩
  · obtain ⟨tail, hdefines, rfl, hplain⟩ := houtcome
    have hends : Outside (tail.behind _).clean (tail.behind _).cursor := hout.reached hreached
    have hseen : seen (cursor.nextTokens.map .token ++ tail.trees) =
        cursor.peek.bare :: seen tail.trees := by
      rw [seen_append, Took.seen_eq hword]
      rfl
    refine ⟨fun _ => rfl, ⟨⟨nofun, nofun⟩, nofun, ?_, fun _ => ?_, ?_⟩, ⟨?_, fun hclean =>
      ⟨_, rfl, ?_⟩⟩⟩
    · rintro (h | h) <;> cases h
    · exact (Took.flat hword (by rw [hkind]; decide)).append hdefines.flat
    · rintro hclean _ _ ⟨⟩
      obtain ⟨name, names, more, hnames, htook, hname⟩ := hdefines.named hclean
      refine ⟨?_, hreached.among hclean, fun _ => ⟨name.bare, ?_⟩⟩
      · change (SyntaxTree.node .definition
          (cursor.nextTokens.map .token ++ tail.trees)).childNodes.length = 1
        rw [childNodes_append, hword.childNodes]
        exact hdefines.children hclean
      · change NamedBy (.node .definition (coreAll (cursor.nextTokens.map .token ++ tail.trees))) _
        rw [coreAll_append, hword.coreAll_eq, hnames, coreAll_append, htook.coreAll_eq]
        exact .definition hkind hname
    · exact hout.toStands.node_ne hpeek rfl .definition
    · change Shape (seen [SyntaxTree.node .definition
        (cursor.nextTokens.map .token ++ tail.trees)]) tail.cursor.view _
      rw [seen_node, hseen]
      exact .definition hkind (hplain hclean) (hends.endsLine hclean (hdefines.ends hclean)) rfl

/-! ## Functions and subroutines -/

/-- What is allowed in a node without words that open or close items. -/
def wordless (kind : SyntaxKind) : Allowed := ⟨fun kind => !isItemKeyword kind, kind.admits⟩

/-- The rest of a function or subroutine: if nothing is wrong, it ends with its closing word, which
it holds nowhere else, at the end of a line. -/
def IsClosed (closer : Keyword) (outcome : Outcome PUnit) : Prop :=
  outcome.clean = true → ∃ front last, seen outcome.trees = front ++ [last] ∧ Open closer front ∧
    last.kind = .keyword closer ∧ isLineEnd outcome.cursor.peek.kind = true

theorem IsClosed.behind {closer : Keyword} {outcome : Outcome PUnit} (h : IsClosed closer outcome)
    {trees : List SyntaxTree} (htrees : outcome.clean = true → Open closer (seen trees)) :
    IsClosed closer (outcome.behind trees) := by
  intro hclean
  obtain ⟨front, last, hseen, hopen, hlast⟩ := h hclean
  exact ⟨seen trees ++ front, last, by rw [Outcome.behind, seen_append, hseen, List.append_assoc],
    (htrees hclean).append hopen, hlast⟩

/-- Where no word is taken, none closes a body. -/
theorem Reached.open {kind : SyntaxKind} {outcome : Outcome α} {closer : Keyword}
    (h : Reached (wordless kind) clean cursor outcome) (hclean : outcome.clean = true)
    (hcloser : isItemKeyword (.keyword closer) = true) : Open closer (seen outcome.trees) := by
  intro token htoken hkind
  obtain ⟨leaf, hleaf, htrivia, rfl⟩ := mem_seen htoken
  rw [Token.kind_bare] at hkind
  rcases h.kinds hclean leaf hleaf with hskipped | hline | htaken
  · rw [htrivia] at hskipped
    cases hskipped
  · rw [hkind] at hline
    cases hline
  · rw [hkind] at htaken
    simp [wordless, hcloser] at htaken

section Procedures

variable {kind : SyntaxKind} {opener closer : Keyword}

/-- A step of a function or subroutine in front of its closing word. -/
theorem Reads.before {P : Outcome α → Prop} {parser other : Parser α}
    {next nextOther : α → Parser PUnit} (hcloser : isItemKeyword (.keyword closer) = true)
    (h : Reads (wordless kind) clean cursor P parser other)
    (hnext : ∀ outcome, P outcome → Reached (wordless kind) clean cursor outcome →
      Reads (itemsAllowed.inside kind) outcome.clean outcome.cursor (IsClosed closer)
        (next outcome.answer) (nextOther outcome.answer)) :
    Reads (itemsAllowed.inside kind) clean cursor (IsClosed closer) (parser >>= next)
      (other >>= nextOther) := by
  refine .bind (P := fun outcome => P outcome ∧ Reached (wordless kind) clean cursor outcome)
    (h.widen ⟨fun _ _ => rfl, fun _ => id⟩ fun _ hP hreached => ⟨hP, hreached⟩)
    fun outcome houtcome _ => ?_
  exact (hnext outcome houtcome.1 houtcome.2).imp fun last hlast hreached =>
    hlast.behind fun hclean => houtcome.2.open (hreached.clean_of hclean) hcloser

theorem close_reads (hout : Outside clean cursor) (problem : SyntaxProblem) :
    Reads (itemsAllowed.inside kind) clean cursor (IsClosed closer) (close closer problem)
      (close closer problem) := by
  refine Reads.expect_bind nofun (fun _ => rfl) rfl (fun hpeek => ?_) fun _ => .pure nofun
  have htook := hout.took (by rw [hpeek]; nofun)
  refine (lineEnd_reads hout.behind.toStands).imp fun last hlast _ hclean => ?_
  refine ⟨[], cursor.peek.bare, ?_, nofun, hpeek, (hlast.of_clean hclean).2⟩
  rw [Outcome.behind, (hlast.of_clean hclean).1, List.append_nil, Took.seen_eq htook]
  rfl

theorem ending_reads (hout : Outside clean cursor)
    (hcloser : isItemKeyword (.keyword closer) = true) (problem : SyntaxProblem)
    (hadmits : ∀ child, child.isLine = true → kind.admits child = true) :
    Reads (itemsAllowed.inside kind) clean cursor (IsClosed closer)
      (do lineEnd; body closer; close closer problem)
      (do lineEnd; body closer; close closer problem) := by
  refine Reads.before hcloser (lineEnd_reads hout.toStands) fun line _ hline => ?_
  have hbody := hout.reached hline
  have hlines : Reads (wordless kind) line.clean line.cursor (fun _ => True) (body closer)
      (body closer) :=
    (body_reads closer hbody).widen ⟨fun _ => id, hadmits⟩ fun _ htrue _ => htrue
  refine Reads.before hcloser hlines fun lines _ hlines => ?_
  exact close_reads (hbody.reached hlines) problem

/-- A function or subroutine is a word, a name and what ends with the closing word. -/
theorem procedure_reads (closer : Keyword) {rest : Parser PUnit} {problem : SyntaxProblem}
    (hout : Outside clean cursor)
    (hpeek : cursor.peek.kind = .keyword opener)
    (hkind : isPlain kind = true ∧ kind.isOneToken = false ∧ kind.isItem = true)
    (hshaped : ∀ trees, Shaped kind trees)
    (hnames : ∀ {word name : Token} {more : List SyntaxTree}, word.kind = .keyword opener →
      name.kind = .identifier → NamedBy (.node kind (.token word :: .token name :: more)) name)
    (hshape : ∀ {taken behind : List Token} {tree : SyntaxTree}, Encloses opener closer taken →
      endsLine behind = true → tree.kind? = some kind → Shape taken behind tree)
    (hrest : ∀ {less : Bool} {behind : Cursor}, Outside less behind →
      Reads (itemsAllowed.inside kind) less behind (IsClosed closer) rest rest) :
    Reads itemsAllowed clean cursor IsItem (node kind do bump; require .identifier problem; rest)
      (node kind do bump; require .identifier problem; rest) := by
  have hinside : cursor.peek.kind ≠ .endOfFile := by rw [hpeek]; nofun
  have hword := hout.took hinside
  refine .node (P := fun outcome => ∃ more, outcome.trees = cursor.nextTokens.map .token ++ more ∧
      (outcome.clean = true → ∃ name names rest, more = names ++ rest ∧ Took 0 name names ∧
        name.kind = .identifier ∧ ∃ front last, seen rest = front ++ [last] ∧ Open closer front ∧
          last.kind = .keyword closer ∧ isLineEnd outcome.cursor.peek.kind = true)) hkind.2.1 ?_
    fun outcome houtcome hreached => ?_
  · refine Reads.bump_bind hinside (fun _ => by rw [hpeek]; exact fun _ => rfl) (fun _ => rfl) ?_
    have hname := hout.behind
    refine Reads.require_bind (by decide) (fun _ => rfl) rfl (fun hidentifier => ?_) fun _ => ?_
    · have htook := hname.took (by rw [hidentifier]; nofun)
      exact (hrest hname.behind).imp fun last hlast _ => ⟨_, rfl, fun hclean =>
        ⟨_, _, _, rfl, htook, hidentifier, hlast hclean⟩⟩
    · refine (hrest ⟨hname.toStands.unclean, hname.nesting_eq⟩).imp fun last _ hreached =>
        ⟨_, rfl, fun hclean => nomatch hreached.not_clean.symm.trans hclean⟩
  · obtain ⟨more, hmore, hall⟩ := houtcome
    have hends := hout.reached hreached
    refine ⟨fun _ => hkind.2.2, grown_plain hkind.1 fun hclean => ⟨hshaped _,
      hreached.among hclean, fun _ => ?_⟩, ⟨?_, fun hclean => ⟨_, rfl, ?_⟩⟩⟩
    · obtain ⟨name, names, rest, rfl, htook, hidentifier, -⟩ := hall hclean
      refine ⟨name.bare, ?_⟩
      rw [hmore, coreAll_append, hword.coreAll_eq, coreAll_append, htook.coreAll_eq]
      exact hnames hpeek hidentifier
    · exact hout.toStands.node_ne hinside hmore kind
    · obtain ⟨name, names, rest, rfl, htook, hidentifier, front, last, hseen, hopen, hlast,
        hline⟩ :=
        hall hclean
      change Shape (seen [SyntaxTree.node kind outcome.trees]) outcome.cursor.view _
      rw [seen_node, hmore, seen_append, Took.seen_eq hword, seen_append, Took.seen_eq htook, hseen]
      refine hshape ⟨cursor.peek.bare, name.bare :: front, last, by simp, hpeek, hlast, ?_⟩
        (hends.endsLine hclean hline) rfl
      refine List.forall_mem_cons.mpr ⟨?_, hopen⟩
      rw [Token.kind_bare, hidentifier]
      nofun

end Procedures

theorem parameterList_reads (hstands : Stands clean cursor)
    (hkind : cursor.peek.kind = .mark .leftParen) :
    Reads (wordless .functionDefinition) clean cursor (fun _ => True) parameterList
      parameterList := by
  have hpeek : cursor.peek.kind ≠ .endOfFile := by rw [hkind]; nofun
  refine plainNode_reads ⟨rfl, rfl, rfl⟩ (fun _ => trivial) rfl ?_
  refine .bracketed (P := fun _ => True) hpeek (by rw [hkind]; exact fun _ => rfl)
    (by rw [hkind]; rfl) (fun _ => rfl) nofun rfl ?_ fun _ _ _ => trivial
  refine Reads.at?_bind (Reads.when (fun _ => ?_) fun _ => trivial)
  refine Reads.many (fun _ => True) hstands.behind.enter fun hbehind => ?_
  exact Reads.expect_bind nofun (fun _ => rfl) rfl
    (fun _ => comma_reads rfl hbehind.stands.behind _) fun _ => .pure ⟨nofun, fun _ => trivial⟩

theorem preservedRange_reads (hstands : Stands clean cursor) :
    Reads (wordless .preservedRangeList) clean cursor (Goes (fun _ => True) id) preservedRange
      preservedRange := by
  refine .bind (plainNode_reads ⟨rfl, rfl, rfl⟩ (fun _ => trivial) rfl ?_)
    fun outcome _ hreached => ?_
  · refine Reads.expect_bind nofun (fun _ => rfl) rfl (fun _ => ?_) fun _ => .pure trivial
    have hlast {less : Bool} {behind : Cursor} (minus : Bool) :
        Reads ((wordless .preservedRangeList).inside .registerRange) less behind (fun _ => True)
          (do when minus (require .register .missingLastPreserved); return true)
          (do when minus (require .register .missingLastPreserved); return true) :=
      .bind (P := fun _ => True) (Reads.when (fun _ => .require (by decide) (fun _ => rfl) rfl
        (fun _ => trivial) fun _ => trivial) fun _ => trivial) fun _ _ _ => .pure trivial
    exact Reads.accept_bind (by decide) (fun _ => rfl) rfl (fun _ => hlast true) fun _ =>
      hlast false
  · split
    · exact comma_reads rfl (hreached.stands hstands) _
    · exact .pure ⟨nofun, fun _ => trivial⟩

theorem preservedRanges_reads (hstands : Stands clean cursor) :
    Reads (wordless .functionDefinition) clean cursor (fun _ => True) preservedRanges
      preservedRanges := by
  refine plainNode_reads ⟨rfl, rfl, rfl⟩ (fun _ => trivial) rfl ?_
  refine Reads.at?_bind ?_
  split
  · rename_i hkind
    have hopen : cursor.peek.kind = .mark .leftBracket := beq_iff_eq.mp hkind
    have hpeek : cursor.peek.kind ≠ .endOfFile := by rw [hopen]; nofun
    exact .bracketed (P := fun _ => True) hpeek (by rw [hopen]; exact fun _ => rfl)
      (by rw [hopen]; rfl) (fun _ => rfl) nofun rfl
      (Reads.many (fun _ => True) hstands.behind.enter fun hbehind =>
        preservedRange_reads hbehind.stands) fun _ _ _ => trivial
  · exact Reads.many (fun _ => True) hstands fun hbehind =>
      preservedRange_reads hbehind.stands

theorem functionDefinition_reads (hout : Outside clean cursor)
    (hkind : cursor.peek.kind = .keyword .function) :
    Reads itemsAllowed clean cursor IsItem functionDefinition functionDefinition := by
  refine procedure_reads .endFunction hout hkind ⟨rfl, rfl, rfl⟩ (fun _ => trivial)
    .function .function fun {less behind} hname => Reads.at?_bind ?_
  refine Reads.before (P := fun _ => True) rfl (Reads.when (fun hparen => parameterList_reads
    hname.toStands (beq_iff_eq.mp hparen)) fun _ => trivial) fun parameters _ hparameters => ?_
  have hcomma := hname.reached hparameters
  refine Reads.before (P := fun _ => True) rfl (.accept nofun (fun _ => rfl) rfl (fun _ => trivial)
    fun _ => trivial) fun comma _ hreached => Reads.at?_bind ?_
  have hranges := hcomma.reached hreached
  refine Reads.before (P := fun _ => True) rfl (Reads.when (fun _ => preservedRanges_reads
    hranges.toStands) fun _ => trivial) fun ranges _ hreached => ?_
  exact ending_reads (hranges.reached hreached) rfl _ fun child hchild => by
    simp [SyntaxKind.admits, hchild]

theorem subroutineDefinition_reads (hout : Outside clean cursor)
    (hkind : cursor.peek.kind = .keyword .subroutine) :
    Reads itemsAllowed clean cursor IsItem subroutineDefinition subroutineDefinition := by
  refine procedure_reads .endSubroutine hout hkind ⟨rfl, rfl, rfl⟩ (fun _ => trivial)
    .subroutine .subroutine fun {less behind} hname => ?_
  refine Reads.before (P := fun _ => True) rfl (Reads.peekKind_bind ?_) fun signature _ hreached =>
    ending_reads (hname.reached hreached) rfl _ fun _ => id
  have hgiven (hpeek : behind.peek.kind ≠ .endOfFile) :
      Reads (wordless .subroutineDefinition) less behind (fun _ => True)
        (recover .subroutineSignature) (recover .subroutineSignature) :=
    (recover_reads hname.toStands hpeek _).imp fun _ _ _ => trivial
  split
  case h_1 h | h_2 h | h_3 h => exact hgiven (by rw [h]; nofun)
  case h_4 => exact .pure trivial

/-! ## Items -/

theorem lines_le_items : linesAllowed.Le itemsAllowed :=
  ⟨fun _ _ => rfl, fun kind hkind => by
    change (kind.isLine || _) = true
    rw [show kind.isLine = true from hkind, Bool.true_or]⟩

theorem item_reads (hout : Outside clean cursor) (hpeek : cursor.peek.kind ≠ .endOfFile) :
    Reads itemsAllowed clean cursor IsItem item item := by
  have hline {parser : Parser PUnit} (h : Reads linesAllowed clean cursor IsItem parser parser) :
      Reads itemsAllowed clean cursor IsItem parser parser :=
    h.widen lines_le_items fun _ hitem _ => hitem
  have hgiven (problem : SyntaxProblem) :
      Reads itemsAllowed clean cursor IsItem (recover problem) (recover problem) :=
    (recover_reads hout.toStands hpeek _).imp fun _ hgiven _ => hgiven.isItem
  refine Reads.peekKind_bind ?_
  split
  case h_1 hkind => exact functionDefinition_reads hout hkind
  case h_2 hkind => exact subroutineDefinition_reads hout hkind
  case h_3 hkind => exact definition_reads hout hkind
  case h_4 => exact hgiven _
  case h_5 => exact hgiven _
  case h_6 hkind => exact hline (labelOrInstruction_reads hout hkind)
  case h_7 hkind | h_8 hkind => exact hline (instruction_reads hout (by rw [hkind]; rfl))
  case h_9 => exact hgiven _

/-- A round of the loop over the items of a text. -/
def itemRound : Parser Bool := do
  match ← peekKind with
  | .endOfFile => return false
  | .newline => again bump
  | _ => again item

theorem itemRound_reads (hout : Outside clean cursor) :
    Reads itemsAllowed clean cursor (Goes (·.peek.kind = .endOfFile) id) itemRound itemRound := by
  refine Reads.peekKind_bind ?_
  split
  case h_1 hkind => exact .pure ⟨nofun, fun _ => hkind⟩
  case h_2 hkind =>
    have hpeek : cursor.peek.kind ≠ .endOfFile := by rw [hkind]; nofun
    exact Reads.again (.bump hpeek (fun _ => by rw [hkind]; exact fun _ => rfl) (fun _ => rfl)
      ⟨fun _ => hout.nextTokens_ne hpeek, nofun⟩)
  case h_3 hend _ =>
    exact Reads.again ((item_reads hout hend).imp fun _ hitem _ => ⟨fun _ => hitem.taken, nofun⟩)

/-- The rounds that are left of the loop over the items of a text. -/
theorem itemRounds_reads (hout : Outside clean cursor) {count : Nat}
    (hcount : cursor.rest.length < count) (twin : Nat) :
    Reads itemsAllowed clean cursor (fun outcome => outcome.cursor.peek.kind = .endOfFile)
      (loop (repeated itemRound) count ()) (loop (repeated itemRound) twin ()) :=
  Reads.repeated (·.peek.kind = .endOfFile)
    (fun hbehind => itemRound_reads (hout.further hbehind)) count twin (.refl hout.toStands) hcount

/-- A text is read to its end. -/
theorem items_reads (hout : Outside clean cursor) :
    Reads itemsAllowed clean cursor (fun outcome => outcome.cursor.peek.kind = .endOfFile) items
      items :=
  .rounds fun _ twin hcount => itemRounds_reads hout hcount twin

end Parser

end NovelAsm
