import NovelAsm.Proofs.Token.Printed
import NovelAsm.Proofs.SyntaxTree.Items

/-!
What the parser makes of tokens that are in order. `Yields` says of a parser which tokens it
takes in front of others and what it makes of them, with nothing to complain about; it is closed
under the steps that parsers are made of. `Primary` and `Entire` are the expressions that a printer
writes: an operand, and two operands with one operator between them.
-/

namespace NovelAsm

namespace Parser

open Lexed SyntaxTree

variable {α β σ : Type} {nesting : Nat}

/-- A parser takes tokens in front of others, puts trees into the innermost node, and answers with
a value. -/
def Yields (parser : Parser α) (nesting : Nat) (taken rest : List Token) (trees : List SyntaxTree)
    (answer : α) : Prop :=
  ∀ (state : ParseState) (finish : Token), state.cursor = ⟨taken ++ rest, finish, nesting, false⟩ →
    Ends parser state ⟨answer, trees, true, ⟨rest, finish, nesting, false⟩⟩ []

/-- Tokens whose first one is seen by the parser, and of which kind that is. -/
def Begins (kind : TokenKind) (nesting : Nat) (tokens : List Token) : Prop :=
  ∃ token more, tokens = token :: more ∧ token.kind = kind ∧ kind.isTrivia = false ∧
    (kind = .newline → nesting = 0)

theorem begins_cons {token : Token} (htrivia : token.kind.isTrivia = false)
    (hline : token.kind ≠ .newline) (rest : List Token) :
    Begins token.kind nesting (token :: rest) :=
  ⟨token, rest, rfl, rfl, htrivia, fun h => absurd h hline⟩

theorem begins_leaf {kind : TokenKind} (htrivia : kind.isTrivia = false) (hline : kind ≠ .newline)
    (text : Bytes) (rest : List Token) : Begins kind nesting (leaf kind text :: rest) :=
  @begins_cons nesting (leaf kind text) htrivia hline rest

section Steps

variable {token finish : Token} {kind : TokenKind} {taken more rest : List Token}
  {trees others : List SyntaxTree} {failed : Bool}

theorem isSkippable_of_begins (h : Begins token.kind nesting (token :: rest))
    (tokens : List Token) :
    (Cursor.mk tokens finish nesting failed).isSkippable token = false := by
  obtain ⟨_, _, hcons, hkind, htrivia, hline⟩ := h
  obtain ⟨rfl, rfl⟩ := List.cons.inj hcons
  rw [Cursor.isSkippable_eq, Token.isTrivia, htrivia, Bool.false_or]
  by_cases hnewline : token.kind = .newline
  · simp [Cursor.isBreak, hline hnewline]
  · exact Cursor.isBreak_of_kind_ne hnewline

theorem dropWhile_of_begins (h : Begins token.kind nesting (token :: rest)) (tokens : List Token) :
    (token :: rest).dropWhile (Cursor.mk tokens finish nesting failed).isSkippable =
      token :: rest :=
  List.dropWhile_cons_of_neg (by rw [isSkippable_of_begins h]; exact Bool.false_ne_true)

theorem peek_of_begins (h : Begins token.kind nesting (token :: rest)) :
    (Cursor.mk (token :: rest) finish nesting failed).peek = token := by
  rw [Cursor.peek_eq_head?, dropWhile_of_begins h]
  rfl

/-- The kind of the first token is seen. -/
theorem kind_peek_of_begins (h : Begins kind nesting rest) :
    (Cursor.mk rest finish nesting failed).peek.kind = kind := by
  obtain ⟨token, more, rfl, rfl, -⟩ := id h
  rw [peek_of_begins h]

theorem nextTokens_of_begins (h : Begins token.kind nesting (token :: rest)) :
    (Cursor.mk (token :: rest) finish nesting failed).nextTokens = [token] := by
  rw [Cursor.nextTokens, dropWhile_of_begins h]
  change (token :: rest).takeWhile _ ++ [token] = _
  rw [List.takeWhile_cons_of_neg (by rw [isSkippable_of_begins h]; exact Bool.false_ne_true)]
  rfl

theorem behind_of_begins (h : Begins token.kind nesting (token :: rest)) :
    (Cursor.mk (token :: rest) finish nesting failed).behind = ⟨rest, finish, nesting, failed⟩ := by
  rw [Cursor.behind, dropWhile_of_begins h]

theorem peekSecond_of_begins (h : Begins token.kind nesting (token :: rest)) :
    (Cursor.mk (token :: rest) finish nesting failed).peekSecond =
      (Cursor.mk rest finish nesting failed).peek := by
  rw [← Cursor.peek_behind, behind_of_begins h]

theorem Yields.pure (rest : List Token) (answer : α) :
    Yields (Pure.pure answer : Parser α) nesting [] rest [] answer := by
  intro state finish hstate
  have hcursor : state.cursor = ⟨rest, finish, nesting, false⟩ := hstate
  rw [← hcursor]
  exact ends_quiet rfl

theorem Yields.bind {parser : Parser α} {next : α → Parser β} {value : α} {answer : β}
    (h : Yields parser nesting taken (more ++ rest) trees value)
    (hnext : Yields (next value) nesting more rest others answer) :
    Yields (parser >>= next) nesting (taken ++ more) rest (trees ++ others) answer :=
  fun state finish hstate =>
    (h state finish (by rw [hstate, List.append_assoc])).bind (hnext _ finish rfl)

/-- A step that takes nothing behind others. -/
theorem Yields.follow {parser : Parser α} {next : α → Parser β} {value : α} {answer : β}
    (h : Yields parser nesting taken rest trees value)
    (hnext : Yields (next value) nesting [] rest [] answer) :
    Yields (parser >>= next) nesting taken rest trees answer := by
  have hboth : Yields (parser >>= next) nesting (taken ++ []) rest (trees ++ []) answer :=
    h.bind hnext
  rwa [List.append_nil, List.append_nil] at hboth

/-- Before the same tokens the same trees are made. -/
theorem Yields.unique {parser : Parser α} {value answer : α} {front behind : List Token}
    (h : Yields parser nesting taken rest trees value)
    (hother : Yields parser nesting front behind others answer)
    (htokens : taken ++ rest = front ++ behind) : trees = others := by
  let state := (alone []).after ⟨taken ++ rest, Cursor.endToken, nesting, false⟩ [] []
  have hends := h state Cursor.endToken rfl
  have hotherEnds := hother state Cursor.endToken (congrArg (Cursor.mk · _ _ _) htokens)
  obtain ⟨-, -, htrees, -⟩ := hends.unique hotherEnds
  exact htrees

theorem Yields.node {parser : Parser α} {answer : α}
    (h : Yields parser nesting taken rest trees answer) (kind : SyntaxKind) :
    Yields (node kind parser) nesting taken rest [.node kind trees] answer :=
  fun state finish hstate => Ends.node (h (state.opened kind) finish hstate)

/-- A step that looks at the tokens alone. -/
theorem Yields.see {step : Parser α} {answer : α} (see : Cursor → α)
    (hstep : ∀ state, step state = some (see state.cursor, state))
    (hanswer : ∀ finish, see ⟨rest, finish, nesting, false⟩ = answer) :
    Yields step nesting [] rest [] answer := by
  intro state finish hstate
  have hcursor : state.cursor = ⟨rest, finish, nesting, false⟩ := hstate
  have hsee : see state.cursor = answer := by rw [hcursor, hanswer]
  rw [← hcursor]
  exact ends_quiet ((hstep state).trans (by rw [hsee]))

theorem Yields.look {step : Parser α} {next : α → Parser β} {answer : β} (see : Cursor → α)
    (hstep : ∀ state, step state = some (see state.cursor, state)) {value : α}
    (hvalue : ∀ finish, see ⟨taken ++ rest, finish, nesting, false⟩ = value)
    (hnext : Yields (next value) nesting taken rest trees answer) :
    Yields (step >>= next) nesting taken rest trees answer :=
  (Yields.see see hstep hvalue).bind hnext

theorem Yields.peekKind {next : TokenKind → Parser β} {answer : β}
    (hkind : Begins kind nesting (taken ++ rest))
    (hnext : Yields (next kind) nesting taken rest trees answer) :
    Yields (Parser.peekKind >>= next) nesting taken rest trees answer :=
  hnext.look (fun cursor => cursor.peek.kind) (fun _ => rfl)
    fun _ => kind_peek_of_begins hkind

/-- Two tokens in front. -/
theorem Yields.peekSecondKind {next : TokenKind → Parser β} {answer : β} {behind : List Token}
    (htokens : taken ++ rest = token :: behind)
    (hfirst : Begins token.kind nesting (token :: behind))
    (hkind : Begins kind nesting behind)
    (hnext : Yields (next kind) nesting taken rest trees answer) :
    Yields (Parser.peekSecondKind >>= next) nesting taken rest trees answer := by
  refine hnext.look (fun cursor => cursor.peekSecond.kind) (fun _ => rfl) fun finish => ?_
  rw [htokens, peekSecond_of_begins hfirst, kind_peek_of_begins hkind]

theorem Yields.at? {next : Bool → Parser β} {answer : β} {other : TokenKind}
    (hkind : Begins other nesting (taken ++ rest))
    (hnext : Yields (next (other == kind)) nesting taken rest trees answer) :
    Yields (Parser.at? kind >>= next) nesting taken rest trees answer :=
  hnext.look (fun cursor => cursor.peek.kind == kind) (fun _ => rfl) fun _ => by
    rw [kind_peek_of_begins hkind]

theorem Yields.bump (h : Begins token.kind nesting (token :: rest)) :
    Yields Parser.bump nesting [token] rest [.token token] () := by
  intro state finish hstate
  rw [List.singleton_append] at hstate
  change some ((), state.after state.cursor.behind (state.cursor.nextTokens.map .token) []) = _
  rw [hstate, nextTokens_of_begins h, behind_of_begins h]
  rfl

theorem Yields.accept (h : Begins token.kind nesting (token :: rest)) :
    Yields (Parser.accept token.kind) nesting [token] rest [.token token] true := by
  refine Yields.at? h ?_
  rw [beq_self_eq_true]
  exact (Yields.bump h).follow (Yields.pure rest true)

/-- A token of another kind stays where it is. -/
theorem Yields.pass {other : TokenKind} (h : Begins other nesting rest) (hne : other ≠ kind) :
    Yields (Parser.accept kind) nesting [] rest [] false := by
  refine Yields.at? h ?_
  rw [beq_eq_false_iff_ne.mpr hne]
  exact Yields.pure rest false

theorem Yields.expect (problem : SyntaxProblem) (h : Begins token.kind nesting (token :: rest)) :
    Yields (Parser.expect token.kind problem) nesting [token] rest [.token token] true :=
  (Yields.accept h).follow (Yields.pure rest true)

/-- What stands in brackets, and the brackets themselves. -/
theorem Yields.bracketed {inside : Parser PUnit} {closing : Token} (problem : SyntaxProblem)
    (hopen : Begins token.kind nesting (token :: (taken ++ closing :: rest)))
    (hclosing : Begins closing.kind (nesting + 1) (closing :: rest))
    (h : Yields inside (nesting + 1) taken (closing :: rest) trees ()) :
    Yields (Parser.bracketed closing.kind problem inside) nesting
      (token :: (taken ++ [closing])) rest
      (.token token :: (trees ++ [.token closing])) () := by
  intro state finish hstate
  have hcursor : state.cursor = ⟨token :: (taken ++ closing :: rest), finish, nesting, false⟩ := by
    rw [hstate]
    simp
  have hinside := h (state.after state.cursor.behind.enter (state.cursor.nextTokens.map .token) [])
    finish (by rw [hcursor, behind_of_begins hopen]; rfl)
  have hboth : Ends (Parser.bracketed closing.kind problem inside) state _ _ := hinside.bracketed
  have hpeek : (Cursor.mk (closing :: rest) finish (nesting + 1) false).peek.kind = closing.kind :=
    kind_peek_of_begins hclosing
  rw [unclosed, if_pos hpeek, Outcome.closed, if_pos hpeek, hcursor, nextTokens_of_begins hopen,
    nextTokens_of_begins hclosing, behind_of_begins hclosing] at hboth
  exact hboth

theorem Yields.rounds {next : Nat → Parser β} {answer : β}
    (hnext : Yields (next ((taken ++ rest).length + 1)) nesting taken rest trees answer) :
    Yields (Parser.rounds >>= next) nesting taken rest trees answer :=
  hnext.look (fun cursor => cursor.rest.length + 1) (fun _ => rfl) fun _ => rfl

/-- A last round of a loop. -/
theorem Yields.loop_last {round : σ → Parser (Option σ)} {given : σ}
    (h : Yields (round given) nesting taken rest trees none) (count : Nat) :
    Yields (loop round (count + 1) given) nesting taken rest trees () :=
  h.follow (Yields.pure rest ())

theorem Yields.loop_more {round : σ → Parser (Option σ)} {given next : σ} {count : Nat}
    (h : Yields (round given) nesting taken (more ++ rest) trees (some next))
    (hmore : Yields (loop round count next) nesting more rest others ()) :
    Yields (loop round (count + 1) given) nesting (taken ++ more) rest (trees ++ others) () :=
  h.bind hmore

end Steps

/-! ## Expressions -/

/-- Tokens that stand behind an operand and do not go on with it. -/
def Stops (kind : TokenKind) : Prop := bindingPower kind = 0 ∧ kind ≠ .mark .leftParen

/-- Tokens with which an expression can begin, and no flag. -/
def Starts (tokens : List Token) : Prop :=
  ∃ first more, tokens = first :: more ∧ startsExpression first.kind = true ∧
    (first.kind = .identifier → Flag.ofText? first.text = none)

theorem starts_leaf {kind : TokenKind} (h : startsExpression kind = true)
    (hname : kind ≠ .identifier) (text : Bytes) (more : List Token) :
    Starts (leaf kind text :: more) :=
  ⟨leaf kind text, more, rfl, h, fun hkind => absurd hkind hname⟩

theorem starts_name {text : Bytes} (h : Flag.ofText? text = none) (more : List Token) :
    Starts (leaf .identifier text :: more) := ⟨leaf .identifier text, more, rfl, rfl, fun _ => h⟩

theorem Starts.append {tokens : List Token} (h : Starts tokens) (more : List Token) :
    Starts (tokens ++ more) := by
  obtain ⟨first, rest, rfl, hfirst⟩ := h
  exact ⟨first, rest ++ more, rfl, hfirst⟩

theorem Starts.begins {tokens : List Token} (h : Starts tokens) :
    ∃ kind, startsExpression kind = true ∧ Begins kind nesting tokens := by
  obtain ⟨first, rest, rfl, hfirst, -⟩ := h
  have hkind : first.kind.isTrivia = false ∧ first.kind ≠ .newline := by
    constructor
    · cases hkind : first.kind <;> first | rfl | (rw [hkind] at hfirst; cases hfirst)
    · intro hline
      rw [hline] at hfirst
      cases hfirst
  exact ⟨first.kind, hfirst, begins_cons hkind.1 hkind.2 rest⟩

/-- Tokens that are an operand with its signs, whatever follows but a parenthesis. -/
structure Primary (tokens : List Token) (tree : SyntaxTree) : Prop where
  starts : Starts tokens
  parses : ∀ {nesting depth : Nat} {kind : TokenKind} {rest : List Token},
    tokens.length ≤ depth → Begins kind nesting rest → kind ≠ .mark .leftParen →
    Yields (primary (expressionWithin depth)) nesting tokens rest [tree] ()

/-- Tokens that are an expression in front of what closes it. -/
structure Entire (tokens : List Token) (tree : SyntaxTree) : Prop where
  starts : Starts tokens
  parses : ∀ {nesting depth : Nat} {kind : TokenKind} {rest : List Token},
    tokens.length < depth → Begins kind nesting rest → Stops kind →
    Yields (expressionWithin depth 0) nesting tokens rest [tree] ()

section Operators

variable {first : Parser PUnit} {operand : Nat → Parser PUnit} {power : Nat} {kind : TokenKind}
  {front rest : List Token} {left : List SyntaxTree}

/-- No operator follows that binds tighter. -/
theorem Yields.climb_one (h : Yields first nesting front rest left ())
    (hrest : Begins kind nesting rest) (hpower : bindingPower kind ≤ power) :
    Yields (climb first operand power) nesting front rest left () := fun state finish hstate => by
  have hfirst := h state finish hstate
  exact hfirst.climb (hfirst.checkpoint.operators_last operand
    (by rwa [kind_peek_of_begins hrest]) rest.length)

/-- One operator follows that binds tighter. -/
theorem Yields.climb_two {token : Token} {back : List Token} {right : List SyntaxTree}
    (h : Yields first nesting front (token :: (back ++ rest)) left ())
    (htoken : Begins token.kind nesting (token :: (back ++ rest)))
    (htighter : power < bindingPower token.kind)
    (hoperand : Yields (operand (bindingPower token.kind)) nesting back rest right ())
    (hrest : Begins kind nesting rest) (hpower : bindingPower kind ≤ power) :
    Yields (climb first operand power) nesting (front ++ token :: back) rest
      [.node .binaryExpr (left ++ .token token :: right)] () := by
  intro state finish hstate
  have hfirst := h state finish (by rw [hstate]; simp)
  have hright := hoperand (state.operated
    ⟨(), left, true, ⟨token :: (back ++ rest), finish, nesting, false⟩⟩ []) finish
      (behind_of_begins htoken)
  have hboth := hfirst.checkpoint.operated hright
  rw [Outcome.operated, nextTokens_of_begins htoken] at hboth
  have htighter : power < bindingPower
      (Cursor.mk (token :: (back ++ rest)) finish nesting false).peek.kind := by
    rwa [kind_peek_of_begins htoken]
  have hnext := hfirst.checkpoint.operators_next operand htighter ((back ++ rest).length + 1)
  rw [kind_peek_of_begins htoken] at hnext
  have hlooser : bindingPower (Cursor.mk rest finish nesting false).peek.kind ≤ power := by
    rwa [kind_peek_of_begins hrest]
  have hstop := hboth.operators_last operand hlooser (back ++ rest).length
  have hclimb := hfirst.climb (hnext.trans hstop)
  simpa using hclimb

end Operators

/-- An operand by itself is an expression of any power that the next token does not exceed. -/
theorem Primary.within {tokens rest : List Token} {tree : SyntaxTree} (h : Primary tokens tree)
    {depth power : Nat} {kind : TokenKind} (hdepth : tokens.length < depth)
    (hrest : Begins kind nesting rest) (hparen : kind ≠ .mark .leftParen)
    (hpower : bindingPower kind ≤ power) :
    Yields (expressionWithin depth power) nesting tokens rest [tree] () := by
  obtain ⟨depth, rfl⟩ := Nat.exists_eq_succ_of_ne_zero (Nat.ne_of_gt (Nat.zero_lt_of_lt hdepth))
  exact (h.parses (Nat.le_of_lt_succ hdepth) hrest hparen).climb_one hrest hpower

theorem Primary.whole {tokens : List Token} {tree : SyntaxTree} (h : Primary tokens tree) :
    Entire tokens tree where
  starts := h.starts
  parses hdepth hrest hstops := h.within hdepth hrest hstops.2 (Nat.le_of_eq hstops.1)

theorem primary_literal {kind : TokenKind} (text : Bytes)
    (hkind : kind = .integerLiteral ∨ kind = .stringLiteral) :
    Primary [leaf kind text] (.node .literalExpr [.token (leaf kind text)]) := by
  refine ⟨by rcases hkind with rfl | rfl <;> exact starts_leaf rfl (by decide) text [], ?_⟩
  intro nesting depth next rest _ _ _
  rcases hkind with rfl | rfl
  · have hlead : Begins .integerLiteral nesting (leaf .integerLiteral text :: rest) :=
      begins_leaf rfl (by decide) text rest
    exact Yields.peekKind hlead ((Yields.bump hlead).node .literalExpr)
  · have hlead : Begins .stringLiteral nesting (leaf .stringLiteral text :: rest) :=
      begins_leaf rfl (by decide) text rest
    exact Yields.peekKind hlead ((Yields.bump hlead).node .literalExpr)

theorem primary_register (text : Bytes) :
    Primary [leaf .register text] (.node .registerExpr [.token (leaf .register text)]) := by
  refine ⟨starts_leaf rfl (by decide) text [], ?_⟩
  intro nesting depth kind rest _ _ _
  have hlead : Begins .register nesting (leaf .register text :: rest) :=
    begins_leaf rfl (by decide) text rest
  exact Yields.peekKind hlead ((Yields.bump hlead).node .registerExpr)

theorem primary_name {text : Bytes} (hflag : Flag.ofText? text = none) :
    Primary [leaf .identifier text] (.node .nameExpr [.token (leaf .identifier text)]) := by
  refine ⟨starts_name hflag [], ?_⟩
  intro nesting depth kind rest _ hrest hparen
  have hlead : Begins .identifier nesting (leaf .identifier text :: rest) :=
    begins_leaf rfl (by decide) text rest
  refine Yields.peekKind hlead (Yields.peekSecondKind rfl hlead hrest ?_)
  rw [beq_eq_false_iff_ne.mpr hparen]
  exact (Yields.bump hlead).node .nameExpr

/-- The signs that stand before an operand. -/
def IsSign (kind : TokenKind) : Prop :=
  kind = .mark .minus ∨ kind = .mark .tilde ∨ kind = .mark .bang

theorem primary_signed {kind : TokenKind} (hkind : IsSign kind) (text : Bytes)
    {tokens : List Token} {tree : SyntaxTree} (h : Primary tokens tree) :
    Primary (leaf kind text :: tokens) (.node .unaryExpr [.token (leaf kind text), tree]) := by
  have hstarts : Starts (leaf kind text :: tokens) := by
    rcases hkind with rfl | rfl | rfl <;> exact starts_leaf rfl (by decide) text tokens
  refine ⟨hstarts, ?_⟩
  intro nesting depth next rest hdepth hrest hparen
  have hoperand : Yields (expressionWithin depth unaryPower) nesting tokens rest [tree] () :=
    h.within hdepth hrest hparen (Nat.le_of_lt (bindingPower_lt_unaryPower next))
  have hsign (hlead : Begins kind nesting (leaf kind text :: (tokens ++ rest))) :
      Yields (node .unaryExpr do bump; expressionWithin depth unaryPower) nesting
        (leaf kind text :: tokens) rest [.node .unaryExpr [.token (leaf kind text), tree]] () :=
    ((Yields.bump hlead).bind hoperand).node .unaryExpr
  rcases hkind with rfl | rfl | rfl <;>
    exact Yields.peekKind (begins_leaf rfl (by decide) _ _)
      (hsign (begins_leaf rfl (by decide) _ _))

/-- The parentheses of an expression. -/
def leftParen : Token := leaf (.mark .leftParen) (ascii "(")

def rightParen : Token := leaf (.mark .rightParen) (ascii ")")

theorem begins_leftParen (rest : List Token) :
    Begins (.mark .leftParen) nesting (leftParen :: rest) :=
  begins_leaf rfl (by decide) _ rest

theorem begins_rightParen (rest : List Token) :
    Begins (.mark .rightParen) nesting (rightParen :: rest) :=
  begins_leaf rfl (by decide) _ rest

theorem stops_rightParen : Stops (.mark .rightParen) := ⟨rfl, by decide⟩

theorem primary_parenthesized {tokens : List Token} {tree : SyntaxTree} (h : Entire tokens tree) :
    Primary (leftParen :: (tokens ++ [rightParen]))
      (.node .parenExpr [.token leftParen, tree, .token rightParen]) := by
  refine ⟨starts_leaf rfl (by decide) _ _, ?_⟩
  intro nesting depth kind rest hdepth _ _
  have hlength : tokens.length < depth := by
    simp only [List.length_cons, List.length_append] at hdepth
    omega
  have hvalue : Yields (expressionWithin depth 0) (nesting + 1) tokens (rightParen :: rest)
      [tree] () := h.parses hlength (begins_rightParen rest) stops_rightParen
  exact Yields.peekKind (begins_leftParen _) ((Yields.bracketed .unclosedParen (begins_leftParen _)
    (begins_rightParen rest) hvalue).node .parenExpr)

/-- Two operands with an operator between them. -/
theorem whole_binary {front back : List Token} {left right : SyntaxTree} {kind : TokenKind}
    (text : Bytes) (hpower : 0 < bindingPower kind) (hleft : Primary front left)
    (hright : Primary back right) :
    Entire (front ++ leaf kind text :: back)
      (.node .binaryExpr [left, .token (leaf kind text), right]) := by
  refine ⟨hleft.starts.append _, ?_⟩
  intro nesting depth next rest hdepth hrest hstops
  obtain ⟨depth, rfl⟩ := Nat.exists_eq_succ_of_ne_zero (Nat.ne_of_gt (Nat.zero_lt_of_lt hdepth))
  simp only [List.length_append, List.length_cons] at hdepth
  have hkind : kind.isTrivia = false ∧ kind ≠ .newline ∧ kind ≠ .mark .leftParen := by
    refine ⟨?_, ?_, ?_⟩
    · cases kind <;> first | rfl | exact absurd hpower (by simp [bindingPower])
    · rintro rfl
      exact absurd hpower (by decide)
    · rintro rfl
      exact absurd hpower (by decide)
  have hlead : Begins kind nesting (leaf kind text :: (back ++ rest)) :=
    begins_leaf hkind.1 hkind.2.1 text _
  have hoperand : Yields (expressionWithin depth (bindingPower kind)) nesting back rest
      [right] () :=
    hright.within (by omega) hrest hstops.2 (by rw [hstops.1]; exact Nat.zero_le _)
  exact (hleft.parses (by omega) hlead hkind.2.2).climb_two hlead hpower hoperand hrest
    (Nat.le_of_eq hstops.1)

/-! ## Lists -/

/-- The elements of a list with the commas between them. -/
def commaTrees (pieces : List (List SyntaxTree)) : List SyntaxTree :=
  [SyntaxTree.token commaToken].intercalate pieces

theorem commaTrees_cons_cons (first second : List SyntaxTree) (rest : List (List SyntaxTree)) :
    commaTrees (first :: second :: rest) =
      (first ++ [.token commaToken]) ++ commaTrees (second :: rest) := by
  simp [commaTrees, List.intercalate]

theorem begins_comma (rest : List Token) : Begins (.mark .comma) nesting (commaToken :: rest) :=
  begins_leaf rfl (by decide) _ rest

theorem stops_comma : Stops (.mark .comma) := ⟨rfl, by decide⟩

/-- A round of a loop over a list, for an element with a comma behind it and for the last one. -/
structure Round (step : Parser Bool) (closer : TokenKind) (nesting : Nat) (tokens : List Token)
    (trees : List SyntaxTree) : Prop where
  more : ∀ rest, Yields step nesting (tokens ++ [commaToken]) rest
    (trees ++ [.token commaToken]) true
  last : ∀ rest, Begins closer nesting rest → Yields step nesting tokens rest trees false

/-- An element, and the comma behind it if there is one. -/
theorem round_of_entry {entry : Parser PUnit} {closer : TokenKind} {tokens : List Token}
    {trees : List SyntaxTree} (hstops : Stops closer) (hcloser : closer ≠ .mark .comma)
    (h : ∀ {kind : TokenKind} {rest : List Token}, Begins kind nesting rest → Stops kind →
      Yields entry nesting tokens rest trees ()) :
    Round (do entry; accept (.mark .comma)) closer nesting tokens trees where
  more rest := (h (begins_comma rest) stops_comma).bind
    (@Yields.accept nesting commaToken rest (begins_comma rest))
  last _ hrest := (h hrest hstops).follow (Yields.pass hrest hcloser)

/-- An element that is looked for. -/
theorem round_of_start {entry : Parser PUnit} {closer : TokenKind} {tokens : List Token}
    {trees : List SyntaxTree} (hstarts : Starts tokens) (hstops : Stops closer)
    (hcloser : closer ≠ .mark .comma)
    (h : ∀ {kind : TokenKind} {rest : List Token}, Begins kind nesting rest → Stops kind →
      Yields entry nesting tokens rest trees ()) :
    Round (listRound entry) closer nesting tokens trees := by
  have hround := round_of_entry hstops hcloser h
  have hseen {taken rest : List Token} {made : List SyntaxTree} {answer : Bool}
      (htaken : Starts (taken ++ rest))
      (hyields : Yields (do entry; accept (.mark .comma)) nesting taken rest made answer) :
      Yields (listRound entry) nesting taken rest made answer := by
    obtain ⟨kind, hstart, hlead⟩ := htaken.begins
    refine Yields.peekKind hlead ?_
    rw [if_pos hstart]
    exact hyields
  exact ⟨fun rest => hseen ((hstarts.append _).append rest) (hround.more rest),
    fun rest hrest => hseen (hstarts.append rest) (hround.last rest hrest)⟩

theorem Yields.repeated {step : Parser Bool} {tokens rest : List Token} {trees : List SyntaxTree}
    {answer : Bool} (h : Yields step nesting tokens rest trees answer) :
    Yields (Parser.repeated step ()) nesting tokens rest trees (if answer then some () else none) :=
  h.follow (Yields.pure rest _)

theorem Yields.loop_list {step : Parser Bool} {closer : TokenKind}
    {pieces : List (List Token)} {trees : List (List SyntaxTree)}
    (h : List.Forall₂ (Round step closer nesting) pieces trees) (hne : pieces ≠ [])
    {count : Nat} (hcount : pieces.length ≤ count) {rest : List Token}
    (hrest : Begins closer nesting rest) :
    Yields (loop (Parser.repeated step) count ()) nesting (commaTokens pieces) rest
      (commaTrees trees) () := by
  induction h generalizing count with
  | nil => exact absurd rfl hne
  | @cons tokens first pieces trees hfirst hothers ih =>
      obtain ⟨count, rfl⟩ := Nat.exists_eq_succ_of_ne_zero (Nat.ne_of_gt (Nat.zero_lt_of_lt hcount))
      have hlength : pieces.length ≤ count := Nat.le_of_succ_le_succ hcount
      cases hothers with
      | nil =>
          have hlast := Yields.loop_last (hfirst.last rest hrest).repeated count
          simpa [commaTokens, commaTrees, List.intercalate] using hlast
      | @cons second others pieces trees hsecond hothers =>
          rw [commaTokens_cons_cons, commaTrees_cons_cons, List.append_cons]
          exact Yields.loop_more (hfirst.more _).repeated (ih (List.cons_ne_nil _ _) hlength)

theorem length_le_commaTokens (pieces : List (List Token)) :
    pieces.length ≤ (commaTokens pieces).length + 1 := by
  induction pieces with
  | nil => exact Nat.zero_le _
  | cons first rest ih =>
      cases rest with
      | nil => exact Nat.succ_le_succ (Nat.zero_le _)
      | cons second rest =>
          rw [commaTokens_cons_cons, List.length_append, List.length_cons,
            @List.length_cons _ commaToken]
          omega

theorem Yields.many_list {step : Parser Bool} {closer : TokenKind}
    {pieces : List (List Token)} {trees : List (List SyntaxTree)}
    (h : List.Forall₂ (Round step closer nesting) pieces trees) (hne : pieces ≠ [])
    {rest : List Token} (hrest : Begins closer nesting rest) :
    Yields (many step) nesting (commaTokens pieces) rest (commaTrees trees) () := by
  have hcount : pieces.length ≤ (commaTokens pieces ++ rest).length + 1 := by
    have hle := length_le_commaTokens pieces
    rw [List.length_append]
    omega
  exact Yields.rounds (Yields.loop_list h hne hcount hrest)

/-- An expression that a list or a call holds. -/
theorem Entire.yields_expression {tokens rest : List Token} {tree : SyntaxTree}
    (h : Entire tokens tree) {kind : TokenKind} (hrest : Begins kind nesting rest)
    (hstops : Stops kind) : Yields expression nesting tokens rest [tree] () := by
  have hlength : tokens.length < (tokens ++ rest).length + 1 := by
    rw [List.length_append]
    omega
  exact Yields.rounds (h.parses hlength hrest hstops)

theorem length_le_of_mem_commaTokens {pieces : List (List Token)} {piece : List Token}
    (h : piece ∈ pieces) : piece.length ≤ (commaTokens pieces).length := by
  induction pieces with
  | nil => cases h
  | cons first rest ih =>
      cases rest with
      | nil =>
          obtain rfl := List.mem_singleton.mp h
          simp [commaTokens, List.intercalate]
      | cons second rest =>
          rw [commaTokens_cons_cons, List.length_append, @List.length_cons _ commaToken]
          rcases List.mem_cons.mp h with rfl | h
          · omega
          · have hle := ih h
            omega

theorem starts_commaTokens {pieces : List (List Token)} {trees : List SyntaxTree}
    (h : List.Forall₂ Entire pieces trees) (hne : pieces ≠ []) : Starts (commaTokens pieces) := by
  cases h with
  | nil => exact absurd rfl hne
  | @cons first _ pieces _ hfirst hothers =>
      cases pieces with
      | nil => simpa [commaTokens, List.intercalate] using hfirst.starts
      | cons second pieces =>
          rw [commaTokens_cons_cons]
          exact hfirst.starts.append _

/-- A call of a function with some arguments. -/
theorem primary_call {text : Bytes} (hflag : Flag.ofText? text = none)
    {pieces : List (List Token)} {trees : List SyntaxTree}
    (h : List.Forall₂ Entire pieces trees) (hne : pieces ≠ []) :
    Primary (leaf .identifier text :: leftParen :: (commaTokens pieces ++ [rightParen]))
      (.node .callExpr (.token (leaf .identifier text) :: .token leftParen ::
        (commaTrees (trees.map ([·])) ++ [.token rightParen]))) := by
  refine ⟨starts_name hflag _, ?_⟩
  intro nesting depth kind rest hdepth _ _
  have hname (more : List Token) : Begins .identifier nesting (leaf .identifier text :: more) :=
    begins_leaf rfl (by decide) text more
  have hlength : ∀ piece ∈ pieces, piece.length < depth := by
    intro piece hpiece
    have hle := length_le_of_mem_commaTokens hpiece
    simp only [List.length_cons, List.length_append] at hdepth
    omega
  have hrounds : List.Forall₂ (Round (do expressionWithin depth 0; accept (.mark .comma))
      (.mark .rightParen) (nesting + 1)) pieces (trees.map ([·])) := by
    refine List.forall₂_map_right_iff.mpr (List.forall₂_iff_get.mpr ⟨h.length_eq, ?_⟩)
    intro index hpiece htree
    exact round_of_entry stops_rightParen (by decide) fun hrest hstops =>
      (h.get hpiece htree).parses (hlength _ (List.get_mem ..)) hrest hstops
  have harguments : Yields (commaSeparated (expressionWithin depth 0)) (nesting + 1)
      (commaTokens pieces) (rightParen :: rest) (commaTrees (trees.map ([·]))) () :=
    Yields.many_list hrounds hne (begins_rightParen rest)
  obtain ⟨first, hstart, hfirst⟩ :=
    @Starts.begins (nesting + 1) _ ((starts_commaTokens h hne).append (rightParen :: rest))
  have hother : first ≠ .mark .rightParen := by
    rintro rfl
    cases hstart
  have hinside : Yields (do
      when (!(← at? (.mark .rightParen))) (commaSeparated (expressionWithin depth 0))) (nesting + 1)
      (commaTokens pieces) (rightParen :: rest) (commaTrees (trees.map ([·]))) () := by
    refine Yields.at? hfirst ?_
    rw [beq_eq_false_iff_ne.mpr hother]
    exact harguments
  have hbracketed := Yields.bracketed .unclosedCall (begins_leftParen _) (begins_rightParen rest)
    hinside
  have hcall : Yields (call (expressionWithin depth)) nesting _ rest _ () :=
    Yields.node ((Yields.bump (hname _)).bind hbracketed) .callExpr
  exact Yields.peekKind (hname _) (Yields.peekSecondKind rfl (hname _) (begins_leftParen _) hcall)

end Parser

end NovelAsm
