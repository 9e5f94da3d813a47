import NovelAsm.Proofs.SyntaxTree.Loops

/-!
What is read as an expression. Operators are read by their powers, and each operand begins behind a
token that was taken, so expressions nest no deeper than there are tokens.
-/

namespace NovelAsm

namespace Parser

open SyntaxTree

variable {allowed : Allowed} {clean : Bool} {cursor : Cursor}

/-- What is allowed in expressions. -/
def inner : Allowed := ⟨isInner, SyntaxKind.isExpression⟩

theorem bindingPower_lt_unaryPower (kind : TokenKind) : bindingPower kind < unaryPower := by
  rw [unaryPower]
  simp only [bindingPower]
  split <;> decide

theorem power_lt_unaryPower (tree : SyntaxTree) : tree.power < unaryPower := by
  rw [SyntaxTree.power]
  cases Naming.operator? tree with
  | none => exact Nat.zero_lt_succ _
  | some kind => exact bindingPower_lt_unaryPower kind

/-- Whatever binds is an operator of expressions. -/
theorem operator_of_bindingPower {kind : TokenKind} (h : 0 < bindingPower kind) :
    (Naming.binaryOperator? kind).isSome = true ∧ isInner kind = true := by
  cases kind with
  | mark mark => cases mark <;> first | exact ⟨rfl, rfl⟩ | exact absurd h (by decide)
  | keyword word => cases word <;> first | exact ⟨rfl, rfl⟩ | exact absurd h (by decide)
  | _ => exact absurd h (Nat.lt_irrefl 0)

/-- A node, which takes something if nothing is wrong. -/
structure Single (tree : SyntaxTree) (outcome : Outcome PUnit) : Prop where
  trees_eq : outcome.trees = [tree]
  isNode : tree.isNode = true
  leaves_ne : outcome.clean = true → tree.leaves ≠ []

theorem Single.leavesOf_ne {tree : SyntaxTree} {outcome : Outcome PUnit} (h : Single tree outcome)
    (hclean : outcome.clean = true) : leavesOf outcome.trees ≠ [] := by
  simpa [h.trees_eq, leavesOf] using h.leaves_ne hclean

/-- An operand in front of all binary operators. -/
def Simple (outcome : Outcome PUnit) : Prop :=
  ∃ tree, Single tree outcome ∧ tree.kind? ≠ some .binaryExpr

/-- An expression of operators that bind tighter than a power, before an operator that binds no
tighter than it does itself. -/
def Climbs (power : Nat) (outcome : Outcome PUnit) : Prop :=
  ∃ tree, Single tree outcome ∧ (tree.kind? = some .binaryExpr →
    power < tree.power ∧ bindingPower outcome.cursor.peek.kind ≤ tree.power)

/-- An expression of operators that bind tighter than a power, before one that does not. -/
structure Binds (power : Nat) (outcome : Outcome PUnit) : Prop where
  single : ∃ tree, Single tree outcome ∧ (tree.kind? = some .binaryExpr → power < tree.power)
  before : bindingPower outcome.cursor.peek.kind ≤ power

/-- A simple operand of what is read in a node. -/
theorem Simple.node {kind : SyntaxKind} (hkind : kind ≠ .binaryExpr) {outcome : Outcome PUnit}
    (h : outcome.clean = true → leavesOf outcome.trees ≠ []) : Simple (outcome.node kind) := by
  refine ⟨.node kind outcome.trees, ⟨rfl, rfl, fun hclean => ?_⟩, fun heq => hkind ?_⟩
  · rw [leaves]
    exact h hclean
  · exact Option.some.inj heq

/-- What is an operand by itself stands in expressions. -/
theorem inner_of_isOperandBefore {kind second : TokenKind}
    (h : kind.isOperandBefore second = true) : isInner kind = true ∧ kind ≠ .endOfFile := by
  cases kind with
  | integerLiteral | realLiteral | stringLiteral | register | identifier => exact ⟨rfl, nofun⟩
  | _ => cases h

theorem literal_grown (hstands : Stands clean cursor) (hpeek : cursor.peek.kind ≠ .endOfFile) :
    Grown clean (.node .literalExpr (cursor.nextTokens.map .token)) := by
  refine grown_plain rfl fun hclean => .nameless rfl ?_ (among_tokens _)
  obtain ⟨first, hfirst, hkind⟩ :=
    (cursor.took hstands.ended hpeek).firstSignificant? .literalExpr
  refine ⟨first, hfirst, ?_⟩
  rcases hkind with rfl | hline
  · exact (hstands.fit hclean).readable_peek
  · intro hstring
    rw [hline] at hstring
    cases hstring

/-- What is read by its first token has it, or a line end before it. -/
theorem spelled_grown {kind : SyntaxKind} (hstands : Stands clean cursor)
    (hname : cursor.peek.kind = .identifier ∨ cursor.peek.kind = .register)
    (hkind : kind = .nameExpr ∨ kind = .registerExpr) (hpeek : cursor.peek.kind ≠ .endOfFile) :
    Grown clean (.node kind (cursor.nextTokens.map .token)) := by
  obtain ⟨first, hfirst, hor⟩ := (cursor.took hstands.ended hpeek).firstSignificant? kind
  have hspelled (token : Token)
      (htoken : (SyntaxTree.node kind (cursor.nextTokens.map .token)).firstSignificant? =
        some token) : token.MaySpell := by
    obtain rfl : first = token := Option.some.inj (hfirst.symm.trans htoken)
    rcases hor with rfl | hline
    · exact hname.elim .inl (.inr ∘ .inl)
    · exact .inr (.inr hline)
  have hsome := Option.isSome_of_eq_some hfirst
  rcases hkind with rfl | rfl
  all_goals
    refine ⟨⟨nofun, nofun⟩, nofun, fun _ => hspelled, nofun, ?_⟩
    rintro hclean _ _ ⟨⟩
    exact .nameless rfl hsome (among_tokens _)

section Operands

variable {limit : Nat} {operand operandOther : Nat → Parser PUnit}
variable (hoperand : ∀ power {clean : Bool} {cursor : Cursor}, Stands clean cursor →
  cursor.rest.length < limit →
    Reads inner clean cursor (Binds power) (operand power) (operandOther power))

/-- What is taken in front of other trees. -/
theorem Stands.behind_ne (hstands : Stands clean cursor) (hpeek : cursor.peek.kind ≠ .endOfFile)
    (more : List SyntaxTree) : leavesOf (cursor.nextTokens.map .token ++ more) ≠ [] := by
  rw [leavesOf_append]
  exact List.append_ne_nil_of_left_ne_nil (hstands.nextTokens_ne hpeek) _

/-- The comma behind an entry of a list. -/
theorem comma_reads (hallowed : allowed.takes (.mark .comma) = true) (hstands : Stands clean cursor)
    (trees : List SyntaxTree) :
    Reads allowed clean cursor (fun result => Goes (fun _ => True) id (result.behind trees))
      (accept (.mark .comma)) (accept (.mark .comma)) := by
  refine .accept (by decide) (fun _ => rfl) hallowed (fun hcomma => ⟨fun _ => ?_, nofun⟩)
    fun _ => ⟨nofun, fun _ => trivial⟩
  rw [Outcome.behind, leavesOf_append]
  exact List.append_ne_nil_of_right_ne_nil _
    (hstands.nextTokens_ne (by rw [hcomma]; decide))

/-- A node that is read by its first token. -/
theorem leaf_reads {kind : SyntaxKind} (hstands : Stands clean cursor)
    (hoperand : cursor.peek.kind.isOperandBefore cursor.peekSecond.kind = true)
    (hkind : kind.isExpression = true ∧ kind ≠ .binaryExpr)
    (hgrown : Grown clean (.node kind (cursor.nextTokens.map .token))) :
    Reads inner clean cursor Simple (node kind bump) (node kind bump) := by
  obtain ⟨hinner, hpeek⟩ := inner_of_isOperandBefore hoperand
  exact .leaf hpeek (fun _ => hinner) (fun _ => hkind.1) (fun _ => .inr hoperand) hgrown
    (Simple.node hkind.2 fun _ => hstands.nextTokens_ne hpeek)

include hoperand

theorem call_reads (hstands : Stands clean cursor) (hlimit : cursor.rest.length ≤ limit)
    (hkind : cursor.peek.kind = .identifier) (hsecond : cursor.peekSecond.kind = .mark .leftParen) :
    Reads inner clean cursor Simple (call operand) (call operandOther) := by
  have hpeek : cursor.peek.kind ≠ .endOfFile := by rw [hkind]; decide
  have hless := Cursor.length_behind_lt hstands.ended hpeek
  rw [← Cursor.peek_behind] at hsecond
  refine .node (P := fun outcome => ∃ more,
    outcome.trees = cursor.nextTokens.map .token ++ more) rfl ?_ fun outcome houtcome hreached => ?_
  · refine Reads.bump_bind hpeek (fun _ => by rw [hkind]; exact fun _ => rfl)
      (fun _ => by rw [hkind]; rfl) ?_
    refine .bracketed (P := fun _ => True) (by rw [hsecond]; decide)
      (by rw [hsecond]; exact fun _ => rfl) (by rw [hsecond]; rfl) (fun _ => rfl) (by decide) rfl ?_
      fun outcome _ _ => ⟨_, rfl⟩
    refine Reads.at?_bind (Reads.when (fun _ => ?_) fun _ => trivial)
    refine Reads.many (fun _ => True) hstands.behind.behind.enter fun hbehind => ?_
    have hshorter := hbehind.length_le.trans (Cursor.length_behind_le cursor.behind)
    exact .bind (hoperand 0 hbehind.stands (by omega)) fun outcome _ hreached =>
      comma_reads rfl (hreached.stands hbehind.stands) _
  · obtain ⟨more, hmore⟩ := houtcome
    have hleaves : leavesOf outcome.trees ≠ [] := hmore ▸ hstands.behind_ne hpeek more
    refine ⟨fun _ => rfl, grown_plain rfl fun hclean => .nameless rfl ?_ (hreached.among hclean),
      Simple.node (by decide) fun _ => hleaves⟩
    rw [hmore]
    exact (cursor.took hstands.ended hpeek).callee? hkind _ _

theorem unary_reads (hstands : Stands clean cursor) (hlimit : cursor.rest.length ≤ limit)
    (hpeek : cursor.peek.kind ≠ .endOfFile) (hflat : cursor.peek.kind.IsFlat)
    (hinner : isInner cursor.peek.kind = true) :
    Reads inner clean cursor Simple (node .unaryExpr do bump; operand unaryPower)
      (node .unaryExpr do bump; operandOther unaryPower) := by
  have hless := Cursor.length_behind_lt hstands.ended hpeek
  refine .node (P := fun outcome => ∃ tree : SyntaxTree, tree.isNode = true ∧
    tree.kind? ≠ some .binaryExpr ∧
      outcome.trees = cursor.nextTokens.map .token ++ [tree]) rfl ?_
        fun outcome houtcome hreached => ?_
  · refine Reads.bump_bind hpeek (fun _ => hflat) (fun _ => hinner) ?_
    refine (hoperand unaryPower hstands.behind (by omega)).imp fun outcome hbinds _ => ?_
    obtain ⟨tree, hsingle, hpower⟩ := hbinds.single
    refine ⟨tree, hsingle.isNode, fun hkind => ?_, by rw [Outcome.behind, hsingle.trees_eq]⟩
    have hlow := power_lt_unaryPower tree
    have := hpower hkind
    omega
  · obtain ⟨tree, hnode, hkind, htrees⟩ := houtcome
    have htook := cursor.took hstands.ended hpeek
    have hchildren : (SyntaxTree.node .unaryExpr outcome.trees).childNodes = [tree] := by
      rw [htrees, childNodes_append, htook.childNodes, childNodes_cons hnode]
      rfl
    refine ⟨fun _ => rfl, grown_operation (.inl rfl) ⟨fun hbinary => ?_, fun _ => ?_⟩
      fun hclean => .nameless rfl ⟨?_, by rw [hchildren]; rfl⟩ (hreached.among hclean),
      Simple.node (by decide) fun _ => htrees ▸ hstands.behind_ne hpeek _⟩
    · cases hbinary
    · exact ⟨tree, hchildren, hkind⟩
    · rw [htrees, htook.operator? (isInner_ne hinner).2.1]
      rfl

theorem paren_reads (hstands : Stands clean cursor) (hlimit : cursor.rest.length ≤ limit)
    (hkind : cursor.peek.kind = .mark .leftParen) :
    Reads inner clean cursor Simple
      (node .parenExpr (bracketed (.mark .rightParen) .unclosedParen (operand 0)))
      (node .parenExpr (bracketed (.mark .rightParen) .unclosedParen (operandOther 0))) := by
  have hpeek : cursor.peek.kind ≠ .endOfFile := by rw [hkind]; decide
  have hless := Cursor.length_behind_lt hstands.ended hpeek
  refine .node (P := fun outcome => ∃ tree : SyntaxTree, ∃ tokens : List Token,
    tree.isNode = true ∧
      outcome.trees = cursor.nextTokens.map .token ++ (tree :: tokens.map .token))
    rfl ?_ fun outcome houtcome hreached => ?_
  · refine .bracketed hpeek (by rw [hkind]; exact fun _ => rfl) (by rw [hkind]; rfl) (fun _ => rfl)
      (by decide) rfl (hoperand 0 hstands.behind.enter (by exact Nat.lt_of_lt_of_le hless hlimit))
        fun outcome hbinds _ => ?_
    obtain ⟨tree, hsingle, -⟩ := hbinds.single
    obtain ⟨tokens, htokens⟩ := outcome.exists_closed (.mark .rightParen)
    exact ⟨tree, tokens, hsingle.isNode, by rw [Outcome.behind, htokens, hsingle.trees_eq]; rfl⟩
  · obtain ⟨tree, tokens, hnode, htrees⟩ := houtcome
    refine ⟨fun _ => rfl, grown_plain rfl fun hclean => .nameless rfl ?_ (hreached.among hclean),
      Simple.node (by decide) fun _ => htrees ▸ hstands.behind_ne hpeek _⟩
    have hchildren : (SyntaxTree.node .parenExpr outcome.trees).childNodes = [tree] := by
      rw [htrees, childNodes_append, (cursor.took hstands.ended hpeek).childNodes,
        childNodes_cons hnode, childNodes_tokens]
      rfl
    rw [Shaped, hchildren]
    rfl

theorem primary_reads (hstands : Stands clean cursor) (hlimit : cursor.rest.length ≤ limit) :
    Reads inner clean cursor Simple (primary operand) (primary operandOther) := by
  have hleaf {kind : SyntaxKind} (hkind : kind.isExpression = true ∧ kind ≠ .binaryExpr)
      (hoperand : cursor.peek.kind.isOperandBefore cursor.peekSecond.kind = true)
      (hgrown : cursor.peek.kind ≠ .endOfFile →
        Grown clean (.node kind (cursor.nextTokens.map .token))) :
      Reads inner clean cursor Simple (node kind bump) (node kind bump) :=
    leaf_reads hstands hoperand hkind (hgrown (inner_of_isOperandBefore hoperand).2)
  refine Reads.peekKind_bind ?_
  split
  case h_1 hkind | h_2 hkind | h_3 hkind =>
    exact unary_reads hoperand hstands hlimit (by rw [hkind]; decide)
      (by rw [hkind]; exact fun _ => rfl) (by rw [hkind]; rfl)
  case h_4 hkind | h_5 hkind | h_6 hkind =>
    exact hleaf ⟨rfl, by decide⟩ (by rw [hkind]; rfl) (literal_grown hstands)
  case h_7 hkind =>
    exact hleaf ⟨rfl, by decide⟩ (by rw [hkind]; rfl)
      (spelled_grown hstands (.inr hkind) (.inr rfl))
  case h_8 hkind =>
    refine .peekSecondKind (by rw [hkind]; exact fun _ => rfl) (fun outcome hsimple hclean => ?_) ?_
    · obtain ⟨tree, hsingle, -⟩ := hsimple
      exact hsingle.leavesOf_ne hclean
    · split
      · rename_i hsecond
        exact call_reads hoperand hstands hlimit hkind (by simpa using hsecond)
      · rename_i hsecond
        exact hleaf ⟨rfl, by decide⟩ (by
          rw [hkind]
          exact bne_iff_ne.mpr fun heq => hsecond (beq_iff_eq.mpr heq))
          (spelled_grown hstands (.inl hkind) (.inl rfl))
  case h_9 hkind => exact paren_reads hoperand hstands hlimit hkind
  case h_10 hkind =>
    have hpeek : cursor.peek.kind ≠ .endOfFile := by rw [hkind]; decide
    have hclean : ¬ clean = true := fun hclean => (hstands.fit hclean).sound.kind_peek_ne hkind
    exact .leaf hpeek (absurd · hclean) (absurd · hclean) (absurd · hclean)
      (grown_plain rfl (absurd · hclean)) (Simple.node (by decide) (absurd · hclean))
  case h_11 =>
    refine Reads.report_bind (Reads.bind_eq (.fail rfl) ?_)
    exact .node (P := fun outcome => outcome.clean = false) rfl (.pure rfl)
      fun outcome hclean _ => by
        have hsimple : Simple (outcome.node .error) := Simple.node (by decide) (by simp [hclean])
        rw [hclean]
        exact ⟨nofun, grown_plain rfl nofun, hsimple⟩

end Operands

/-- What an operator and its operands make. -/
theorem operated_climbs {power : Nat} {left right : Outcome PUnit}
    (hstands : Stands left.clean left.cursor) (hleft : Climbs power left)
    (hleftReached : Reached inner clean cursor left)
    (hpower : power < bindingPower left.cursor.peek.kind)
    (hright : Binds (bindingPower left.cursor.peek.kind) right)
    (hrightReached : Reached inner left.clean left.cursor.behind right) :
    (∀ tree ∈ (left.operated right).trees, Grown right.clean tree) ∧
      Climbs power (left.operated right) := by
  have hpositive := Nat.zero_lt_of_lt hpower
  have hpeek := (flat_of_bindingPower hpositive).2
  obtain ⟨hoperator, hinner⟩ := operator_of_bindingPower hpositive
  have htook := left.cursor.took hstands.ended hpeek
  obtain ⟨first, hfirst, hfirstPower⟩ := hleft
  obtain ⟨⟨second, hsecond, hsecondPower⟩, hbefore⟩ := hright
  have htrees : left.trees ++ left.cursor.nextTokens.map .token ++ right.trees =
      first :: (left.cursor.nextTokens.map .token ++ [second]) := by
    rw [hfirst.trees_eq, hsecond.trees_eq]
    rfl
  have hoperated : Naming.operator? (.node .binaryExpr
      (left.trees ++ left.cursor.nextTokens.map .token ++ right.trees)) =
        some left.cursor.peek.kind := by
    rw [htrees]
    exact htook.operator?_behind (isInner_ne hinner).2.1 hfirst.isNode _ _
  have hown : (SyntaxTree.node .binaryExpr
      (left.trees ++ left.cursor.nextTokens.map .token ++ right.trees)).power =
        bindingPower left.cursor.peek.kind := by
    rw [SyntaxTree.power, hoperated]
    rfl
  have hchildren : (SyntaxTree.node .binaryExpr
      (left.trees ++ left.cursor.nextTokens.map .token ++ right.trees)).childNodes =
        [first, second] := by
    rw [htrees]
    exact htook.childNodes_between hfirst.isNode hsecond.isNode _
  refine ⟨List.forall_mem_singleton.mpr (grown_operation (.inr rfl)
    ⟨fun _ => ⟨first, second, hchildren, ?_, ?_, ?_⟩, fun hunary => ?_⟩ fun hclean =>
      .nameless rfl ⟨by rw [hoperated]; exact hoperator, by rw [hchildren]; rfl⟩ ?_),
    _, ⟨rfl, rfl, fun hclean => ?_⟩, fun _ => ?_⟩
  · rwa [hown]
  · rw [hown]
    exact fun hkind => (hfirstPower hkind).2
  · rw [hown]
    exact hsecondPower
  · cases hunary
  · exact ((hleftReached.among (hrightReached.clean_of hclean)).append (among_tokens _)).append
      (hrightReached.among hclean)
  · rw [leaves, leavesOf_append]
    exact List.append_ne_nil_of_right_ne_nil _ (hsecond.leavesOf_ne hclean)
  · rw [hown]
    exact ⟨hpower, hbefore⟩

/-- Expressions nest no deeper than there are tokens. -/
theorem expressionWithin_reads (depth twin power : Nat) (hstands : Stands clean cursor)
    (hdepth : cursor.rest.length < depth) :
    Reads inner clean cursor (Binds power) (expressionWithin depth power)
      (expressionWithin twin power) := by
  induction depth generalizing twin power clean cursor with
  | zero => omega
  | succ depth ih =>
      have hlimit : cursor.rest.length ≤ depth := Nat.le_of_lt_succ hdepth
      have hstep (twin : Nat) : Reads inner clean cursor (Binds power)
          (expressionWithin (depth + 1) power) (expressionWithin (twin + 1) power) := by
        refine .climb (P := Climbs power) (fun kind hkind => (operator_of_bindingPower hkind).2) rfl
          ((primary_reads (fun power _ _ => ih twin power) hstands hlimit).imp
            fun outcome hsimple _ => ?_)
          (fun left hleft hreached hpower => ?_) fun outcome hclimbs _ hstop => ?_
        · obtain ⟨tree, hsingle, hkind⟩ := hsimple
          exact ⟨tree, hsingle, (absurd · hkind)⟩
        · have hends := hreached.stands hstands
          have hless := Cursor.length_behind_lt hends.ended
            (flat_of_bindingPower (Nat.zero_lt_of_lt hpower)).2
          have hshorter := hreached.length_le
          exact (ih twin _ hends.behind (by omega)).imp fun right hright hrightReached =>
            operated_climbs hends hleft hreached hpower hright hrightReached
        · obtain ⟨tree, hsingle, hpower⟩ := hclimbs
          exact ⟨⟨tree, hsingle, fun hkind => (hpower hkind).1⟩, hstop⟩
      cases twin with
      | zero => exact .spent (hstep 0)
      | succ twin => exact hstep twin

/-- A whole expression. -/
def IsExpression (outcome : Outcome PUnit) : Prop := ∃ tree, Single tree outcome

theorem expression_reads (hstands : Stands clean cursor) :
    Reads inner clean cursor IsExpression expression expression :=
  .rounds fun count twin hcount =>
    (expressionWithin_reads count twin 0 hstands hcount).imp fun _ hbinds _ =>
      let ⟨tree, hsingle, _⟩ := hbinds.single
      ⟨tree, hsingle⟩

end Parser

end NovelAsm
