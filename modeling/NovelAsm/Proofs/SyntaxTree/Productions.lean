import NovelAsm.Proofs.SyntaxTree.Yields

/-!
Lines of printed instructions as the parser takes them: lists, tables, flags and expressions as
operands, the mnemonic in front of them, and the item that all of them are.
-/

namespace NovelAsm

namespace SyntaxTree

mutual

/-- A tree of significant tokens without places is its own core. -/
theorem core_of_leaves : ∀ {tree : SyntaxTree},
    (∀ leaf ∈ tree.leaves, leaf.bare = leaf ∧ leaf.isSignificant = true) → tree.core = tree
  | .token leaf, h => by
      simp only [leaves, List.mem_singleton, forall_eq] at h
      rw [core, h.1]
  | .node kind children, h => by
      rw [leaves] at h
      rw [core_node, coreAll_of_leaves h]

theorem coreAll_of_leaves : ∀ {trees : List SyntaxTree},
    (∀ leaf ∈ leavesOf trees, leaf.bare = leaf ∧ leaf.isSignificant = true) →
      coreAll trees = trees
  | [], _ => by rw [coreAll]
  | .token leaf :: rest, h => by
      simp only [leavesOf, leaves, List.singleton_append, List.mem_cons, forall_eq_or_imp] at h
      rw [coreAll, if_pos h.1.2, h.1.1, coreAll_of_leaves h.2]
  | .node kind children :: rest, h => by
      simp only [leavesOf, List.mem_append] at h
      rw [coreAll_node_cons, core_of_leaves fun leaf hleaf => h leaf (.inl hleaf),
        coreAll_of_leaves fun leaf hleaf => h leaf (.inr hleaf)]

end

end SyntaxTree

namespace Parser

open Lexed SyntaxTree

variable {nesting : Nat}

/-- The brackets of a list. -/
def leftBracket : Token := leaf (.mark .leftBracket) (ascii "[")

def rightBracket : Token := leaf (.mark .rightBracket) (ascii "]")

theorem begins_leftBracket (rest : List Token) :
    Begins (.mark .leftBracket) nesting (leftBracket :: rest) :=
  begins_leaf rfl (by decide) _ rest

theorem begins_rightBracket (rest : List Token) :
    Begins (.mark .rightBracket) nesting (rightBracket :: rest) :=
  begins_leaf rfl (by decide) _ rest

/-- Elements of a list, of which there may be none. -/
theorem Yields.elements {step : Parser Bool} {closer : TokenKind} {pieces : List (List Token)}
    {trees : List (List SyntaxTree)} {rest : List Token} (hrest : Begins closer nesting rest)
    (h : List.Forall₂ (Round step closer nesting) pieces trees)
    (hnone : Yields step nesting [] rest [] false) :
    Yields (many step) nesting (commaTokens pieces) rest (commaTrees trees) () := by
  cases h with
  | nil => exact Yields.rounds (Yields.loop_last hnone.repeated _)
  | cons hfirst hothers =>
      exact Yields.many_list (.cons hfirst hothers) (List.cons_ne_nil _ _) hrest

/-- A list between brackets, which may be empty. -/
theorem Yields.arrayLiteral {pieces : List (List Token)} {trees : List SyntaxTree}
    (h : List.Forall₂ Entire pieces trees) (rest : List Token) :
    Yields Parser.arrayLiteral nesting (leftBracket :: (commaTokens pieces ++ [rightBracket])) rest
      [.node .arrayLiteral (.token leftBracket ::
        (commaTrees (trees.map ([·])) ++ [.token rightBracket]))] () := by
  have hround {tokens : List Token} {tree : SyntaxTree} (hentire : Entire tokens tree) :
      Round (listRound expression) (.mark .rightBracket) (nesting + 1) tokens [tree] :=
    round_of_start hentire.starts ⟨rfl, by decide⟩ (by decide) hentire.yields_expression
  have hrounds := List.forall₂_map_right_iff.mpr (h.imp fun _ _ => hround)
  have helements := Yields.elements (begins_rightBracket rest) hrounds
    (Yields.peekKind (begins_rightBracket rest) (Yields.pure _ _))
  exact Yields.node (Yields.bracketed .unclosedList (begins_leftBracket _)
    (begins_rightBracket rest) helements) .arrayLiteral

/-- The braces of a table jump, and the arrow of a case. -/
def leftBrace : Token := leaf (.mark .leftBrace) (ascii "\x7b")

def rightBrace : Token := leaf (.mark .rightBrace) (ascii "\x7d")

def arrow : Token := leaf (.mark .fatArrow) (ascii "=>")

theorem begins_leftBrace (rest : List Token) :
    Begins (.mark .leftBrace) nesting (leftBrace :: rest) :=
  begins_leaf rfl (by decide) _ rest

theorem begins_rightBrace (rest : List Token) :
    Begins (.mark .rightBrace) nesting (rightBrace :: rest) :=
  begins_leaf rfl (by decide) _ rest

theorem begins_arrow (rest : List Token) : Begins (.mark .fatArrow) nesting (arrow :: rest) :=
  begins_leaf rfl (by decide) _ rest

/-- The tokens and the tree of a case. -/
inductive CasePart : List Token → SyntaxTree → Prop
  | intro {front back : List Token} {key destination : SyntaxTree} (hkey : Entire front key)
      (hdestination : Entire back destination) :
      CasePart (front ++ arrow :: back)
        (.node .jumpTableEntry [key, .token arrow, destination])

/-- A case in front of what closes it. -/
theorem CasePart.yields {tokens rest : List Token} {tree : SyntaxTree} (h : CasePart tokens tree)
    {kind : TokenKind} (hrest : Begins kind nesting rest) (hstops : Stops kind) :
    Yields caseEntry nesting tokens rest [tree] () := by
  cases h with
  | @intro front back key destination hkey hdestination =>
      have hback : Yields (when true expression) nesting back rest [destination] () :=
        hdestination.yields_expression hrest hstops
      have harrow : Yields (do when (← expect (.mark .fatArrow) .missingArrow) expression) nesting
          ([arrow] ++ back) rest ([.token arrow] ++ [destination]) () :=
        Yields.bind (Yields.expect .missingArrow (begins_arrow _)) hback
      have hkey : Yields expression nesting front (([arrow] ++ back) ++ rest) [key] () :=
        hkey.yields_expression (begins_arrow _) ⟨rfl, by decide⟩
      exact (Yields.bind hkey harrow).node .jumpTableEntry

theorem CasePart.starts {tokens : List Token} {tree : SyntaxTree} (h : CasePart tokens tree) :
    Starts tokens := by
  obtain ⟨hkey, -⟩ := h
  exact hkey.starts.append _

/-- A table jump between braces, which may be empty. -/
theorem Yields.jumpTable {pieces : List (List Token)} {trees : List SyntaxTree}
    (h : List.Forall₂ CasePart pieces trees) (rest : List Token) :
    Yields Parser.jumpTable nesting (leftBrace :: (commaTokens pieces ++ [rightBrace])) rest
      [.node .jumpTableBlock (.token leftBrace ::
        (commaTrees (trees.map ([·])) ++ [.token rightBrace]))] () := by
  have hround {tokens : List Token} {tree : SyntaxTree} (hcase : CasePart tokens tree) :
      Round (listRound caseEntry) (.mark .rightBrace) (nesting + 1) tokens [tree] :=
    round_of_start hcase.starts ⟨rfl, by decide⟩ (by decide) hcase.yields
  have hrounds := List.forall₂_map_right_iff.mpr (h.imp fun _ _ => hround)
  have helements := Yields.elements (begins_rightBrace rest) hrounds
    (Yields.peekKind (begins_rightBrace rest) (Yields.pure _ _))
  exact Yields.node (Yields.bracketed .unclosedJumpTable (begins_leftBrace _)
    (begins_rightBrace rest) helements) .jumpTableBlock

/-- An operand that is no flag. -/
inductive Positional : List Token → SyntaxTree → Prop
  | expression {tokens : List Token} {tree : SyntaxTree} (h : Entire tokens tree) :
      Positional tokens tree
  | array {pieces : List (List Token)} {trees : List SyntaxTree}
      (h : List.Forall₂ Entire pieces trees) :
      Positional (leftBracket :: (commaTokens pieces ++ [rightBracket]))
        (.node .arrayLiteral (.token leftBracket ::
          (commaTrees (trees.map ([·])) ++ [.token rightBracket])))
  | table {pieces : List (List Token)} {trees : List SyntaxTree}
      (h : List.Forall₂ CasePart pieces trees) :
      Positional (leftBrace :: (commaTokens pieces ++ [rightBrace]))
        (.node .jumpTableBlock (.token leftBrace ::
          (commaTrees (trees.map ([·])) ++ [.token rightBrace])))

/-- The tokens behind an operand of an instruction. -/
def EndsOperand (kind : TokenKind) : Prop := kind = .mark .comma ∨ kind = .newline

theorem EndsOperand.stops {kind : TokenKind} (h : EndsOperand kind) : Stops kind := by
  rcases h with rfl | rfl
  · exact stops_comma
  · exact ⟨rfl, by decide⟩

theorem Positional.yields {tokens rest : List Token} {tree : SyntaxTree}
    (h : Positional tokens tree) {kind : TokenKind} (hrest : Begins kind nesting rest)
    (hends : EndsOperand kind) : Yields positional nesting tokens rest [tree] () := by
  cases h with
  | expression h =>
      obtain ⟨first, hstart, hfirst⟩ := @Starts.begins nesting _ (h.starts.append rest)
      refine Yields.peekKind hfirst ?_
      split
      · cases hstart
      · cases hstart
      · exact h.yields_expression hrest hends.stops
  | array h => exact Yields.peekKind (begins_leftBracket _) (Yields.arrayLiteral h rest)
  | table h => exact Yields.peekKind (begins_leftBrace _) (Yields.jumpTable h rest)

/-- A token that is no flag. -/
theorem Yields.atFlag_false {first : Token} {more : List Token}
    (hlead : Begins first.kind nesting (first :: more))
    (hflag : first.kind = .identifier → Flag.ofText? first.text = none) :
    Yields Parser.atFlag nesting [] (first :: more) [] false := by
  refine Yields.see (fun cursor => isFlag cursor) (fun _ => rfl) fun finish => ?_
  rw [isFlag, peek_of_begins hlead]
  by_cases hname : first.kind = .identifier
  · simp [hflag hname]
  · simp [hname]

/-- The name of a flag in front of what ends an operand. -/
theorem Yields.atFlag_true {text : Bytes} {rest : List Token} {kind : TokenKind}
    (hflag : (Flag.ofText? text).isSome = true) (hrest : Begins kind nesting rest)
    (hends : EndsOperand kind) :
    Yields Parser.atFlag nesting [] (leaf .identifier text :: rest) [] true := by
  have hlead : Begins .identifier nesting (leaf .identifier text :: rest) :=
    begins_leaf rfl (by decide) text rest
  have hkind : (kind == .mark .comma || isLineEnd kind) = true := by
    rcases hends with rfl | rfl <;> rfl
  refine Yields.see (fun cursor => isFlag cursor) (fun _ => rfl) fun finish => ?_
  rw [isFlag, peekSecond_of_begins hlead, peek_of_begins hlead,
    kind_peek_of_begins hrest, hkind]
  simpa [leaf] using hflag

/-- Whether a token behind a mnemonic is no operand. -/
def endsMnemonic (kind : TokenKind) : Bool :=
  isLineEnd kind || isItemKeyword kind || kind == .mark .colon

theorem endsMnemonic_of_starts {kind : TokenKind} (h : startsExpression kind = true) :
    endsMnemonic kind = false := by
  cases kind with
  | mark mark => cases mark <;> first | rfl | cases h
  | _ => first | rfl | cases h

/-- An operand of an instruction: the name of a flag, or something else. -/
structure OperandPart (isFlag : Bool) (tokens : List Token) (tree : SyntaxTree) : Prop where
  opens : ∀ rest, ∃ kind, Begins kind 0 (tokens ++ rest) ∧ endsMnemonic kind = false
  noted : ∀ {kind : TokenKind} {rest : List Token}, Begins kind 0 rest → EndsOperand kind →
    Yields atFlag 0 [] (tokens ++ rest) [] isFlag
  parses : ∀ {kind : TokenKind} {rest : List Token}, Begins kind 0 rest → EndsOperand kind →
    Yields (if isFlag then node .flag bump else positional) 0 tokens rest [tree] ()

theorem Positional.part {tokens : List Token} {tree : SyntaxTree} (h : Positional tokens tree) :
    OperandPart false tokens tree where
  opens rest := by
    cases h with
    | expression h =>
        obtain ⟨kind, hstart, hlead⟩ := @Starts.begins 0 _ (h.starts.append rest)
        exact ⟨kind, hlead, endsMnemonic_of_starts hstart⟩
    | array h => exact ⟨_, begins_leftBracket _, rfl⟩
    | table h => exact ⟨_, begins_leftBrace _, rfl⟩
  noted {kind} {rest} _ _ := by
    cases h with
    | expression h =>
        obtain ⟨first, more, rfl, hstart, hflag⟩ := h.starts
        obtain ⟨kind, hkind, hlead⟩ := @Starts.begins 0 _ (h.starts.append rest)
        obtain ⟨_, _, hcons, rfl, hvisible⟩ := id hlead
        obtain ⟨rfl, rfl⟩ := List.cons.inj hcons
        exact Yields.atFlag_false hlead hflag
    | array h =>
        exact Yields.atFlag_false (begins_leftBracket _) (by rintro ⟨⟩)
    | table h =>
        exact Yields.atFlag_false (begins_leftBrace _) (by rintro ⟨⟩)
  parses hrest hends := h.yields hrest hends

theorem flag_part {text : Bytes} (hflag : (Flag.ofText? text).isSome = true) :
    OperandPart true [leaf .identifier text] (.node .flag [.token (leaf .identifier text)]) where
  opens rest := ⟨.identifier, begins_leaf rfl (by decide) text rest, rfl⟩
  noted hrest hends := Yields.atFlag_true hflag hrest hends
  parses _ _ := (Yields.bump (begins_leaf rfl (by decide) text _)).node .flag

/-- An operand in front of the comma behind it, or of the end of the line. -/
theorem Yields.operand {isFlag behindFlag : Bool} {tokens rest : List Token} {tree : SyntaxTree}
    (h : OperandPart isFlag tokens tree) (horder : behindFlag ≤ isFlag) {kind : TokenKind}
    (hrest : Begins kind 0 rest) (hends : EndsOperand kind) :
    Yields (Parser.operand behindFlag) 0 tokens rest [tree] isFlag := by
  have hparses := h.parses hrest hends
  cases isFlag with
  | true =>
      have hflag : Yields Parser.flag 0 tokens rest [tree] true :=
        (h.noted hrest hends).bind (hparses.follow (Yields.pure rest true))
      exact hflag.follow (Yields.pure rest true)
  | false =>
      obtain rfl : behindFlag = false := by
        cases behindFlag with
        | false => rfl
        | true => cases horder rfl
      have hnone : Yields Parser.flag 0 [] (tokens ++ rest) [] false := by
        refine Yields.follow (h.noted hrest hends) ?_
        exact Yields.pure (tokens ++ rest) false
      have hquiet : Yields (when false (report .operandBehindFlag)) 0 [] (tokens ++ rest) [] () :=
        Yields.pure (tokens ++ rest) ()
      have hpositional : Yields (do
          when false (report .operandBehindFlag)
          positional
          return false) 0 ([] ++ tokens) rest ([] ++ [tree]) false :=
        Yields.bind hquiet (Yields.follow hparses (Yields.pure rest false))
      exact Yields.bind hnone hpositional

/-- An operand of an instruction with its tokens, and whether it is a flag. -/
structure WrittenOperand where
  isFlag : Bool
  tokens : List Token
  tree : SyntaxTree

def WrittenOperand.Parses (operand : WrittenOperand) : Prop :=
  OperandPart operand.isFlag operand.tokens operand.tree

/-- A round of the loop over operands; what it hands on is whether a flag was seen. -/
def operandRound (behindFlag : Bool) : Parser (Option Bool) := do
  let seen ← operand behindFlag
  return if ← accept (.mark .comma) then some seen else none

/-- The operands of an instruction, flags behind the others. -/
theorem Yields.operands {written : List WrittenOperand} (h : ∀ operand ∈ written, operand.Parses)
    (hne : written ≠ []) {behindFlag : Bool}
    (horder : (behindFlag :: written.map WrittenOperand.isFlag).Pairwise (· ≤ ·)) {count : Nat}
    (hcount : written.length ≤ count) {rest : List Token} (hrest : Begins .newline 0 rest) :
    Yields (loop operandRound count behindFlag) 0
      (commaTokens (written.map WrittenOperand.tokens)) rest
      (commaTrees (written.map fun operand => [operand.tree])) () := by
  induction written generalizing behindFlag count with
  | nil => exact absurd rfl hne
  | cons first others ih =>
      obtain ⟨count, rfl⟩ := Nat.exists_eq_succ_of_ne_zero (Nat.ne_of_gt (Nat.zero_lt_of_lt hcount))
      have hfirst := h first (List.mem_cons_self ..)
      rw [List.map_cons, List.pairwise_cons] at horder
      have hflag : behindFlag ≤ first.isFlag := horder.1 _ (List.mem_cons_self ..)
      cases others with
      | nil =>
          have hround : Yields (operandRound behindFlag) 0 first.tokens rest [first.tree] none :=
            (Yields.operand hfirst hflag hrest (.inr rfl)).follow
              ((Yields.pass hrest (by decide)).follow (Yields.pure rest _))
          simpa [commaTokens, commaTrees, List.intercalate] using Yields.loop_last hround count
      | cons second others =>
          have hothers := ih (fun operand hmem => h operand (List.mem_cons_of_mem _ hmem))
            (List.cons_ne_nil _ _) horder.2 (Nat.le_of_succ_le_succ hcount)
          have hround (more : List Token) : Yields (operandRound behindFlag) 0
              (first.tokens ++ [commaToken]) more ([first.tree] ++ [.token commaToken])
              (some first.isFlag) :=
            (Yields.operand hfirst hflag (begins_comma more) (.inl rfl)).bind
              ((@Yields.accept 0 commaToken more (begins_comma more)).follow (Yields.pure more _))
          rw [List.map_cons, List.map_cons, commaTokens_cons_cons, List.map_cons, List.map_cons,
            commaTrees_cons_cons, List.append_cons]
          exact Yields.loop_more (hround _) hothers

/-- The end of a line, which stays where it is. -/
theorem Yields.lineEnd {rest : List Token} (hrest : Begins .newline 0 rest) :
    Yields Parser.lineEnd 0 [] rest [] () := by
  have hfailed : Yields takeFailed 0 [] rest [] false := by
    intro state finish hstate
    refine ends_quiet ?_
    change some (state.cursor.operandFailed, { state with cursor := state.cursor.mark false }) = _
    rw [hstate]
    rfl
  have hend : Yields atLineEnd 0 [] rest [] true :=
    Yields.peekKind hrest (Yields.pure rest true)
  refine Yields.follow hfailed (Yields.follow hend ?_)
  exact Yields.pure rest ()

/-- What failed in the line before is forgotten. -/
theorem Yields.reset {step : Parser PUnit} {taken rest : List Token} {trees : List SyntaxTree}
    (h : Yields step nesting taken rest trees ()) :
    Yields (do move (.mark · false); step) nesting taken rest trees () := fun state finish hstate =>
  h { state with cursor := state.cursor.mark false } finish (by rw [hstate]; rfl)

/-- The line of an instruction without operands. -/
theorem Yields.bare_instruction {mnemonic : Token}
    (hmnemonic : mnemonic.kind.isTrivia = false ∧ mnemonic.kind ≠ .newline) {rest : List Token}
    (hrest : Begins .newline 0 rest) :
    Yields Parser.instruction 0 [mnemonic] rest [.node .instruction [.token mnemonic]] () := by
  have hbump := Yields.bump (@begins_cons 0 mnemonic hmnemonic.1 hmnemonic.2 rest)
  have hnone : Yields (when (!(isLineEnd .newline || isItemKeyword .newline)) argumentList)
      0 [] rest [] () := Yields.pure rest ()
  exact Yields.reset (Yields.node (hbump.follow (Yields.peekKind hrest
    (hnone.follow (Yields.lineEnd hrest)))) .instruction)

/-- The line of an instruction with operands. -/
theorem Yields.instruction {mnemonic : Token} {written : List WrittenOperand}
    (hmnemonic : mnemonic.kind.isTrivia = false ∧ mnemonic.kind ≠ .newline)
    (h : ∀ operand ∈ written, operand.Parses) (hne : written ≠ [])
    (horder : (written.map WrittenOperand.isFlag).Pairwise (· ≤ ·)) {rest : List Token}
    {kind : TokenKind}
    (hkind : Begins kind 0 (commaTokens (written.map WrittenOperand.tokens) ++ rest))
    (hopens : endsMnemonic kind = false) (hrest : Begins .newline 0 rest) :
    Yields Parser.instruction 0
      (mnemonic :: commaTokens (written.map WrittenOperand.tokens)) rest
      [.node .instruction [.token mnemonic,
        .node .argumentList (commaTrees (written.map fun operand => [operand.tree]))]] () := by
  have hbump := Yields.bump (@begins_cons 0 mnemonic hmnemonic.1 hmnemonic.2
    (commaTokens (written.map WrittenOperand.tokens) ++ rest))
  have hcount : written.length ≤
      (commaTokens (written.map WrittenOperand.tokens) ++ rest).length + 1 := by
    have hle := length_le_commaTokens (written.map WrittenOperand.tokens)
    rw [List.length_map] at hle
    rw [List.length_append]
    omega
  have hflags : (false :: written.map WrittenOperand.isFlag).Pairwise (· ≤ ·) :=
    List.pairwise_cons.mpr ⟨fun flag _ => Bool.false_le flag, horder⟩
  have hoperands : Yields argumentList 0 (commaTokens (written.map WrittenOperand.tokens)) rest
      [.node .argumentList (commaTrees (written.map fun operand => [operand.tree]))] () :=
    Yields.node (Yields.rounds (Yields.operands h hne hflags hcount hrest)) .argumentList
  have hline : (isLineEnd kind || isItemKeyword kind) = false := (Bool.or_eq_false_iff.mp hopens).1
  have hwhen : Yields (when (!(isLineEnd kind || isItemKeyword kind)) argumentList) 0
      (commaTokens (written.map WrittenOperand.tokens)) rest
      [.node .argumentList (commaTrees (written.map fun operand => [operand.tree]))] () := by
    rw [hline]
    exact hoperands
  exact Yields.reset (Yields.node (hbump.bind (Yields.peekKind hkind
    (hwhen.follow (Yields.lineEnd hrest)))) .instruction)

theorem begins_operands {written : List WrittenOperand} (h : ∀ operand ∈ written, operand.Parses)
    (hne : written ≠ []) (rest : List Token) : ∃ kind,
    Begins kind 0 (commaTokens (written.map WrittenOperand.tokens) ++ rest) ∧
      endsMnemonic kind = false := by
  obtain ⟨first, others, rfl⟩ := List.exists_cons_of_ne_nil hne
  have hfirst := (h first (List.mem_cons_self ..)).opens
  cases others with
  | nil => simpa [commaTokens, List.intercalate] using hfirst rest
  | cons second others =>
      rw [List.map_cons, List.map_cons, commaTokens_cons_cons, List.append_assoc]
      exact hfirst _

/-- The words that a line of an instruction begins with. -/
def IsMnemonic (kind : TokenKind) : Prop :=
  kind = .identifier ∨ kind = .keyword .modulo ∨ kind = .keyword .division

theorem IsMnemonic.visible {kind : TokenKind} (h : IsMnemonic kind) :
    kind.isTrivia = false ∧ kind ≠ .newline := by
  rcases h with rfl | rfl | rfl <;> exact ⟨rfl, by decide⟩

/-- A line with a mnemonic is an instruction, unless that is followed by a colon. -/
theorem Yields.line {mnemonic : Token} {tokens rest : List Token} {tree : SyntaxTree}
    (hmnemonic : IsMnemonic mnemonic.kind) {kind : TokenKind}
    (hkind : Begins kind 0 (tokens ++ rest)) (hcolon : kind ≠ .mark .colon)
    (h : Yields Parser.instruction 0 (mnemonic :: tokens) rest [tree] ()) :
    Yields Parser.item 0 (mnemonic :: tokens) rest [tree] () := by
  have hlead := @begins_cons 0 mnemonic hmnemonic.visible.1 hmnemonic.visible.2 (tokens ++ rest)
  refine Yields.peekKind hlead ?_
  rcases hmnemonic with hname | hword | hword
  · rw [hname]
    refine Yields.peekSecondKind rfl hlead hkind ?_
    rw [if_neg (by simpa using hcolon)]
    exact h
  · rw [hword]
    exact h
  · rw [hword]
    exact h

theorem Proper.significant {tokens : List Token} (h : Proper tokens) :
    ∀ token ∈ tokens, token.bare = token ∧ token.isSignificant = true := fun token htoken => by
  obtain ⟨hbare, htrivia, hend, -⟩ := h token htoken
  exact ⟨hbare, by simp [Token.isSignificant, htrivia, hend]⟩

/-- An item that the parser takes from tokens that are in order. Its leaves are these tokens. -/
theorem Yields.takesItem {taken rest : List Token} {tree : SyntaxTree}
    (h : Yields Parser.item 0 taken rest [tree] ()) (hproper : Proper (taken ++ rest))
    {first : Token} {more : List Token} (htaken : taken = first :: more) :
    TakesItem taken rest tree := by
  subst htaken
  have hends := h (alone (first :: more ++ rest)) Cursor.endToken rfl
  have hout : Outside true (alone (first :: more ++ rest)).cursor :=
    ⟨⟨hproper.before.sound.ended, fun _ => hproper.fit⟩, rfl⟩
  obtain ⟨result, said, hrun, -⟩ :=
    (item_reads hout (kind_ne_of_before hproper.before)).runs hout.toStands rfl
  obtain ⟨-, hcursor, htrees, -⟩ := hends.unique hrun.ends
  have hleaves : leavesOf [tree] = first :: more := by
    have hrest := hrun.reached.rest_eq
    rw [← htrees, ← hcursor] at hrest
    exact (List.append_cancel_right hrest).symm
  obtain ⟨other, twin, hview, hcore, hitem, -⟩ := item_takes hproper.before hproper.fit hends
  have hbehind : Cursor.view ⟨rest, Cursor.endToken, 0, false⟩ = rest :=
    hproper.of_append_right.before.view_eq
  change first :: more ++ rest = other ++ Cursor.view ⟨rest, Cursor.endToken, 0, false⟩ at hview
  change TakesItem other (Cursor.view ⟨rest, Cursor.endToken, 0, false⟩) twin at hitem
  rw [hbehind] at hview hitem
  have hsame : coreAll [tree] = [tree] :=
    coreAll_of_leaves (hleaves ▸ hproper.of_append_left.significant)
  obtain rfl : tree = twin := List.singleton_inj.mp (hsame.symm.trans hcore)
  rwa [List.append_cancel_right hview]

end Parser

end NovelAsm
