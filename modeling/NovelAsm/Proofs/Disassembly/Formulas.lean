import NovelAsm.Proofs.Code.Codec
import NovelAsm.Proofs.SyntaxTree.Yields

/-!
Terms as formulas. A list of terms that leaves one value is the postfix form of one formula, and
the expression that is printed for the terms is that of the formula: its tokens are those of a
tree with the shape of the formula.
-/

namespace NovelAsm

open Lexed NovelAsm.Parser

/-- The tokens of an integer in decimal. -/
def numeralTokens : Int → List Token
  | .ofNat n => [leaf .integerLiteral (decimal n)]
  | .negSucc n => [leaf (.mark .minus) (ascii "-"), leaf .integerLiteral (decimal (n + 1))]

/-- The tree of an integer in decimal. -/
def numeralTree : Int → SyntaxTree
  | .ofNat n => .node .literalExpr [.token (leaf .integerLiteral (decimal n))]
  | .negSucc n => .node .unaryExpr [.token (leaf (.mark .minus) (ascii "-")),
      .node .literalExpr [.token (leaf .integerLiteral (decimal (n + 1)))]]

theorem minus_prefixes : Prefixes (ascii "-") (.mark .minus) where
  heads := heads_cons (by decide) _
  cuts := cuts_mark rfl rfl (fun _ => rfl) _

theorem prints_signedDecimal (value : Int) :
    Prints (signedDecimal value) (numeralTokens value) := by
  cases value with
  | ofNat n => exact prints_decimal n
  | negSucc n => exact minus_prefixes.prints (prints_decimal (n + 1))

theorem primary_numeral (value : Int) : Primary (numeralTokens value) (numeralTree value) := by
  cases value with
  | ofNat n => exact primary_literal _ (.inl rfl)
  | negSucc n => exact primary_signed (.inl rfl) _ (primary_literal _ (.inl rfl))

namespace Number

def tokens : Number → List Token
  | .constant value => numeralTokens value.toInt
  | .register source => [leaf .register source.name]

def tree : Number → SyntaxTree
  | .constant value => numeralTree value.toInt
  | .register source => .node .registerExpr [.token (leaf .register source.name)]

theorem prints (value : Number) : Prints value.text value.tokens := by
  cases value with
  | constant value => exact prints_signedDecimal value.toInt
  | register source => exact prints_register source

theorem primary (value : Number) : Primary value.tokens value.tree := by
  cases value with
  | constant value => exact primary_numeral value.toInt
  | register source => exact primary_register source.name

end Number

namespace Operator

/-- The kind of the token that an operator is written with. -/
def tokenKind : Operator → TokenKind
  | .add => .mark .plus
  | .subtract | .negate => .mark .minus
  | .multiply => .mark .asterisk
  | .divide => .keyword .division
  | .modulo => .keyword .modulo
  | .shiftLeft => .mark .shiftLeft
  | .shiftRight => .mark .shiftRight
  | .bitAnd => .mark .ampersand
  | .bitOr => .mark .pipe
  | .bitXor => .mark .caret
  | .bitNot => .mark .tilde
  | .equal => .mark .doubleEquals
  | .notEqual => .mark .bangEquals
  | .greaterEqual => .mark .greaterEquals
  | .greater => .mark .greaterThan
  | .lessEqual => .mark .lessEquals
  | .less => .mark .lessThan
  | .isZero => .mark .bang
  | .logicalAnd => .mark .doubleAmpersand
  | .logicalOr => .mark .doublePipe
  | .multiplyReal => .mark .dotAsterisk
  | .divideReal => .mark .dotSlash
  | .abs | .isNonzero | .select | .sin | .cos | .tan | .min | .max => .identifier

/-- A byte that only a mark begins with. -/
def opensMark (b : UInt8) : Bool :=
  isInk b && !Byte.isNameStart b && !Byte.isDigit b &&
    !([byte '\n', byte '"', byte '$', byte '\\', byte '/'].contains b)

/-- Whether a text is a mark that is no part of another one in front of what ends a name. -/
def isMark (kind : TokenKind) : Bytes → Bool
  | [] => false
  | first :: rest =>
      !kind.isTrivia && opensMark first && stops.all fun stop =>
        Lexeme.punctuation? (Char.ofNat first.toNat)
          ((rest ++ [stop]).head?.map (Char.ofNat ·.toNat)) == some (Lexeme.clean kind rest.length)

theorem separates_mark {text : Bytes} {kind : TokenKind} (h : isMark kind text = true) :
    Separates text kind := by
  cases text with
  | nil => cases h
  | cons first rest =>
      simp only [isMark, opensMark, Bool.and_eq_true, Bool.not_eq_true', List.contains_eq_mem,
        decide_eq_false_iff_not, List.mem_cons, List.not_mem_nil, or_false, not_or,
        List.all_eq_true, beq_iff_eq] at h
      obtain ⟨⟨hkind, ⟨⟨hink, hname⟩, hdigit⟩, hline, hquote, hdollar, hback, hslash⟩, hmark⟩ := h
      refine ⟨heads_cons hink rest, cuts_of_scan hkind ?_⟩
      rintro _ ⟨stop, behind, rfl, hstop⟩
      have hblank := ink_endsBlanks (heads_cons hink (rest ++ stop :: behind))
      have hhead : (rest ++ stop :: behind).head? = (rest ++ [stop]).head? := by cases rest <;> rfl
      have hreturn : first ≠ byte '\r' := by rintro rfl; exact absurd hink (by decide)
      rw [Lexeme.scan, hblank]
      simp only [bne_self_eq_false, Bool.false_eq_true, if_false, beq_iff_eq, hline, hreturn, hname,
        hdigit, hquote, hdollar, hback, hslash, hhead,
        hmark stop (List.contains_iff_mem.mp hstop)]

/-- An operator between two operands is a mark or word of its own, which binds. -/
theorem between_separates {operator : Operator} {spelling : String}
    (h : operator.fixity = .between spelling) :
    Separates (ascii spelling) operator.tokenKind ∧ 0 < bindingPower operator.tokenKind := by
  have hword {first : UInt8} {more : Bytes} (hfirst : Byte.isNameStart first = true)
      (hmore : ∀ b ∈ more, Byte.isNamePart b = true) :
      Separates (first :: more) (wordKind (first :: more)) :=
    ⟨heads_cons (ink_of_solid (solid_of_namePart (Byte.isNamePart_iff.mpr (.inl hfirst)))) more,
      cuts_word hfirst hmore⟩
  cases operator with
  | divide =>
      cases h
      exact ⟨@hword (byte 'd') (ascii "iv") (by decide) (List.all_eq_true.mp rfl), by decide⟩
  | modulo =>
      cases h
      exact ⟨@hword (byte 'm') (ascii "od") (by decide) (List.all_eq_true.mp rfl), by decide⟩
  | negate | bitNot | isZero | abs | isNonzero | sin | cos | tan | min | max | select => cases h
  | _ =>
      cases h
      exact ⟨separates_mark rfl, by decide⟩

/-- An exclamation mark stands alone, but for an equals sign behind it. -/
theorem punctuation?_bang {next : UInt8} (h : next ≠ byte '=') :
    Lexeme.punctuation? '!' (some (Char.ofNat next.toNat)) =
      some (Lexeme.clean (.mark .bang) 0) := by
  have hne : Char.ofNat next.toNat ≠ '=' := fun heq => h (Byte.eq_byte_of_ofNat heq)
  generalize Char.ofNat next.toNat = second at hne
  unfold Lexeme.punctuation?
  split <;> simp_all

/-- An operator in front of its operand is a sign. -/
theorem before_prefixes {operator : Operator} {spelling : String}
    (h : operator.fixity = .before spelling) :
    Prefixes (ascii spelling) operator.tokenKind ∧ IsSign operator.tokenKind := by
  cases operator with
  | negate =>
      cases h
      exact ⟨minus_prefixes, .inl rfl⟩
  | bitNot =>
      cases h
      exact ⟨⟨heads_cons (by decide) _, cuts_mark rfl rfl (fun _ => rfl) _⟩, .inr (.inl rfl)⟩
  | isZero =>
      cases h
      refine ⟨⟨heads_cons (by decide) _, @cuts_of_scan _ (byte '!') [] _ rfl ?_⟩, .inr (.inr rfl)⟩
      rintro _ ⟨next, behind, rfl, hnext⟩
      have hequals : next ≠ byte '=' := Byte.ne_of_test hnext (by decide)
      have hscan : Lexeme.scan (byte '!') (next :: behind) = Lexeme.mark (byte '!')
          (next :: behind) :=
        rfl
      have hmark : Lexeme.punctuation? (Char.ofNat (byte '!').toNat)
          ((next :: behind).head?.map (Char.ofNat ·.toNat)) =
            some (Lexeme.clean (.mark .bang) 0) := punctuation?_bang hequals
      rw [List.nil_append, hscan, Lexeme.mark, hmark]
      rfl
  | _ => cases h

/-- An operator that is called has the name of a function, which is no flag. -/
theorem call_prints {operator : Operator} {name : String} (h : operator.fixity = .call name) :
    Prints (ascii name) [leaf .identifier (ascii name)] ∧ Flag.ofText? (ascii name) = none := by
  have hname {first : UInt8} {more : Bytes} (hfirst : Byte.isNameStart first = true)
      (hmore : ∀ b ∈ more, Byte.isNamePart b = true)
      (hkind : wordKind (first :: more) = .identifier) :
      Prints (first :: more) [leaf .identifier (first :: more)] :=
    hkind ▸ prints_word hfirst hmore
  cases operator with
  | abs | isNonzero | sin | cos | tan | min | max | select =>
      cases h
      exact ⟨hname (by decide) (List.all_eq_true.mp rfl) (by decide), by decide⟩
  | _ => cases h

theorem fixity_of_arity_one {operator : Operator} (h : operator.arity = 1) :
    (∃ name, operator.fixity = .call name) ∨ ∃ spelling, operator.fixity = .before spelling := by
  cases operator with
  | abs | isNonzero | sin | cos | tan => exact .inl ⟨_, rfl⟩
  | negate | bitNot | isZero => exact .inr ⟨_, rfl⟩
  | _ => cases h

theorem fixity_of_arity_two {operator : Operator} (h : operator.arity = 2) :
    (∃ name, operator.fixity = .call name) ∨ ∃ spelling, operator.fixity = .between spelling := by
  cases operator with
  | negate | bitNot | isZero | abs | isNonzero | sin | cos | tan | select => cases h
  | min | max => exact .inl ⟨_, rfl⟩
  | _ => exact .inr ⟨_, rfl⟩

end Operator

/-- What terms compute: a number, or an operator with as many operands as it takes. -/
inductive Formula where
  | number (value : Number)
  | unary (operator : Operator) (arity : operator.arity = 1) (operand : Formula)
  | binary (operator : Operator) (arity : operator.arity = 2) (left right : Formula)
  | select (whenFalse whenTrue condition : Formula)

namespace Formula

/-- The terms that compute a formula. -/
def terms : Formula → List Term
  | .number value => [.push value]
  | .unary operator _ operand => operand.terms ++ [.apply operator]
  | .binary operator _ left right => left.terms ++ right.terms ++ [.apply operator]
  | .select whenFalse whenTrue condition =>
      whenFalse.terms ++ whenTrue.terms ++ condition.terms ++ [.apply .select]

/-- How a formula is printed. -/
def fragment : Formula → Fragment
  | .number value => ⟨value.text, false⟩
  | .unary operator _ operand => .ofOperator operator [operand.fragment]
  | .binary operator _ left right => .ofOperator operator [left.fragment, right.fragment]
  | .select whenFalse whenTrue condition =>
      .ofOperator .select [whenFalse.fragment, whenTrue.fragment, condition.fragment]

/-- Terms that leave one value above others compute a formula, behind formulas that compute
these. -/
theorem exists_of_heightAfter? {terms : List Term} {stack : List Formula}
    (h : Term.heightAfter? stack.length terms = some 1) :
    ∃ formula : Formula, formula.terms = stack.reverse.flatMap Formula.terms ++ terms := by
  induction terms generalizing stack with
  | nil =>
      obtain ⟨formula, rfl⟩ := List.length_eq_one_iff.mp (Option.some.inj h)
      exact ⟨formula, by simp⟩
  | cons first rest ih =>
      cases first with
      | push value =>
          obtain ⟨formula, hformula⟩ := @ih (.number value :: stack) h
          exact ⟨formula, by simp [hformula, Formula.terms]⟩
      | apply operator =>
          simp only [Term.heightAfter?] at h
          split at h
          · cases h
          · rename_i hheight
            have hfound (top : Formula) (below : List Formula)
                (hlength : below.length = stack.length - operator.arity)
                (hstack : stack.reverse.flatMap Formula.terms ++ [.apply operator] =
                  below.reverse.flatMap Formula.terms ++ top.terms) :
                ∃ formula : Formula, formula.terms =
                  stack.reverse.flatMap Formula.terms ++ .apply operator :: rest := by
              obtain ⟨formula, hformula⟩ := @ih (top :: below) (by simpa [hlength] using h)
              refine ⟨formula, ?_⟩
              rw [hformula, List.append_cons, hstack]
              simp
            have harity : operator.arity = 1 ∨ operator.arity = 2 ∨ operator = .select := by
              cases operator <;> simp [Operator.arity]
            rcases harity with harity | harity | rfl
            · obtain ⟨a, below, rfl⟩ : ∃ a below, stack = a :: below := by
                cases stack with
                | nil => simp [harity] at hheight
                | cons a below => exact ⟨a, below, rfl⟩
              exact hfound (.unary operator harity a) below (by simp [harity])
                (by simp [Formula.terms])
            · obtain ⟨b, a, below, rfl⟩ : ∃ b a below, stack = b :: a :: below := by
                rcases stack with _ | ⟨b, _ | ⟨a, below⟩⟩
                · simp [harity] at hheight
                · simp [harity] at hheight
                · exact ⟨b, a, below, rfl⟩
              exact hfound (.binary operator harity a b) below (by simp [harity])
                (by simp [Formula.terms])
            · obtain ⟨c, b, a, below, rfl⟩ : ∃ c b a below, stack = c :: b :: a :: below := by
                rcases stack with _ | ⟨c, _ | ⟨b, _ | ⟨a, below⟩⟩⟩
                · simp [Operator.arity] at hheight
                · simp [Operator.arity] at hheight
                · simp [Operator.arity] at hheight
                · exact ⟨c, b, a, below, rfl⟩
              exact hfound (.select a b c) below (by simp [Operator.arity])
                (by simp [Formula.terms])

theorem exists_terms {terms : List Term} (h : Term.heightAfter? 0 terms = some 1) :
    ∃ formula : Formula, formula.terms = terms :=
  @exists_of_heightAfter? terms [] h

theorem render?_apply {operator : Operator} {operands : List Fragment}
    (harity : operator.arity = operands.length) (below : List Fragment) (rest : List Term) :
    Term.render? (operands.reverse ++ below) (.apply operator :: rest) =
      Term.render? (.ofOperator operator operands :: below) rest := by
  rw [Term.render?, if_neg (by simp [harity]), harity, ← List.length_reverse, List.take_left,
    List.drop_left, List.reverse_reverse]

/-- Terms that compute a formula leave its text on the stack. -/
theorem render?_terms (formula : Formula) (stack : List Fragment) (rest : List Term) :
    Term.render? stack (formula.terms ++ rest) = Term.render? (formula.fragment :: stack) rest := by
  induction formula generalizing stack rest with
  | number value => rfl
  | unary operator arity operand ih =>
      rw [terms, List.append_assoc, ih]
      exact @render?_apply operator [operand.fragment] arity stack rest
  | binary operator arity left right ihLeft ihRight =>
      rw [terms, List.append_assoc, List.append_assoc, ihLeft, ihRight]
      exact @render?_apply operator [left.fragment, right.fragment] arity stack rest
  | select whenFalse whenTrue condition ihFalse ihTrue ihCondition =>
      rw [terms, List.append_assoc, List.append_assoc, List.append_assoc, ihFalse, ihTrue,
        ihCondition]
      exact @render?_apply .select [whenFalse.fragment, whenTrue.fragment, condition.fragment] rfl
        stack rest

theorem expression?_terms (formula : Formula) :
    Term.expression? formula.terms = some formula.fragment.text := by
  have hrender := formula.render?_terms [] []
  rw [List.append_nil] at hrender
  rw [Term.expression?, hrender]
  rfl

/-- Tokens of an operand, in parentheses if an operator stands between its parts. -/
def wrapTokens (compound : Bool) (tokens : List Token) : List Token :=
  if compound then leftParen :: (tokens ++ [rightParen]) else tokens

/-- The tree of an operand, in parentheses if an operator stands between its parts. -/
def wrapTree (compound : Bool) (tree : SyntaxTree) : SyntaxTree :=
  if compound then .node .parenExpr [.token leftParen, tree, .token rightParen] else tree

def callTokens (name : String) (pieces : List (List Token)) : List Token :=
  leaf .identifier (ascii name) :: leftParen :: (commaTokens pieces ++ [rightParen])

def callTree (name : String) (trees : List SyntaxTree) : SyntaxTree :=
  .node .callExpr (.token (leaf .identifier (ascii name)) :: .token leftParen ::
    (commaTrees (trees.map ([·])) ++ [.token rightParen]))

/-- The tokens of a printed formula. -/
def tokens : Formula → List Token
  | .number value => value.tokens
  | .unary operator _ operand =>
      match operator.fixity with
      | .call name => callTokens name [operand.tokens]
      | .before spelling | .between spelling =>
          leaf operator.tokenKind (ascii spelling) ::
            wrapTokens operand.fragment.compound operand.tokens
  | .binary operator _ left right =>
      match operator.fixity with
      | .call name => callTokens name [left.tokens, right.tokens]
      | .before spelling | .between spelling =>
          wrapTokens left.fragment.compound left.tokens ++
            leaf operator.tokenKind (ascii spelling) ::
              wrapTokens right.fragment.compound right.tokens
  | .select whenFalse whenTrue condition =>
      callTokens "select" [condition.tokens, whenTrue.tokens, whenFalse.tokens]

/-- The tree of a printed formula. -/
def tree : Formula → SyntaxTree
  | .number value => value.tree
  | .unary operator _ operand =>
      match operator.fixity with
      | .call name => callTree name [operand.tree]
      | .before spelling | .between spelling =>
          .node .unaryExpr [.token (leaf operator.tokenKind (ascii spelling)),
            wrapTree operand.fragment.compound operand.tree]
  | .binary operator _ left right =>
      match operator.fixity with
      | .call name => callTree name [left.tree, right.tree]
      | .before spelling | .between spelling =>
          .node .binaryExpr [wrapTree left.fragment.compound left.tree,
            .token (leaf operator.tokenKind (ascii spelling)),
            wrapTree right.fragment.compound right.tree]
  | .select whenFalse whenTrue condition =>
      callTree "select" [condition.tree, whenTrue.tree, whenFalse.tree]

end Formula

namespace Fragment

/-- A text that is cut into tokens of an expression. -/
structure Written (fragment : Fragment) (tokens : List Token) (tree : SyntaxTree) : Prop where
  prints : Prints fragment.text tokens
  entire : Entire tokens tree
  primary : fragment.compound = false → Primary tokens tree

variable {fragment : Fragment} {tokens : List Token} {tree : SyntaxTree}

theorem leftParen_cuts (next : UInt8 → Bool) : Cuts next (ascii "(") [leftParen] :=
  cuts_closed rfl (fun _ => rfl) next

theorem rightParen_cuts (next : UInt8 → Bool) : Cuts next (ascii ")") [rightParen] :=
  cuts_closed rfl (fun _ => rfl) next

theorem Written.wrapped (h : Written fragment tokens tree) :
    Prints fragment.wrapped (Formula.wrapTokens fragment.compound tokens) ∧
      Primary (Formula.wrapTokens fragment.compound tokens)
        (Formula.wrapTree fragment.compound tree) := by
  cases hcompound : fragment.compound with
  | false =>
      simp only [Fragment.wrapped, hcompound]
      exact ⟨h.prints, h.primary hcompound⟩
  | true =>
      simp only [Fragment.wrapped, hcompound]
      exact ⟨h.prints.enclosed (heads_cons (by decide) _) (leftParen_cuts _)
        (heads_cons (by decide) _) (rightParen_cuts _), primary_parenthesized h.entire⟩

theorem written_of_primary {text : Bytes} (hprints : Prints text tokens)
    (hprimary : Primary tokens tree) : Written ⟨text, false⟩ tokens tree :=
  ⟨hprints, hprimary.whole, fun _ => hprimary⟩

/-- A call of a function with the texts of its arguments. -/
theorem written_call {operator : Operator} {name : String} (hname : operator.fixity = .call name)
    {texts : List Bytes} {pieces : List (List Token)} {trees : List SyntaxTree}
    (hprints : List.Forall₂ Prints texts pieces) (hentire : List.Forall₂ Entire pieces trees)
    (hne : texts ≠ []) :
    Written ⟨ascii name ++ ascii "(" ++ Bytes.join (ascii ", ") texts ++ ascii ")", false⟩
      (Formula.callTokens name pieces) (Formula.callTree name trees) := by
  obtain ⟨hword, hflag⟩ := Operator.call_prints hname
  have hpieces : pieces ≠ [] := by
    rintro rfl
    exact hne (List.forall₂_nil_right_iff.mp hprints)
  have hinside : Prints (ascii "(" ++ commaJoin texts ++ ascii ")")
      (leftParen :: (commaTokens pieces ++ [rightParen])) :=
    (prints_commaJoin hprints hne).enclosed (heads_cons (by decide) _) (leftParen_cuts _)
      (heads_cons (by decide) _) (rightParen_cuts _)
  refine written_of_primary ⟨((hword.heads.append _).append _).append _, ?_⟩
    (primary_call hflag hentire hpieces)
  have hall := hword.cuts.append hinside.cuts (heads_cons (by decide) _)
  rw [← List.append_assoc, ← List.append_assoc] at hall
  exact hall

/-- Two operands with an operator between them. -/
theorem written_between {operator : Operator} {spelling : String}
    (h : operator.fixity = .between spelling) {left right : Fragment} {front back : List Token}
    {first second : SyntaxTree} (hleft : Written left front first)
    (hright : Written right back second) :
    Written ⟨left.wrapped ++ (ascii " " ++ ascii spelling ++ ascii " ") ++ right.wrapped, true⟩
      (Formula.wrapTokens left.compound front ++ leaf operator.tokenKind (ascii spelling) ::
        Formula.wrapTokens right.compound back)
      (.node .binaryExpr [Formula.wrapTree left.compound first,
        .token (leaf operator.tokenKind (ascii spelling)),
        Formula.wrapTree right.compound second]) := by
  obtain ⟨hseparates, hbinds⟩ := Operator.between_separates h
  exact ⟨hseparates.prints hleft.wrapped.1 hright.wrapped.1,
    whole_binary _ hbinds hleft.wrapped.2 hright.wrapped.2, fun h => by cases h⟩

/-- An operand with an operator in front of it. -/
theorem written_before {operator : Operator} {spelling : String}
    (h : operator.fixity = .before spelling) (hoperand : Written fragment tokens tree) :
    Written ⟨ascii spelling ++ fragment.wrapped, false⟩
      (leaf operator.tokenKind (ascii spelling) :: Formula.wrapTokens fragment.compound tokens)
      (.node .unaryExpr [.token (leaf operator.tokenKind (ascii spelling)),
        Formula.wrapTree fragment.compound tree]) := by
  obtain ⟨hprefixes, hsign⟩ := Operator.before_prefixes h
  exact written_of_primary (hprefixes.prints hoperand.wrapped.1)
    (primary_signed hsign _ hoperand.wrapped.2)

end Fragment

namespace Formula

open Fragment

/-- The text of a formula is cut into its tokens, and these are parsed to its tree. -/
theorem written (formula : Formula) : formula.fragment.Written formula.tokens formula.tree := by
  induction formula with
  | number value => exact written_of_primary value.prints value.primary
  | unary operator arity operand ih =>
      rcases Operator.fixity_of_arity_one arity with ⟨name, hname⟩ | ⟨spelling, hspelling⟩
      · have hselect : (operator == .select) = false := by
          cases operator <;> first | rfl | cases arity
        simp only [fragment, ofOperator, tokens, tree, hname, hselect]
        exact written_call hname (.cons ih.prints .nil) (.cons ih.entire .nil)
          (List.cons_ne_nil _ _)
      · simp only [fragment, ofOperator, tokens, tree, hspelling, List.flatMap_singleton]
        exact written_before hspelling ih
  | binary operator arity left right ihLeft ihRight =>
      rcases Operator.fixity_of_arity_two arity with ⟨name, hname⟩ | ⟨spelling, hspelling⟩
      · have hselect : (operator == .select) = false := by
          cases operator <;> first | rfl | cases arity
        simp only [fragment, ofOperator, tokens, tree, hname, hselect]
        exact written_call hname (.cons ihLeft.prints (.cons ihRight.prints .nil))
          (.cons ihLeft.entire (.cons ihRight.entire .nil)) (List.cons_ne_nil _ _)
      · simp only [fragment, ofOperator, tokens, tree, hspelling, List.map_cons, List.map_nil,
          Bytes.join]
        exact written_between hspelling ihLeft ihRight
  | select whenFalse whenTrue condition ihFalse ihTrue ihCondition =>
      exact @written_call .select "select" rfl _ _ _
        (.cons ihCondition.prints (.cons ihTrue.prints (.cons ihFalse.prints .nil)))
        (.cons ihCondition.entire (.cons ihTrue.entire (.cons ihFalse.entire .nil)))
        (List.cons_ne_nil _ _)

end Formula

end NovelAsm
