import NovelAsm.Proofs.Erasure.Declarations
import NovelAsm.Proofs.Resolve.Equations
import NovelAsm.Proofs.Resolve.Faultless

/-!
What definitions say of each other. A definition gives its name a value where the names that it
mentions have theirs: that of its expression, read with these. So definitions are equations
between names, and the rules here are these equations. They ask for the names of the definitions
that an expression mentions, all of them, since an expression with an error in it has no value
(`Definition.valueRule_asks`); places, and whatever else is declared, make no difference.
-/

namespace NovelAsm

/-- The answers of two steps are related, as long as something holds of the state of the first,
which keeps it. -/
def Mirrors {σ τ α β : Type} (I : σ → Prop) (R : α → β → Prop) (step : StateM σ α)
    (other : StateM τ β) : Prop :=
  ∀ state start, I state → R (step state).1 (other start).1 ∧ I (step state).2

namespace Mirrors

variable {σ τ α β γ δ : Type} {I : σ → Prop} {R : α → β → Prop} {Q : γ → δ → Prop}

theorem pure {value : α} {other : β} (h : R value other) :
    Mirrors I R (Pure.pure value : StateM σ α) (Pure.pure other : StateM τ β) :=
  fun _ _ hstate => ⟨h, hstate⟩

theorem bind {step : StateM σ α} {other : StateM τ β} {next : α → StateM σ γ}
    {nextOther : β → StateM τ δ} (h : Mirrors I R step other)
    (hnext : ∀ value found, R value found → Mirrors I Q (next value) (nextOther found)) :
    Mirrors I Q (step >>= next) (other >>= nextOther) := by
  intro state start hstate
  obtain ⟨hvalue, hbehind⟩ := h state start hstate
  exact hnext _ _ hvalue _ (other start).2 hbehind

theorem modify {change : σ → σ} {changeOther : τ → τ} (h : ∀ state, I state → I (change state)) :
    Mirrors I (fun _ _ => True) (modify change : StateM σ PUnit)
      (modify changeOther : StateM τ PUnit) :=
  fun state _ hstate => ⟨trivial, h state hstate⟩

/-- A step that answers one value is mirrored by that. -/
theorem of_gives {step : StateM σ α} {value : α} (h : Gives I step (· = value)) :
    Mirrors I Eq step (Pure.pure value : StateM τ α) :=
  fun state _ hstate => h.gives state hstate

end Mirrors

namespace SyntaxTree

mutual

/-- The names that an expression mentions. -/
def namesIn : SyntaxTree → List Bytes
  | .token _ => []
  | .node kind children =>
      if kind = .nameExpr then
        ((SyntaxTree.node kind children).firstSignificant?.map Token.text).toList
      else namesAmong children

def namesAmong : List SyntaxTree → List Bytes
  | [] => []
  | tree :: rest => tree.namesIn ++ namesAmong rest

end

theorem namesIn_node {kind : SyntaxKind} (h : kind ≠ .nameExpr) (children : List SyntaxTree) :
    (SyntaxTree.node kind children).namesIn = namesAmong children := by
  rw [namesIn, if_neg h]

theorem namesAmong_eq_nil {trees : List SyntaxTree} (h : ∀ tree ∈ trees, tree.isNode = false) :
    namesAmong trees = [] := by
  induction trees with
  | nil => rw [namesAmong]
  | cons tree rest ih =>
      obtain ⟨htree, hrest⟩ := List.forall_mem_cons.mp h
      cases tree with
      | token leaf => rw [namesAmong, ih hrest, namesIn, List.nil_append]
      | node kind children => cases htree

end SyntaxTree

namespace Expr

/-- Two expressions that have one value: they are the same, or neither is settled. -/
def Alike (expr other : Expr) : Prop := expr = other ∨ ¬ expr.Settled ∧ ¬ other.Settled

theorem Alike.refl (expr : Expr) : expr.Alike expr := .inl rfl

theorem alike_of_not_settled {expr other : Expr} (h : ¬ expr.Settled) (hother : ¬ other.Settled) :
    expr.Alike other := .inr ⟨h, hother⟩

theorem Alike.unary {operand other : Expr} (h : operand.Alike other) (span : Span)
    (operator : UnaryOperator) :
    (Expr.unary span operator operand).Alike (.unary span operator other) := by
  rcases h with rfl | h
  · exact .refl _
  · exact .inr h

theorem Alike.binary {left other right twin : Expr} (h : left.Alike other)
    (hright : right.Alike twin) (span : Span) (operator : BinaryOperator) :
    (Expr.binary span operator left right).Alike (.binary span operator other twin) := by
  rcases h with rfl | ⟨hleft, hother⟩
  · rcases hright with rfl | ⟨hright, htwin⟩
    · exact .refl _
    · exact .inr ⟨fun hboth => hright hboth.2, fun hboth => htwin hboth.2⟩
  · exact .inr ⟨fun hboth => hleft hboth.1, fun hboth => hother hboth.1⟩

theorem alike_or_of_forall₂ {exprs others : List Expr} (h : List.Forall₂ Alike exprs others) :
    exprs = others ∨ ¬ AllSettled exprs ∧ ¬ AllSettled others := by
  induction h with
  | nil => exact .inl rfl
  | cons hfirst _ ih =>
      rcases hfirst with rfl | ⟨hleft, hright⟩
      · rcases ih with rfl | ⟨hleft, hright⟩
        · exact .inl rfl
        · exact .inr ⟨fun hall => hleft hall.2, fun hall => hright hall.2⟩
      · exact .inr ⟨fun hall => hleft hall.1, fun hall => hright hall.1⟩

theorem Alike.call {exprs others : List Expr} (h : List.Forall₂ Alike exprs others) (span : Span)
    (intrinsic : Intrinsic) :
    (Expr.call span intrinsic exprs).Alike (.call span intrinsic others) := by
  rcases alike_or_of_forall₂ h with rfl | hneither
  · exact .refl _
  · exact .inr hneither

/-- Expressions that are alike have one value, whatever was said before. -/
theorem Alike.evaluate {expr other : Expr} (h : expr.Alike other) (said before : Diagnostics) :
    (expr.evaluate said).1 = (other.evaluate before).1 := by
  rcases h with rfl | ⟨hleft, hright⟩
  · rw [expr.evaluate_answer said, expr.evaluate_answer before]
  · have hnone {expr : Expr} (h : ¬ expr.Settled) (said : Diagnostics) :
        (expr.evaluate said).1 = none :=
      Option.not_isSome_iff_eq_none.mp fun hsome => h (expr.evaluate_settled said hsome)
    rw [hnone hleft, hnone hright]

end Expr

namespace Naming

open SyntaxTree

variable {σ τ : Type}

/-- Two namings that make one value of some names, the first one as long as something holds of its
state. -/
structure Like (I : σ → Prop) (names : Bytes → Prop) (naming : Naming σ) (other : Naming τ) :
    Prop where
  base : naming.base = other.base
  report : ∀ diagnostic state, I state → I (naming.report diagnostic state)
  name : ∀ name span, names name →
    Mirrors I Expr.Alike (naming.readName name span) (other.readName name span)
  register : ∀ name span,
    Mirrors I Expr.Alike (naming.readRegister name span) (other.readRegister name span)

variable {I : σ → Prop} {names : Bytes → Prop} {naming : Naming σ} {other : Naming τ}

theorem Like.complain (h : Like I names naming other) (problem : NameProblem) (span : Span)
    (value : Expr) :
    Mirrors I Expr.Alike (do naming.complain problem span; return value)
      (do other.complain problem span; return value) :=
  (Mirrors.modify fun _ hstate => h.report _ _ hstate).bind fun _ _ _ => .pure (.refl value)

theorem Like.spanOf (h : Like I names naming other) (tree : SyntaxTree) :
    naming.spanOf tree = other.spanOf tree := by rw [Naming.spanOf, h.base, Naming.spanOf]

theorem Like.readLiteral (h : Like I names naming other) (token : Token) (span : Span) :
    Mirrors I Expr.Alike (naming.readLiteral token span) (other.readLiteral token span) := by
  simp only [Naming.readLiteral]
  split
  · exact .pure (.refl _)
  · split
    · exact .pure (.refl _)
    · exact h.complain _ _ _
  · split
    · exact .pure (.refl _)
    · exact h.complain _ _ _

mutual

theorem Like.read (h : Like I names naming other) : ∀ tree : SyntaxTree,
    (∀ name ∈ tree.namesIn, names name) →
      Mirrors I Expr.Alike (naming.read tree) (other.read tree)
  | .token leaf, _ => by
      simp only [Naming.read, h.base]
      exact .pure (.refl _)
  | .node kind children, hnames => by
      have hbelow (hkind : kind ≠ .nameExpr) :
          Mirrors I (List.Forall₂ Expr.Alike) (naming.readAll children) (other.readAll children) :=
        Like.readAll h children (by rwa [namesIn_node hkind] at hnames)
      simp only [Naming.read, h.spanOf]
      cases kind with
      | literalExpr =>
          simp only
          split
          · exact h.readLiteral _ _
          · exact .pure (.refl _)
      | registerExpr =>
          simp only
          split
          · exact h.register _ _
          · exact .pure (.refl _)
      | nameExpr =>
          cases htoken : (SyntaxTree.node .nameExpr children).firstSignificant? with
          | none => exact .pure (.refl _)
          | some token => exact h.name token.text _ (hnames _ (by simp [namesIn, htoken]))
      | parenExpr =>
          refine (hbelow (by decide)).bind fun exprs others hexprs => .pure ?_
          cases hexprs with
          | nil => exact .refl _
          | cons hfirst _ => exact hfirst
      | unaryExpr =>
          refine (hbelow (by decide)).bind fun exprs others hexprs => ?_
          cases hexprs with
          | nil => split <;> exact .pure (.refl _)
          | cons hfirst _ =>
              cases operator? (SyntaxTree.node .unaryExpr children) with
              | none => exact .pure (.refl _)
              | some operator => exact .pure (hfirst.unary _ _)
      | binaryExpr =>
          refine (hbelow (by decide)).bind fun exprs others hexprs => ?_
          cases (operator? (SyntaxTree.node .binaryExpr children)).bind binaryOperator? with
          | none => exact .pure (.refl _)
          | some operator =>
              match exprs, others, hexprs with
              | [], [], _ => exact .pure (.refl _)
              | [_], [_], _ => exact .pure (.refl _)
              | [_, _], [_, _], .cons hleft (.cons hright _) =>
                  exact .pure (hleft.binary hright _ _)
              | _ :: _ :: _ :: _, _ :: _ :: _ :: _, _ => exact .pure (.refl _)
      | callExpr =>
          simp only
          split
          · exact .pure (.refl _)
          · exact h.complain _ _ _
          · exact (hbelow (by decide)).bind fun exprs others hexprs => .pure (.call hexprs _ _)
      | _ => exact .pure (.refl _)

theorem Like.readAll (h : Like I names naming other) : ∀ trees : List SyntaxTree,
    (∀ name ∈ namesAmong trees, names name) →
      Mirrors I (List.Forall₂ Expr.Alike) (naming.readAll trees) (other.readAll trees)
  | [], _ => .pure .nil
  | .token leaf :: rest, hnames => Like.readAll h rest (by simpa [namesAmong, namesIn] using hnames)
  | .node kind children :: rest, hnames => by
      simp only [namesAmong, List.forall_mem_append] at hnames
      simp only [Naming.readAll]
      exact (Like.read h (.node kind children) hnames.1).bind fun first twin hfirst =>
        (Like.readAll h rest hnames.2).bind fun exprs others hexprs => .pure (.cons hfirst hexprs)

end

/-- The expressions of trees, one for each node. -/
theorem length_readAll (trees : List SyntaxTree) : Ensures (naming.readAll trees) fun exprs =>
    exprs.length = (trees.filter isNode).length := by
  induction trees with
  | nil => exact .pure rfl
  | cons tree rest ih =>
      cases tree with
      | token leaf => exact ih
      | node kind children =>
          exact .behind fun first => ih.bind fun others hothers =>
            .pure (congrArg (· + 1) hothers)

variable {known : Bytes → Prop}

theorem readAll_settled {trees : List SyntaxTree} (h : ∀ tree ∈ trees, tree.isNode = true →
    Ensures (naming.read tree) fun expr => expr.Settled → ∀ name ∈ tree.namesIn, known name) :
    Ensures (naming.readAll trees) fun exprs =>
      Expr.AllSettled exprs → ∀ name ∈ namesAmong trees, known name := by
  induction trees with
  | nil => exact .pure fun _ name hmem => by cases hmem
  | cons tree rest ih =>
      obtain ⟨htree, hrest⟩ := List.forall_mem_cons.mp h
      cases tree with
      | token leaf => exact ih hrest
      | node kind children =>
          refine (htree rfl).bind fun first hfirst => (ih hrest).bind fun others hothers => .pure ?_
          intro hsettled
          rw [namesAmong, List.forall_mem_append]
          exact ⟨hfirst hsettled.1, hothers hsettled.2⟩

/-- A well-formed expression is read as a settled one only if each name that it mentions is. -/
theorem read_settled (hknown : ∀ name span,
      Ensures (naming.readName name span) fun expr => expr.Settled → known name)
    {tree : SyntaxTree} (h : tree.Formed) (hkind : tree.kind?.any SyntaxKind.isExpression = true) :
    Ensures (naming.read tree) fun expr => expr.Settled → ∀ name ∈ tree.namesIn, known name := by
  induction h with
  | token leaf => cases hkind
  | @node kind children hshaped hadmits hchildren ih =>
      have hbelow (hexpr : kind.admits = SyntaxKind.isExpression) (hname : kind ≠ .nameExpr) :
          Ensures (naming.readAll children) fun exprs =>
            (Expr.AllSettled exprs → ∀ name ∈ (SyntaxTree.node kind children).namesIn, known name) ∧
              exprs.length = (children.filter isNode).length := by
        rw [namesIn_node hname]
        refine (readAll_settled fun tree hmem hnode => ih tree hmem ?_).and
          (length_readAll children)
        have hadmitted := hadmits tree hmem
        rw [hexpr] at hadmitted
        cases tree with
        | token leaf => cases hnode
        | node own below => exact hadmitted
      have hleaf (hadmitted : ∀ kind', kind.admits kind' = false) (hname : kind ≠ .nameExpr) :
          (SyntaxTree.node kind children).namesIn = [] := by
        rw [namesIn_node hname]
        refine namesAmong_eq_nil fun tree hmem => ?_
        have hnone := hadmits tree hmem
        cases tree with
        | token leaf => rfl
        | node own below => simp [kind?, hadmitted] at hnone
      cases kind with
      | literalExpr | registerExpr =>
          rw [hleaf (fun _ => rfl) (by decide)]
          exact fun _ _ name hmem => by cases hmem
      | nameExpr =>
          simp only [Naming.read]
          cases htoken : (SyntaxTree.node .nameExpr children).firstSignificant? with
          | none => exact .pure fun hsettled => False.elim hsettled
          | some token =>
              refine (hknown token.text _).mono fun expr hexpr hsettled name hmem => ?_
              obtain rfl : name = token.text := by simpa [namesIn, htoken] using hmem
              exact hexpr hsettled
      | parenExpr =>
          simp only [Naming.read]
          refine (hbelow rfl (by decide)).bind fun exprs hexprs => .pure ?_
          obtain ⟨only, rfl⟩ := List.length_eq_one_iff.mp (hexprs.2.trans hshaped)
          exact fun hsettled => hexprs.1 ⟨hsettled, trivial⟩
      | unaryExpr =>
          simp only [Naming.read]
          refine (hbelow rfl (by decide)).bind fun exprs hexprs => ?_
          obtain ⟨only, rfl⟩ := List.length_eq_one_iff.mp (hexprs.2.trans hshaped.2)
          cases operator? (SyntaxTree.node .unaryExpr children) with
          | none => exact .pure fun hsettled => False.elim hsettled
          | some operator => exact .pure fun hsettled => hexprs.1 ⟨hsettled, trivial⟩
      | binaryExpr =>
          simp only [Naming.read]
          refine (hbelow rfl (by decide)).bind fun exprs hexprs => ?_
          obtain ⟨left, right, rfl⟩ := List.length_eq_two.mp (hexprs.2.trans hshaped.2)
          cases (operator? (SyntaxTree.node .binaryExpr children)).bind binaryOperator? with
          | none => exact .pure fun hsettled => False.elim hsettled
          | some operator =>
              exact .pure fun hsettled => hexprs.1 ⟨hsettled.1, hsettled.2, trivial⟩
      | callExpr =>
          simp only [Naming.read]
          split
          · exact .pure fun hsettled => False.elim hsettled
          · exact .behind fun _ => .pure fun hsettled => False.elim hsettled
          · exact (hbelow rfl (by decide)).bind fun exprs hexprs => .pure hexprs.1
      | _ => cases hkind

end Naming

namespace Definition

open SyntaxTree

/-- What a name means in the definition of a value where other definitions have theirs. -/
def given (definitions : List Definition) (origin : Location) (env : Bytes → Option Value) :
    Naming Evaluation :=
  naming definitions .empty origin fun definition _ => return env definition.name

/-- The value that a definition gives to its name where other names have theirs: its expression,
read with these, is evaluated. -/
def valueRule (definitions : List Definition) : NameRule Value := fun env name =>
  (find? definitions name false).bind fun definition =>
    definition.value.bind fun tree =>
      (evaluateTree (given definitions definition.origin env) tree .empty).1

/-- The definitions of values that the definition of a value mentions. -/
def valueNames (definitions : List Definition) (name : Bytes) : List Bytes :=
  (((find? definitions name false).bind value).elim [] namesIn).filter fun other =>
    (find? definitions other false).isSome

/-- The register that an alias stands for where other aliases have theirs. -/
def registerRule (definitions : List Definition) : NameRule Register := fun env name =>
  (find? definitions name true).bind fun definition =>
    definition.aliasToken?.bind fun token =>
      if (find? definitions token.text true).isSome then env token.text
      else Register.parse? token.text

/-- The alias that the definition of an alias consists of. -/
def registerNames (definitions : List Definition) (name : Bytes) : List Bytes :=
  (((find? definitions name true).bind aliasToken?).elim [] fun token => [token.text]).filter
    fun other => (find? definitions other true).isSome

/-- A definition whose value is a well-formed expression. -/
def Formed (definition : Definition) : Prop :=
  ∃ tree, definition.value = some tree ∧ tree.FormedAs SyntaxKind.isExpression

variable {definitions : List Definition}

theorem name_of_find? {name : Bytes} {isRegister : Bool} {definition : Definition}
    (h : find? definitions name isRegister = some definition) : definition.name = name := by
  have hfound := List.find?_some h
  simp only [Bool.and_eq_true, beq_iff_eq] at hfound
  exact hfound.1

/-- The value of a tree is that of the expression that it is read as. -/
theorem evaluateTree_value (naming : Naming Evaluation) (tree : SyntaxTree) (state : Evaluation) :
    (evaluateTree naming tree state).1 = ((naming.read tree state).1.evaluate []).1 := by
  have hrun (expr : Expr) (state : Evaluation) :
      ((if expr.isError then Pure.pure none else Evaluation.reporting expr.evaluate :
        StateM Evaluation (Option Value)) state).1 = (expr.evaluate []).1 := by
    split
    · rename_i herror
      cases expr with
      | error span => rfl
      | _ => cases herror
    · exact expr.evaluate_answer state.diagnostics
  exact hrun _ _

/-- Evaluating an expression under alike namings gives one value. -/
theorem evaluateTree_mirrors {I : Evaluation → Prop}
    (hsaid : ∀ (state : Evaluation) (said : Diagnostics), I state →
      I { state with diagnostics := said })
    {names : Bytes → Prop} {naming other : Naming Evaluation} (h : naming.Like I names other)
    {tree : SyntaxTree} (htree : ∀ name ∈ tree.namesIn, names name) :
    Mirrors I Eq (evaluateTree naming tree) (evaluateTree other tree) := by
  intro state start hstate
  obtain ⟨halike, hbehind⟩ := h.read tree htree state start hstate
  have hkeeps (expr : Expr) (state : Evaluation) (hstate : I state) :
      I ((if expr.isError then Pure.pure none else Evaluation.reporting expr.evaluate :
        StateM Evaluation (Option Value)) state).2 := by
    split
    · exact hstate
    · exact hsaid state _ hstate
  refine ⟨?_, hkeeps _ _ hbehind⟩
  rw [evaluateTree_value, evaluateTree_value, halike.evaluate]

/-- Two environments that agree on the names of an expression read it alike. -/
theorem given_like {env later : Bytes → Option Value} (origin : Location) {names : Bytes → Prop}
    (h : ∀ name definition, names name → find? definitions name false = some definition →
      env name = later name) :
    (given definitions origin env).Like (fun _ => True) names (given definitions origin later) where
  base := rfl
  report _ _ hstate := hstate
  name name span hname := by
    simp only [Naming.readName, given, naming]
    cases hfound : find? definitions name false with
    | none => exact fun _ _ _ => ⟨.refl _, trivial⟩
    | some definition =>
        obtain rfl := name_of_find? hfound
        simp only [h definition.name definition hname hfound]
        cases later definition.name <;> exact fun _ _ _ => ⟨.refl _, trivial⟩
  register name span := fun _ _ _ => ⟨.refl _, trivial⟩

/-- The rule for a value asks for the definitions that are mentioned. -/
theorem valueRule_asks (h : ∀ definition ∈ definitions, definition.Formed) :
    (valueRule definitions).Asks (valueNames definitions) where
  strict {env name value} hvalue other hother := by
    obtain ⟨definition, hfound, hvalue⟩ := Option.bind_eq_some_iff.mp hvalue
    obtain ⟨tree, htree, hvalue⟩ := Option.bind_eq_some_iff.mp hvalue
    obtain ⟨formed, hformed, hexpr⟩ := h definition (List.mem_of_find?_eq_some hfound)
    obtain rfl := Option.some.inj (hformed.symm.trans htree)
    rw [valueNames, hfound, Option.bind_some, htree, Option.elim_some, List.mem_filter] at hother
    obtain ⟨hmem, hdefined⟩ := hother
    obtain ⟨asked, hasked⟩ := Option.isSome_iff_exists.mp hdefined
    have hknown (name : Bytes) (span : Span) :
        Ensures ((given definitions definition.origin env).readName name span) fun expr =>
          expr.Settled → ∀ asked, find? definitions name false = some asked →
            (env name).isSome = true := by
      intro state
      simp only [Naming.readName, given, naming]
      cases hfound : find? definitions name false with
      | none => exact fun _ asked hasked => by cases hasked
      | some definition =>
          rw [← name_of_find? hfound]
          simp only [pure_bind]
          cases env definition.name with
          | none => exact fun hsettled => False.elim hsettled
          | some value => exact fun _ _ _ => rfl
    have hread := Naming.read_settled hknown hexpr.1 hexpr.2 .empty
    rw [evaluateTree_value] at hvalue
    exact hread (Expr.evaluate_settled _ [] (by rw [hvalue]; rfl)) other hmem asked hasked
  congr {env later name} hsame := by
    simp only [valueRule]
    cases hfound : find? definitions name false with
    | none => rfl
    | some definition =>
        simp only [Option.bind_some]
        cases htree : definition.value with
        | none => rfl
        | some tree =>
            refine (evaluateTree_mirrors (fun _ _ h => h) (given_like definition.origin ?_)
              fun name hname => hname) .empty .empty trivial |>.1
            intro other asked hmem hasked
            refine hsame other ?_
            simp [valueNames, hfound, htree, hmem, hasked]

theorem registerRule_asks : (registerRule definitions).Asks (registerNames definitions) where
  strict {env name value} hvalue other hother := by
    obtain ⟨definition, hfound, hvalue⟩ := Option.bind_eq_some_iff.mp hvalue
    obtain ⟨token, htoken, hvalue⟩ := Option.bind_eq_some_iff.mp hvalue
    rw [registerNames, hfound, Option.bind_some, htoken, Option.elim_some, List.mem_filter,
      List.mem_singleton] at hother
    obtain ⟨rfl, hdefined⟩ := hother
    rw [if_pos hdefined] at hvalue
    rw [hvalue]
    rfl
  congr {env later name} hsame := by
    simp only [registerRule]
    cases hfound : find? definitions name true with
    | none => rfl
    | some definition =>
        simp only [Option.bind_some]
        cases htoken : definition.aliasToken? with
        | none => rfl
        | some token =>
            simp only [Option.bind_some]
            split
            · rename_i hdefined
              exact hsame token.text (by simp [registerNames, hfound, htoken, hdefined])
            · rfl

end Definition

end NovelAsm
