import NovelAsm.Proofs.Erasure.Routines
import NovelAsm.Proofs.Expr.Refusals
import NovelAsm.Proofs.Layout.Trees
import NovelAsm.Proofs.Silence
import NovelAsm.Proofs.SyntaxTree.Formed

/-!
What the resolver makes of a well-formed tree that it does not complain of. It has a placeholder
for every expression that it cannot read, and reports each that it leaves in a routine; so
without a report, the routines hold the instructions of the tree, in their order, and no error
(`Routine.readItems_silently`).
-/

namespace NovelAsm

open SyntaxTree

/-- An operand without an error in it. -/
def Argument.Faultless : Argument → Prop
  | .expression _ value => value.Faultless
  | .flag _ _ => True
  | .array _ elements => ∀ element ∈ elements, element.Faultless
  | .jumpTable _ cases => ∀ tableCase ∈ cases, tableCase.key.Faultless ∧ tableCase.target.Faultless

/-- A statement without an error in it. -/
def Statement.Faultless : Statement → Prop
  | .label _ _ => True
  | .instruction _ _ arguments => ∀ argument ∈ arguments, argument.Faultless

/-- A routine without an error in it. -/
def Routine.Faultless (routine : Routine) : Prop :=
  ∀ statement ∈ routine.statements, statement.Faultless

namespace Naming

/-- A naming that has something bad to show for every report, and for every register and every
definition that has no meaning. -/
structure Candid {σ : Type} (I bad : σ → Prop) (naming : Naming σ) : Prop where
  report : ∀ (problem : NameProblem) (span : Span) (state : σ), I state →
    I (naming.report (problem.diagnose span) state) ∧
      bad (naming.report (problem.diagnose span) state)
  meaning : ∀ name span, Honest I bad (naming.meaning name span) (· ≠ .broken)
  register? : ∀ name span, Honest I bad (naming.register? name span) (Option.isSome · = true)

variable {σ : Type} {I bad : σ → Prop} {naming : Naming σ}

/-- The expressions of some nodes, one for each. -/
theorem readAll_honest {trees : List SyntaxTree} (h : ∀ tree ∈ trees, tree.isNode = true →
    Honest I bad (naming.read tree) Expr.Faultless) :
    Honest I bad (naming.readAll trees) fun exprs =>
      Expr.AllFaultless exprs ∧ exprs.length = (trees.filter isNode).length := by
  induction trees with
  | nil => exact .pure ⟨trivial, rfl⟩
  | cons tree rest ih =>
      obtain ⟨htree, hrest⟩ := List.forall_mem_cons.mp h
      cases tree with
      | token leaf => exact ih hrest
      | node kind children =>
          refine (htree rfl).follow fun first => (ih hrest).follow fun others => .pure ?_
          exact fun hothers hfirst => ⟨⟨hfirst, hothers.1⟩, congrArg (· + 1) hothers.2⟩

variable (hcandid : naming.Candid I bad)

include hcandid

theorem Candid.complain {α : Type} (problem : NameProblem) (span : Span) (value : α)
    {P : α → Prop} : Honest I bad (do naming.complain problem span; return value) P :=
  Honest.behind_bad (hcandid.report problem span)

theorem Candid.readLiteral {token : Token} (htoken : token.Readable) (span : Span) :
    Honest I bad (naming.readLiteral token span) Expr.Faultless := by
  simp only [Naming.readLiteral]
  split
  · rename_i hkind
    obtain ⟨text, htext⟩ := Option.isSome_iff_exists.mp (htoken hkind)
    rw [htext]
    exact .pure trivial
  · split
    · exact .pure trivial
    · exact hcandid.complain _ _ _
  · split
    · exact .pure trivial
    · exact hcandid.complain _ _ _

theorem Candid.readName (name : Bytes) (span : Span) :
    Honest I bad (naming.readName name span) Expr.Faultless := by
  refine (hcandid.meaning name span).follow fun meaning => ?_
  cases meaning with
  | value value => exact .pure fun _ => trivial
  | broken => exact .pure fun hne => absurd rfl hne
  | symbol symbol => exact .pure fun _ => trivial
  | undefined => exact hcandid.complain _ _ _

theorem Candid.readRegister (name : Bytes) (span : Span) :
    Honest I bad (naming.readRegister name span) Expr.Faultless := by
  refine (hcandid.register? name span).follow fun register => ?_
  cases register with
  | none => exact .pure fun hsome => by cases hsome
  | some register => exact .pure fun _ => trivial

/-- A well-formed expression is read without an error, or reported. -/
theorem Candid.read {tree : SyntaxTree} (h : tree.Formed)
    (hkind : tree.kind?.any SyntaxKind.isExpression = true) :
    Honest I bad (naming.read tree) Expr.Faultless := by
  induction h with
  | token leaf => cases hkind
  | @node kind children hshaped hadmits hchildren ih =>
      have hbelow (hexpr : kind.admits = SyntaxKind.isExpression) :
          Honest I bad (naming.readAll children) fun exprs => Expr.AllFaultless exprs ∧
            exprs.length = (children.filter isNode).length := by
        refine readAll_honest fun tree hmem hnode => ih tree hmem ?_
        have hadmitted := hadmits tree hmem
        rw [hexpr] at hadmitted
        cases tree with
        | token leaf => cases hnode
        | node own below => exact hadmitted
      cases kind with
      | literalExpr =>
          obtain ⟨token, htoken, hreadable⟩ := hshaped
          simp only [Naming.read, htoken]
          exact hcandid.readLiteral hreadable _
      | registerExpr =>
          obtain ⟨token, htoken⟩ := Option.isSome_iff_exists.mp hshaped
          simp only [Naming.read, htoken]
          exact hcandid.readRegister _ _
      | nameExpr =>
          obtain ⟨token, htoken⟩ := Option.isSome_iff_exists.mp hshaped
          simp only [Naming.read, htoken]
          exact hcandid.readName _ _
      | parenExpr =>
          simp only [Naming.read]
          refine (hbelow rfl).follow fun exprs => .pure fun hexprs => ?_
          obtain ⟨only, rfl⟩ := List.length_eq_one_iff.mp (hexprs.2.trans hshaped)
          exact hexprs.1.1
      | unaryExpr =>
          obtain ⟨hoperator, hoperand⟩ := hshaped
          obtain ⟨operator, hoperator⟩ := Option.isSome_iff_exists.mp hoperator
          simp only [Naming.read, hoperator]
          refine (hbelow rfl).follow fun exprs => ?_
          cases exprs with
          | nil =>
              refine .pure fun hexprs => ?_
              have hlength : ([] : List Expr).length = 1 := hexprs.2.trans hoperand
              cases hlength
          | cons operand rest => exact .pure fun hexprs => hexprs.1.1
      | binaryExpr =>
          obtain ⟨hoperator, hoperands⟩ := hshaped
          obtain ⟨operator, hoperator⟩ := Option.isSome_iff_exists.mp hoperator
          simp only [Naming.read, hoperator]
          refine (hbelow rfl).follow fun exprs => ?_
          have hlength (hexprs : Expr.AllFaultless exprs ∧
              exprs.length = (children.filter isNode).length) : exprs.length = 2 :=
            hexprs.2.trans hoperands
          split
          · exact .pure fun hexprs => ⟨hexprs.1.1, hexprs.1.2.1⟩
          · rename_i hnotTwo
            refine .pure fun hexprs => ?_
            obtain ⟨left, right, rfl⟩ := List.length_eq_two.mp (hlength hexprs)
            exact absurd rfl (hnotTwo operator left right rfl)
      | callExpr =>
          obtain ⟨⟨name, callee⟩, hcallee⟩ := Option.isSome_iff_exists.mp hshaped
          simp only [Naming.read, hcallee]
          cases callee with
          | none => exact hcandid.complain _ _ _
          | some intrinsic =>
              exact (hbelow rfl).follow fun exprs => .pure fun hexprs => hexprs.1
      | _ => cases hkind

/-- The expressions among well-formed trees. -/
theorem Candid.readAmong {trees : List SyntaxTree} (h : AllFormed SyntaxKind.isExpression trees) :
    Honest I bad (naming.readAll trees) fun exprs =>
      (∀ expr ∈ exprs, expr.Faultless) ∧ exprs.length = (trees.filter isNode).length := by
  refine (readAll_honest fun tree hmem hnode => ?_).mono fun exprs hexprs =>
    ⟨Expr.allFaultless_iff.mp hexprs.1, hexprs.2⟩
  obtain ⟨hformed, hkind⟩ := h.formedAs (List.mem_filter.mpr ⟨hmem, hnode⟩)
  exact hcandid.read hformed hkind

theorem Candid.readCase {entry : SyntaxTree} (h : entry.FormedAs (· == .jumpTableEntry)) :
    Honest I bad (naming.readCase entry) fun tableCase =>
      tableCase.key.Faultless ∧ tableCase.target.Faultless := by
  obtain ⟨hformed, hkind⟩ := h
  cases entry with
  | token leaf => cases hkind
  | node kind children =>
      obtain rfl : kind = .jumpTableEntry := beq_iff_eq.mp hkind
      refine (hcandid.readAmong hformed.children).follow fun parts => .pure fun hparts => ?_
      have hlength : parts.length = 2 := hparts.2.trans hformed.shaped
      match parts with
      | [key, target] => exact ⟨hparts.1 key (by simp), hparts.1 target (by simp)⟩
      | [] | [_] | _ :: _ :: _ :: _ => simp at hlength

/-- A well-formed operand is read without an error, or reported. -/
theorem Candid.readArgument {tree : SyntaxTree} (h : tree.FormedAs SyntaxKind.isOperand) :
    Honest I bad (naming.readArgument tree) Argument.Faultless := by
  obtain ⟨hformed, hkind⟩ := h
  cases tree with
  | token leaf => cases hkind
  | node kind children =>
      by_cases hexpr : kind.isExpression = true
      · have hread := hcandid.read hformed hexpr
        cases kind with
        | literalExpr | registerExpr | nameExpr | parenExpr | unaryExpr | binaryExpr | callExpr =>
            exact hread.follow fun expr => .pure fun hfaultless => hfaultless
        | _ => cases hexpr
      · cases kind with
        | flag =>
            obtain ⟨flag, hflag⟩ := Option.isSome_iff_exists.mp hformed.shaped
            simp only [Naming.readArgument, kind?, hflag]
            exact .pure trivial
        | arrayLiteral =>
            exact (hcandid.readAmong hformed.children).follow fun elements =>
              .pure fun helements => helements.1
        | jumpTableBlock =>
            have hcases := hformed.children
            simp only [Naming.readArgument, kind?, SyntaxTree.childNodes]
            exact (Honest.mapM _ fun entry hentry =>
              hcandid.readCase (hcases.formedAs hentry)).follow fun cases =>
                .pure fun hall => hall
        | _ => first | exact absurd rfl hexpr | cases hkind

end Naming

namespace Statement

def isInstruction : Statement → Bool
  | .label _ _ => false
  | .instruction _ _ _ => true

/-- The statement for an instruction of a tree, without an error in it. -/
def StandsFor (tree : SyntaxTree) (statement : Statement) : Prop :=
  ∃ arguments, statement = .instruction tree.span tree.firstText arguments ∧
    ∀ argument ∈ arguments, argument.Faultless

/-- Statements without errors, of which the instructions are those of some trees. -/
structure StandFor (trees : List SyntaxTree) (statements : List Statement) : Prop where
  faultless : ∀ statement ∈ statements, statement.Faultless
  instructions : List.Forall₂ StandsFor trees (statements.filter isInstruction)

variable {trees more : List SyntaxTree} {statements others : List Statement}

theorem StandFor.nil : StandFor [] [] := ⟨(fun _ hmem => by cases hmem), .nil⟩

theorem StandFor.append (h : StandFor trees statements) (hmore : StandFor more others) :
    StandFor (trees ++ more) (statements ++ others) where
  faultless := List.forall_mem_append.mpr ⟨h.faultless, hmore.faultless⟩
  instructions := by
    rw [List.filter_append]
    exact List.rel_append h.instructions hmore.instructions

theorem standFor_label (span : Span) (name : Bytes) : StandFor [] [.label span name] where
  faultless statement hmem := by
    rw [List.mem_singleton.mp hmem]
    trivial
  instructions := .nil

theorem StandsFor.standFor {tree : SyntaxTree} {statement : Statement}
    (h : StandsFor tree statement) : StandFor [tree] [statement] := by
  obtain ⟨arguments, rfl, harguments⟩ := h
  refine ⟨fun statement hmem => ?_, .cons ⟨arguments, rfl, harguments⟩ .nil⟩
  rw [List.mem_singleton.mp hmem]
  exact harguments

end Statement

namespace Routine

open Statement

/-- Routines whose instructions are those of some trees: each tree belongs to one of them, and
they come in the order of the trees. -/
def Share (trees : List SyntaxTree) (routines : List Routine) : Prop :=
  ∃ shares : List (List SyntaxTree), shares.flatten = trees ∧
    List.Forall₂ (fun share routine => StandFor share routine.statements) shares routines

theorem Share.nil : Share [] [] := ⟨[], rfl, .nil⟩

theorem Share.append {trees more : List SyntaxTree} {routines others : List Routine}
    (h : Share trees routines) (hmore : Share more others) :
    Share (trees ++ more) (routines ++ others) := by
  obtain ⟨shares, rfl, hshares⟩ := h
  obtain ⟨rest, rfl, hrest⟩ := hmore
  exact ⟨shares ++ rest, List.flatten_append, List.rel_append hshares hrest⟩

theorem share_singleton {trees : List SyntaxTree} {routine : Routine}
    (h : StandFor trees routine.statements) : Share trees [routine] :=
  ⟨[trees], by simp, .cons h .nil⟩

theorem Share.standFor {trees : List SyntaxTree} {routine : Routine}
    (h : Share trees [routine]) : StandFor trees routine.statements := by
  obtain ⟨shares, rfl, hshares⟩ := h
  cases hshares with
  | cons hfirst hrest =>
      cases hrest with
      | nil => simpa using hfirst

variable (scope : Scope) (aliases : Aliases)

theorem naming_candid (count : Nat) :
    (naming scope aliases).Candid (SaidAtLeast count) (SaidMore count) where
  report problem span state hstate := by
    have hlength : ((naming scope aliases).report (problem.diagnose span) state).length =
        state.length + 1 := List.length_append
    unfold SaidAtLeast SaidMore at *
    omega
  meaning name span := by
    simp only [naming]
    refine .pure fun hbroken => ?_
    split at hbroken <;> cases hbroken
  register? name span := by
    simp only [naming]
    split
    · exact .pure rfl
    · have hrefused : Silently (do (NameProblem.undefinedRegister name).report span; return none)
          fun register : Option Register => register.isSome = true :=
        Silently.behind_report _ (.pure (P := fun _ => True) trivial)
      exact hrefused.honest count

/-- An instruction is read without an error, or reported. -/
theorem readInstruction_silently {tree : SyntaxTree} (h : tree.FormedAs (· == .instruction)) :
    Silently (readInstruction scope aliases tree) (Statement.StandsFor tree) := by
  obtain ⟨hformed, hkind⟩ := h
  cases tree with
  | token leaf => cases hkind
  | node kind children =>
      obtain rfl : kind = .instruction := beq_iff_eq.mp hkind
      have hdone (step : Reporting (List Argument))
          (hstep : Silently step fun arguments => ∀ argument ∈ arguments, argument.Faultless) :
          Silently (do
            let arguments ← step
            return Statement.instruction (SyntaxTree.node .instruction children).span
              (SyntaxTree.node .instruction children).firstText arguments)
            (Statement.StandsFor (.node .instruction children)) :=
        hstep.follow fun arguments => .pure fun harguments => ⟨arguments, rfl, harguments⟩
      simp only [readInstruction]
      cases hlist : (SyntaxTree.node .instruction children).firstChild? .argumentList with
      | none => exact hdone (Pure.pure []) (.pure fun _ hmem => by cases hmem)
      | some list =>
          refine hdone _ (Silently.mapM _ fun operand hoperand => ?_)
          have hmem : list ∈ children := List.mem_of_find?_eq_some hlist
          have hlistKind := List.find?_some hlist
          have hlistFormed := (hformed.children list hmem).1
          cases list with
          | token leaf => cases hlistKind
          | node own operands =>
              obtain rfl : own = .argumentList := Option.some.inj (beq_iff_eq.mp hlistKind)
              exact .of_honest fun count => (naming_candid scope aliases count).readArgument
                (hlistFormed.children.formedAs hoperand)

/-- The instructions of a body are read in their order. -/
theorem readBody_silently {trees : List SyntaxTree} {kind : SyntaxKind}
    (h : SyntaxTree.AllFormed kind.admits trees) :
    Silently (readBody scope aliases trees)
      (StandFor (trees.filter (·.kind? == some .instruction))) := by
  induction trees with
  | nil => exact .pure .nil
  | cons tree rest ih =>
      obtain ⟨⟨hformed, -⟩, hrest⟩ := List.forall_mem_cons.mp h
      simp only [readBody]
      split
      · rename_i hkind
        rw [List.filter_cons_of_neg (by simp [hkind])]
        exact (ih hrest).follow fun statements => .pure fun hstatements =>
          (standFor_label _ _).append hstatements
      · rename_i hkind
        rw [List.filter_cons_of_pos (by simp [hkind])]
        refine (readInstruction_silently scope aliases ⟨hformed, by simp [hkind]⟩).follow
          fun first => (ih hrest).follow fun others => .pure fun hothers hfirst => ?_
        exact hfirst.standFor.append hothers
      · rename_i hlabel hinstruction
        rw [List.filter_cons_of_neg (by simpa using hinstruction)]
        exact ih hrest

/-- The instructions of a function or subroutine are those of its routine. -/
theorem readProcedure_silently {tree : SyntaxTree} (kind : RoutineKind) (h : tree.Formed)
    (hkind : tree.kind? = some .functionDefinition ∨ tree.kind? = some .subroutineDefinition) :
    Silently (readProcedure scope kind tree) fun routine =>
      StandFor (nodesOf .instruction tree) routine.statements := by
  have hnodes : ∃ own children, tree = .node own children ∧
      nodesOf .instruction tree = children.filter (·.kind? == some .instruction) := by
    cases tree with
    | token leaf => simp [kind?] at hkind
    | node own children =>
        have hfile : own ≠ .sourceFile := by
          rintro rfl
          simp [kind?] at hkind
        have hinstruction : own ≠ .instruction := by
          rintro rfl
          simp [kind?] at hkind
        exact ⟨own, children, rfl, by
          rw [nodesOf_of_ne hinstruction, h.children.nodesAmong_instruction hfile]⟩
  obtain ⟨own, children, rfl, hnodes⟩ := hnodes
  rw [hnodes]
  have hparameters (name : Bytes) (tokens : List Token) :
      Silently (bindParameters name [] 0 tokens) fun _ => True :=
    .of_erases fun _ => bindParameters_erases name [] 0 tokens
  have hpreserve (aliases : Aliases) (preserved : List Register) (range : SyntaxTree) :
      Silently (preserve scope aliases preserved range) fun _ => True :=
    .of_erases fun _ => preserve_erases scope aliases preserved range
  refine (hparameters _ _).follow fun aliases => ?_
  refine (Silently.foldlM (hpreserve aliases) _ _).follow fun preserved => ?_
  exact (readBody_silently scope aliases h.children).follow fun statements =>
    .pure fun hstatements _ _ => hstatements

/-- The routines of well-formed items hold the instructions of these, in their order, behind
those of the script that was open. -/
theorem readItems_silently {trees : List SyntaxTree}
    (h : SyntaxTree.AllFormed SyntaxKind.isItem trees) (current : Option Routine) :
    Silently (readItems scope current trees) fun routines => ∀ front, Share front current.toList →
      Share (front ++ nodesAmong .instruction trees) routines := by
  induction trees generalizing current with
  | nil => exact .pure fun front hfront => by simpa [nodesAmong] using hfront
  | cons tree rest ih =>
      obtain ⟨⟨hformed, hitem⟩, hrest⟩ := List.forall_mem_cons.mp h
      have hempty (hkind : tree.kind?.all
          (fun kind => !kind.holdsLines && kind != .instruction) = true) :
          nodesAmong .instruction (tree :: rest) = nodesAmong .instruction rest := by
        rw [nodesAmong, hformed.nodesOf_instruction hkind, List.nil_append]
      have hprocedure (kind : RoutineKind) (hkind : tree.kind? = some .functionDefinition ∨
          tree.kind? = some .subroutineDefinition) :
          Silently (do
            let routine ← readProcedure scope kind tree
            return current.toList ++ routine :: (← readItems scope none rest))
            fun routines => ∀ front, Share front current.toList →
              Share (front ++ nodesAmong .instruction (tree :: rest)) routines := by
        refine (readProcedure_silently scope kind hformed hkind).follow fun routine =>
          (ih hrest none).follow fun routines => .pure fun hroutines hroutine front hfront => ?_
        rw [nodesAmong]
        exact hfront.append ((share_singleton hroutine).append (hroutines [] Share.nil))
      simp only [readItems]
      split
      · rename_i hkind
        rw [hempty (by rw [hkind]; rfl)]
        exact (ih hrest _).follow fun routines => .pure fun hroutines front hfront =>
          hfront.append (hroutines [] (share_singleton .nil))
      · rename_i hkind
        cases current with
        | none => exact Silently.behind_report _ (ih hrest none)
        | some script =>
            have htree : nodesOf .instruction tree = [tree] := by
              cases tree with
              | token leaf => cases hkind
              | node own children =>
                  obtain rfl := Option.some.inj hkind
                  exact hformed.nodesOf_of_instruction
            refine (readInstruction_silently scope [] ⟨hformed, by rw [hkind]; rfl⟩).follow
              fun statement =>
                (ih hrest _).mono fun routines hroutines hstatement front hfront => ?_
            rw [nodesAmong, htree, ← List.append_assoc]
            exact hroutines _ (share_singleton (hfront.standFor.append hstatement.standFor))
      · rename_i hkind
        exact hprocedure .function (.inl hkind)
      · rename_i hkind
        exact hprocedure .subroutine (.inr hkind)
      · rename_i hkind
        rw [hempty (by rw [hkind]; rfl)]
        exact (ih hrest none).follow fun routines => .pure fun hroutines front hfront =>
          hfront.append (hroutines [] Share.nil)
      · -- Among items, only tokens are left.
        rename_i hlabel hinstruction hfunction hsubroutine hdefinition
        have hnone : tree.kind? = none := by
          cases hkind : tree.kind? with
          | none => rfl
          | some kind =>
              rw [hkind] at hitem
              cases kind <;> contradiction
        rw [hempty (by rw [hnone]; rfl)]
        exact ih hrest current

/-- The routines of a well-formed file that is resolved without a complaint. -/
theorem resolve_shares {tree : SyntaxTree} (h : tree.FormedAs (· == .sourceFile))
    (hclean : (resolve scope tree).2 = []) :
    Share (nodesOf .instruction tree) (resolve scope tree).1 := by
  obtain ⟨hformed, hkind⟩ := h
  cases tree with
  | token leaf => cases hkind
  | node kind children =>
      obtain rfl : kind = .sourceFile := beq_iff_eq.mp hkind
      have hread := (readItems_silently scope hformed.children none []).2 (by
        change (resolve scope (.node .sourceFile children)).2.length = 0
        rw [hclean, List.length_nil])
      rw [nodesOf_of_ne (by decide)]
      exact hread [] Share.nil

end Routine

end NovelAsm
