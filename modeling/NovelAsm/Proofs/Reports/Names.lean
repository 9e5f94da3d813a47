import NovelAsm.Proofs.Reports.Operands
import NovelAsm.Resolve.Routines

/-!
What is said when names are resolved. A tree is given by its tokens: its span runs from one of
them to a later one, or is the empty span at the beginning of the text. So the spans that are
allowed are asked for of the tokens of a text, and hold of every tree that is read from them.
-/

namespace NovelAsm

variable {allowed : Span → Prop}

/-- A text that stands at the beginning of a file keeps its places. -/
theorem Span.rebase_at_origin (span : Span) : span.rebase .origin = span := by
  have hplace (place : Location) : place.rebase .origin = place := by
    simp [Location.rebase, Location.origin]
  simp [Span.rebase, hplace]

/-- The spans of neighbouring tokens are allowed, and the spans from one of them to a later one;
so is the empty span of a text, and one that runs from it to a token. -/
structure Covered (allowed : Span → Prop) (tokens : List Token) : Prop where
  nothing : allowed .origin
  token : ∀ token ∈ tokens, allowed token.span
  front : ∀ token ∈ tokens, allowed (Span.origin.join token.span)
  join : tokens.Pairwise fun first last => allowed (first.span.join last.span)

theorem Covered.sublist {tokens more : List Token} (h : Covered allowed tokens)
    (hmore : more.Sublist tokens) : Covered allowed more :=
  ⟨h.nothing, fun token hmem => h.token token (hmore.subset hmem),
    fun token hmem => h.front token (hmore.subset hmem), h.join.sublist hmore⟩

namespace SyntaxTree

/-- The spans of a tree and of all its parts are allowed. -/
abbrev Within (allowed : Span → Prop) (tree : SyntaxTree) : Prop := Covered allowed tree.leaves

theorem leaves_sublist_leavesOf {trees : List SyntaxTree} {tree : SyntaxTree} (h : tree ∈ trees) :
    tree.leaves.Sublist (leavesOf trees) := by
  induction trees with
  | nil => cases h
  | cons first rest ih =>
      rw [leavesOf]
      rcases List.mem_cons.mp h with rfl | h
      · exact List.sublist_append_left _ _
      · exact (ih h).trans (List.sublist_append_right _ _)

theorem Within.child {tree child : SyntaxTree} (h : tree.Within allowed)
    (hchild : child ∈ tree.children) : child.Within allowed := by
  cases tree with
  | token leaf => cases hchild
  | node kind children =>
      rw [Within, leaves] at h
      exact h.sublist (leaves_sublist_leavesOf hchild)

theorem Within.childNode {tree child : SyntaxTree} (h : tree.Within allowed)
    (hchild : child ∈ tree.childNodes) : child.Within allowed :=
  h.child (List.mem_of_mem_filter hchild)

theorem Within.firstChild {tree child : SyntaxTree} (h : tree.Within allowed) {kind : SyntaxKind}
    (hchild : tree.firstChild? kind = some child) : child.Within allowed :=
  h.child (List.mem_of_find?_eq_some hchild)

theorem Within.token {tree : SyntaxTree} (h : tree.Within allowed) {token : Token}
    (htoken : token ∈ tree.tokens) : allowed token.span := by
  obtain ⟨child, hchild, hfound⟩ := List.mem_filterMap.mp htoken
  cases child with
  | node => cases hfound
  | token leaf =>
      simp only [Option.ite_none_right_eq_some, Option.some.injEq] at hfound
      have hleaf := h.child hchild
      rw [Within, leaves, hfound.2] at hleaf
      exact hleaf.token token (List.mem_singleton_self token)

theorem Within.firstToken {tree : SyntaxTree} (h : tree.Within allowed) {kind : TokenKind}
    {token : Token} (htoken : tree.firstToken? kind = some token) : allowed token.span :=
  h.token (List.mem_of_find?_eq_some htoken)

theorem Within.firstSignificant {tree : SyntaxTree} (h : tree.Within allowed) {token : Token}
    (htoken : tree.firstSignificant? = some token) : allowed token.span :=
  Covered.token h token (List.mem_of_find?_eq_some htoken)

theorem mem_leaves_of_lastSignificant? {tree : SyntaxTree} {token : Token}
    (h : tree.lastSignificant? = some token) : token ∈ tree.leaves ∧ token.isSignificant := by
  have hmem := List.mem_of_find?_eq_some h
  have hsignificant := List.find?_some h
  simp only [Bool.and_eq_true] at hsignificant
  exact ⟨List.mem_reverse.mp hmem, hsignificant.1⟩

/-- The span of a tree runs from a token to itself or to a later one. -/
theorem Within.span {tree : SyntaxTree} (h : tree.Within allowed) : allowed tree.span := by
  unfold SyntaxTree.span
  split
  · rename_i first last hfirst hlast
    obtain ⟨-, front, back, hleaves, hfront⟩ := List.find?_eq_some_iff_append.mp hfirst
    obtain ⟨hmem, hsignificant⟩ := mem_leaves_of_lastSignificant? hlast
    rw [hleaves] at hmem
    rcases List.mem_append.mp hmem with hmem | hmem
    · exact absurd hsignificant (by simpa using hfront last hmem)
    · rcases List.mem_cons.mp hmem with rfl | hmem
      · exact Within.firstSignificant h hfirst
      · have hjoin := Covered.join h
        rw [hleaves] at hjoin
        exact (List.pairwise_cons.mp (List.pairwise_append.mp hjoin).2.1).1 last hmem
  · exact Covered.nothing h

/-- The span from a tree to a later one that is not empty. -/
theorem allowed_join {tree other : SyntaxTree} (h : Covered allowed (tree.leaves ++ other.leaves))
    (hother : other.lastSignificant?.isSome = true)
    (hfirst : other.firstSignificant?.isSome = true) :
    allowed (tree.span.join other.span) := by
  obtain ⟨last, hlast⟩ := Option.isSome_iff_exists.mp hother
  obtain ⟨start, hstart⟩ := Option.isSome_iff_exists.mp hfirst
  have hmem := (mem_leaves_of_lastSignificant? hlast).1
  have hstop : other.span.stop = last.span.stop := by
    simp [SyntaxTree.span, hlast, hstart, Span.join]
  unfold Span.join
  rw [hstop]
  unfold SyntaxTree.span
  split
  · rename_i first final hfound hfinal
    exact (List.pairwise_append.mp h.join).2.2 first (List.mem_of_find?_eq_some hfound) last hmem
  · exact h.front last (List.mem_append_right _ hmem)

end SyntaxTree

namespace Naming

variable {σ : Type} {I : σ → Prop} {naming : Naming σ}

/-- A naming that keeps what holds of its state, with whatever is reported to it. -/
structure Maintaining (allowed : Span → Prop) (I : σ → Prop) (naming : Naming σ) : Prop where
  report : ∀ diagnostic : Diagnostic, diagnostic.Early allowed → ∀ state, I state →
    I (naming.report diagnostic state)
  meaning : ∀ name span, allowed span → Gives I (naming.meaning name span) fun _ => True
  register? : ∀ name span, allowed span → Gives I (naming.register? name span) fun _ => True

section Parts

variable (h : naming.Maintaining allowed I) {span : Span} (hspan : allowed span)

include h hspan

theorem Maintaining.complain (problem : NameProblem) :
    Gives I (naming.complain problem span) fun _ => True :=
  Gives.modify (h.report _ (problem.early hspan))

theorem Maintaining.readLiteral (token : Token) :
    Gives I (naming.readLiteral token span) fun expr => expr.Within allowed := by
  simp only [Naming.readLiteral]
  split
  · refine .pure ?_
    split <;> exact hspan
  · split
    · exact .pure hspan
    · exact (h.complain hspan _).map fun _ _ => hspan
  · split
    · exact .pure hspan
    · exact (h.complain hspan _).map fun _ _ => hspan

theorem Maintaining.readName (name : Bytes) :
    Gives I (naming.readName name span) fun expr => expr.Within allowed := by
  refine (h.meaning name span hspan).bind fun meaning _ => ?_
  split
  · exact .pure hspan
  · exact .pure hspan
  · exact .pure hspan
  · exact (h.complain hspan _).map fun _ _ => hspan

theorem Maintaining.readRegister (name : Bytes) :
    Gives I (naming.readRegister name span) fun expr => expr.Within allowed := by
  refine (h.register? name span hspan).bind fun register _ => ?_
  split <;> exact .pure hspan

end Parts

/-- The spans of a tree are allowed where its text stands. -/
abbrev ReadsWithin (allowed : Span → Prop) (naming : Naming σ) (tree : SyntaxTree) : Prop :=
  tree.Within fun span => allowed (span.rebase naming.base)

mutual

theorem Maintaining.read (h : naming.Maintaining allowed I) {tree : SyntaxTree}
    (htree : ReadsWithin allowed naming tree) :
    Gives I (naming.read tree) fun expr => expr.Within allowed := by
  match tree, htree with
  | .token leaf, htree =>
      rw [ReadsWithin, SyntaxTree.Within, SyntaxTree.leaves] at htree
      exact .pure (Covered.token htree leaf (List.mem_singleton_self leaf))
  | .node kind children, htree =>
      have hspan := SyntaxTree.Within.span htree
      have hall := h.readAll fun child hchild => SyntaxTree.Within.child htree hchild
      simp only [Naming.read]
      split
      · split
        · exact h.readLiteral hspan _
        · exact .pure hspan
      · split
        · exact h.readRegister hspan _
        · exact .pure hspan
      · split
        · exact h.readName hspan _
        · exact .pure hspan
      · refine hall.map fun exprs hexprs => ?_
        cases exprs with
        | nil => exact hspan
        | cons first rest => exact hexprs first (List.mem_cons_self ..)
      · refine hall.bind fun exprs hexprs => ?_
        split
        · exact .pure ⟨hspan, hexprs _ (List.mem_cons_self ..)⟩
        · exact .pure hspan
      · refine hall.bind fun exprs hexprs => ?_
        split
        · obtain ⟨hleft, hright⟩ := List.forall_mem_cons.mp hexprs
          exact .pure ⟨hspan, hleft, hright _ (List.mem_singleton_self _)⟩
        · exact .pure hspan
      · split
        · exact .pure hspan
        · exact (h.complain hspan _).map fun _ _ => hspan
        · exact hall.map fun exprs hexprs => ⟨hspan, Expr.allWithin_iff.mpr hexprs⟩
      · exact .pure hspan

theorem Maintaining.readAll (h : naming.Maintaining allowed I) {trees : List SyntaxTree}
    (htrees : ∀ tree ∈ trees, ReadsWithin allowed naming tree) :
    Gives I (naming.readAll trees) fun exprs => ∀ expr ∈ exprs, expr.Within allowed := by
  match trees, htrees with
  | [], _ => exact .pure nofun
  | .token _ :: rest, htrees =>
      change Gives I (naming.readAll rest) _
      exact h.readAll (List.forall_mem_cons.mp htrees).2
  | .node kind children :: rest, htrees =>
      obtain ⟨hfirst, hrest⟩ := List.forall_mem_cons.mp htrees
      exact (h.read hfirst).bind fun first hread => (h.readAll hrest).map fun exprs hexprs =>
        List.forall_mem_cons.mpr ⟨hread, hexprs⟩

end

theorem Maintaining.readCase (h : naming.Maintaining allowed I) {entry : SyntaxTree}
    (hentry : ReadsWithin allowed naming entry) :
    Gives I (naming.readCase entry) fun tableCase => tableCase.Within allowed := by
  have hspan := SyntaxTree.Within.span hentry
  refine (h.readAll fun child hchild => SyntaxTree.Within.child hentry hchild).map
    fun parts hparts => ⟨?_, ?_⟩
  · cases parts with
    | nil => exact hspan
    | cons first rest => exact hparts first (List.mem_cons_self ..)
  · by_cases hlength : 1 < parts.length
    · simp only [List.getD_eq_getElem _ _ hlength]
      exact hparts _ (List.getElem_mem hlength)
    · simp only [List.getD_eq_default _ _ (Nat.le_of_not_lt hlength)]
      exact hspan

theorem Maintaining.readArgument (h : naming.Maintaining allowed I) {tree : SyntaxTree}
    (htree : ReadsWithin allowed naming tree) :
    Gives I (naming.readArgument tree) fun argument => argument.Within allowed := by
  have hspan := SyntaxTree.Within.span htree
  simp only [Naming.readArgument]
  split
  · split
    · exact .pure hspan
    · exact .pure ⟨hspan, hspan⟩
  · exact (h.readAll fun child hchild => SyntaxTree.Within.child htree hchild).map
      fun exprs hexprs => ⟨hspan, hexprs⟩
  · exact (Gives.mapM _ fun entry hentry => h.readCase
      (SyntaxTree.Within.childNode htree hentry)).map fun cases hcases => ⟨hspan, hcases⟩
  · exact (h.read htree).map fun expr hexpr => ⟨hspan, hexpr⟩

end Naming

namespace Routine

theorem naming_early (scope : Scope) (aliases : Aliases) :
    (naming scope aliases).Maintaining allowed (Diagnostics.AllEarly allowed) where
  report _ h _ hstate := hstate.append (Diagnostics.allEarly_singleton h)
  meaning _ _ _ := .pure trivial
  register? name span hspan := by
    simp only [naming]
    split
    · exact .pure trivial
    · exact (NameProblem.report_early _ hspan).map fun _ _ => trivial

/-- A segment is read as if it stood alone, so its places stay as they are. -/
theorem reads_of_within {tree : SyntaxTree} (h : tree.Within allowed) (scope : Scope)
    (aliases : Aliases) : (naming scope aliases).ReadsWithin allowed tree := by
  have hsame : (fun span : Span => allowed (span.rebase .origin)) = allowed := by
    funext span
    rw [Span.rebase_at_origin]
  have hreads : tree.Within fun span : Span => allowed (span.rebase .origin) := hsame.symm ▸ h
  exact hreads

theorem bindParameters_early (function : Bytes) {seen : List Token} (position : Nat)
    {tokens : List Token} (hseen : ∀ token ∈ seen, allowed token.span)
    (h : ∀ token ∈ tokens, allowed token.span) :
    Says allowed (bindParameters function seen position tokens) fun _ => True := by
  induction tokens generalizing seen position with
  | nil => exact .pure trivial
  | cons token rest ih =>
      obtain ⟨htoken, hrest⟩ := List.forall_mem_cons.mp h
      simp only [bindParameters]
      split
      · exact (NameProblem.report_early _ htoken).bind fun _ _ => ih _ hseen hrest
      · split
        · rename_i earlier hearlier
          have hspan := hseen earlier (List.mem_of_find?_eq_some hearlier)
          exact (Reporting.report_early (NameProblem.duplicate_early _ htoken hspan)).bind
            fun _ _ => ih _ hseen hrest
        · have hbehind : ∀ other ∈ token :: seen, allowed other.span :=
            List.forall_mem_cons.mpr ⟨htoken, hseen⟩
          split
          · exact (NameProblem.report_early _ htoken).bind fun _ _ =>
              (ih _ hbehind hrest).map fun _ _ => trivial
          · exact (ih _ hbehind hrest).map fun _ _ => trivial

theorem preservedEnd?_early (scope : Scope) (aliases : Aliases) {token : Token}
    (h : allowed token.span) :
    Says allowed (preservedEnd? scope aliases token) fun _ => True := by
  simp only [preservedEnd?]
  split
  · exact (NameProblem.report_early _ h).map fun _ _ => trivial
  · split
    · exact (NameProblem.report_early _ h).map fun _ _ => trivial
    · split
      · exact (NameProblem.report_early _ h).map fun _ _ => trivial
      · exact .pure trivial

theorem addRange_early {span : Span} (h : allowed span) (preserved registers : List Register) :
    Says allowed (addRange span preserved registers) fun _ => True := by
  induction registers generalizing preserved with
  | nil => exact .pure trivial
  | cons register rest ih =>
      simp only [addRange]
      split
      · exact (NameProblem.report_early _ h).bind fun _ _ => ih _
      · exact ih _

/-- Adding a range whose ends are known. -/
theorem preserveBetween_early {span : Span} (h : allowed span) (preserved : List Register)
    (first last : Option Register) :
    Says allowed (match first, last with
      | some first, some last =>
          if last.index < first.index then do
            NameProblem.reversedRange.report span
            return preserved
          else addRange span preserved (valueRange first.index last.index)
      | _, _ => return preserved) fun _ => True := by
  split
  · split
    · exact (NameProblem.report_early _ h).map fun _ _ => trivial
    · exact addRange_early h _ _
  · exact .pure trivial

theorem preserve_early (scope : Scope) (aliases : Aliases) (preserved : List Register)
    {range : SyntaxTree} (h : range.Within allowed) :
    Says allowed (preserve scope aliases preserved range) fun _ => True := by
  have htoken : ∀ token ∈ registerTokens range, allowed token.span :=
    fun token htoken => h.token (List.mem_of_mem_filter htoken)
  simp only [preserve]
  split
  · exact .pure trivial
  · rename_i token more htokens
    rw [htokens] at htoken
    obtain ⟨hfirst, hmore⟩ := List.forall_mem_cons.mp htoken
    refine (preservedEnd?_early scope aliases hfirst).bind fun first _ => ?_
    split
    · rename_i last hlast
      exact (preservedEnd?_early scope aliases (hmore last (List.mem_of_getLast? hlast))).bind
        fun last _ => preserveBetween_early h.span preserved first last
    · exact preserveBetween_early h.span preserved first first

theorem readInstruction_early (scope : Scope) (aliases : Aliases) {tree : SyntaxTree}
    (h : tree.Within allowed) :
    Says allowed (readInstruction scope aliases tree) fun statement =>
      statement.Within allowed := by
  simp only [readInstruction]
  split
  · rename_i list hlist
    refine (Gives.mapM _ fun argument hargument => (naming_early scope aliases).readArgument
      (reads_of_within ((h.firstChild hlist).childNode hargument) scope aliases)).map
        fun arguments harguments => ⟨h.span, harguments⟩
  · exact .pure ⟨h.span, nofun⟩

theorem readBody_early (scope : Scope) (aliases : Aliases) {trees : List SyntaxTree}
    (h : ∀ tree ∈ trees, tree.Within allowed) :
    Says allowed (readBody scope aliases trees) fun statements =>
      ∀ statement ∈ statements, statement.Within allowed := by
  induction trees with
  | nil => exact .pure nofun
  | cons tree rest ih =>
      obtain ⟨htree, hrest⟩ := List.forall_mem_cons.mp h
      simp only [readBody]
      split
      · exact (ih hrest).map fun statements hstatements =>
          List.forall_mem_cons.mpr ⟨htree.span, hstatements⟩
      · exact (readInstruction_early scope aliases htree).bind fun first hfirst =>
          (ih hrest).map fun statements hstatements =>
            List.forall_mem_cons.mpr ⟨hfirst, hstatements⟩
      · exact ih hrest

theorem readProcedure_early (scope : Scope) (kind : RoutineKind) {tree : SyntaxTree}
    (h : tree.Within allowed) :
    Says allowed (readProcedure scope kind tree) fun routine => routine.Within allowed := by
  have hparameters : ∀ token ∈ ((tree.firstChild? .parameterList).map registerTokens).getD [],
      allowed token.span := by
    cases hlist : tree.firstChild? .parameterList with
    | none => nofun
    | some list =>
        exact fun token htoken => (h.firstChild hlist).token (List.mem_of_mem_filter htoken)
  have hranges : ∀ range ∈ ((tree.firstChild? .preservedRangeList).map
      SyntaxTree.childNodes).getD [], range.Within allowed := by
    cases hlist : tree.firstChild? .preservedRangeList with
    | none => nofun
    | some list => exact fun range hrange => (h.firstChild hlist).childNode hrange
  refine (bindParameters_early _ _ nofun hparameters).bind fun aliases _ => ?_
  refine (Gives.foldlM _ (fun preserved _ range hrange =>
    preserve_early scope aliases preserved (hranges range hrange)) trivial).bind
      fun preserved _ => ?_
  exact (readBody_early scope aliases fun child hchild => h.child hchild).map
    fun statements hstatements => ⟨h.span, hstatements⟩

/-- The script that is open before some items can be extended by each of their instructions. -/
def Open (allowed : Span → Prop) (items : List SyntaxTree) (script : Routine) : Prop :=
  script.Within allowed ∧ ∀ tree ∈ items, tree.kind? = some .instruction →
    allowed (script.span.join tree.span)

theorem readItems_early (scope : Scope) {current : Option Routine} {items : List SyntaxTree}
    (hcurrent : ∀ script ∈ current, Open allowed items script)
    (h : ∀ tree ∈ items, tree.Within allowed)
    (hjoin : items.Pairwise fun first last => last.kind? = some .instruction →
      allowed (first.span.join last.span)) :
    Says allowed (readItems scope current items) fun routines =>
      ∀ routine ∈ routines, routine.Within allowed := by
  induction items generalizing current with
  | nil =>
      exact .pure fun routine hroutine => (hcurrent routine (Option.mem_toList.mp hroutine)).1
  | cons tree rest ih =>
      obtain ⟨htree, hrest⟩ := List.forall_mem_cons.mp h
      obtain ⟨hjoins, hjoinRest⟩ := List.pairwise_cons.mp hjoin
      have hclosed : ∀ routine ∈ current.toList, routine.Within allowed := fun routine hroutine =>
        (hcurrent routine (Option.mem_toList.mp hroutine)).1
      have hnone : ∀ script ∈ (none : Option Routine), Open allowed rest script := nofun
      have hproceed : ∀ script ∈ current, Open allowed rest script := fun script hscript =>
        ⟨(hcurrent script hscript).1, fun other hother =>
          (hcurrent script hscript).2 other (List.mem_cons_of_mem _ hother)⟩
      simp only [readItems]
      split
      · have hopen : ∀ script ∈ some (openScript tree), Open allowed rest script := by
          intro script hscript
          cases hscript
          exact ⟨⟨htree.span, nofun⟩, hjoins⟩
        exact (ih hopen hrest hjoinRest).map fun routines hroutines =>
          List.forall_mem_append.mpr ⟨hclosed, hroutines⟩
      · rename_i hkind
        split
        · rename_i script
          obtain ⟨hscript, hextends⟩ := hcurrent script rfl
          refine (readInstruction_early scope [] htree).bind fun statement hstatement => ?_
          refine ih (fun extended hextended => ?_) hrest hjoinRest
          cases hextended
          refine ⟨⟨hextends tree (List.mem_cons_self ..) hkind, List.forall_mem_append.mpr
            ⟨hscript.statements, List.forall_mem_singleton.mpr hstatement⟩⟩, ?_⟩
          exact fun other hother => hextends other (List.mem_cons_of_mem _ hother)
        · exact (NameProblem.report_early _ htree.span).bind fun _ _ => ih hnone hrest hjoinRest
      · exact (readProcedure_early scope _ htree).bind fun routine hroutine =>
          (ih hnone hrest hjoinRest).map fun routines hroutines => List.forall_mem_append.mpr
            ⟨hclosed, List.forall_mem_cons.mpr ⟨hroutine, hroutines⟩⟩
      · exact (readProcedure_early scope _ htree).bind fun routine hroutine =>
          (ih hnone hrest hjoinRest).map fun routines hroutines => List.forall_mem_append.mpr
            ⟨hclosed, List.forall_mem_cons.mpr ⟨hroutine, hroutines⟩⟩
      · exact (ih hnone hrest hjoinRest).map fun routines hroutines =>
          List.forall_mem_append.mpr ⟨hclosed, hroutines⟩
      · exact ih hproceed hrest hjoinRest

/-- What is said when a tree is resolved, and the spans of its routines. A script reaches from its
label to its last instruction. -/
theorem resolve_early (scope : Scope) {tree : SyntaxTree} (h : tree.Within allowed)
    (hjoin : tree.children.Pairwise fun first last => last.kind? = some .instruction →
      allowed (first.span.join last.span)) :
    (∀ routine ∈ (resolve scope tree).1, routine.Within allowed) ∧
      (resolve scope tree).2.AllEarly allowed := by
  have hnone : ∀ script ∈ (none : Option Routine), Open allowed tree.children script := nofun
  exact (readItems_early scope hnone (fun _ hchild => h.child hchild) hjoin).run

end Routine

end NovelAsm
