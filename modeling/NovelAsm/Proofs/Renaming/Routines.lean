import NovelAsm.Proofs.Renaming.Declarations
import NovelAsm.Proofs.Resolve.Faultless
import NovelAsm.Proofs.SyntaxTree.Grammar

/-!
Routines with other names. In a function, an alias of a parameter is bound before all else, so
another alias that does not occur can stand for it; then the routines of a file are the same but
for the names in them (`Routine.readItems_accompanies`).
-/

namespace NovelAsm

open SyntaxTree Naming

/-- A scope in which symbols have other names. -/
structure Scope.Renamed (symbol : Bytes → Bytes) (scope other : Scope) : Prop where
  value : ∀ name, other.findValue? (symbol name) = scope.findValue? name
  symbol : ∀ name, other.findSymbol? (symbol name) =
    (scope.findSymbol? name).map (Symbol.rename (.ofSymbol symbol))
  register : ∀ name, other.findRegister? name = scope.findRegister? name

theorem Scope.renamed_rename {symbol : Bytes → Bytes} (hinjective : Function.Injective symbol)
    {scope : Scope} (hvalue : ∀ name, scope.findValue? (symbol name) = scope.findValue? name) :
    Renamed symbol scope (scope.rename (.ofSymbol symbol)) where
  value := hvalue
  symbol := @findSymbol?_rename (.ofSymbol symbol) hinjective scope
  register _ := rfl

def Statement.rename (names : Names) : Statement → Statement
  | .label span name => .label span (names.symbol name)
  | .instruction span mnemonic arguments =>
      .instruction span mnemonic (arguments.map (Argument.rename names))

namespace Routine

/-- A routine with other names. -/
def rename (names : Names) (routine : Routine) : Routine :=
  { routine with
    name := names.symbol routine.name
    statements := routine.statements.map (Statement.rename names) }

def renameAliases (names : Names) (aliases : Aliases) : Aliases :=
  aliases.map fun entry => (names.register entry.1, entry.2)

/-- The tokens of the parameters of a function. -/
def parameterTokens (tree : SyntaxTree) : List Token :=
  ((tree.firstChild? .parameterList).map registerTokens).getD []

variable {names : Names} {known : Bytes → Prop} {symbol : Bytes → Bytes} {scope other : Scope}
  {aliases : Aliases}

theorem lookup?_rename (hinjective : Function.Injective names.register) (aliases : Aliases)
    (name : Bytes) :
    (renameAliases names aliases).lookup? (names.register name) = aliases.lookup? name := by
  rw [Aliases.lookup?, renameAliases, List.find?_map, Option.map_map]
  change (aliases.find? fun entry => names.register entry.1 == names.register name).map Prod.snd = _
  simp only [hinjective.beq_eq]
  rfl

/-! ## Parameters -/

/-- Other names for the registers of a tree with some aliases. What is changed is bound. -/
structure Rebinds (names : Names) (known : Bytes → Prop) (aliases : Aliases) : Prop where
  injective : Function.Injective names.register
  bound : ∀ name, known name → names.register name ≠ name → (aliases.lookup? name).isSome = true

theorem Rebinds.lookup? (h : Rebinds names known aliases) (name : Bytes) :
    (renameAliases names aliases).lookup? (names.register name) = aliases.lookup? name :=
  lookup?_rename h.injective aliases name

/-- A name that is not bound is not changed. -/
theorem Rebinds.eq_of_lookup? (h : Rebinds names known aliases) {name : Bytes} (hname : known name)
    (hnone : aliases.lookup? name = none) : names.register name = name := by
  by_contra hother
  have hbound := h.bound name hname hother
  rw [hnone] at hbound
  cases hbound

theorem registerNamed?_rename (hscope : scope.Renamed symbol other)
    (h : Rebinds names known aliases) {name : Bytes} (hname : known name) :
    registerNamed? other (renameAliases names aliases) (names.register name) =
      registerNamed? scope aliases name := by
  rw [registerNamed?, h.lookup?, registerNamed?]
  cases hlookup : aliases.lookup? name with
  | some register => rfl
  | none => rw [h.eq_of_lookup? hname hlookup, hscope.register]

theorem naming_renames (hsymbol : names.symbol = symbol) (hscope : scope.Renamed symbol other)
    (h : Rebinds names known aliases) :
    (naming scope aliases).Renames List.length names known
      (naming other (renameAliases names aliases)) where
  base := rfl
  loud diagnostic state := by
    have hlength : ((naming scope aliases).report diagnostic state).length = state.length + 1 :=
      List.length_append
    omega
  meaning name span := by
    subst hsymbol
    refine .pure ?_
    rw [hscope.value, hscope.symbol]
    cases scope.findValue? name with
    | some value => rfl
    | none => cases scope.findSymbol? name <;> rfl
  register name span hname := by
    simp only [naming, registerNamed?_rename hscope h hname]
    cases registerNamed? scope aliases name with
    | some register => exact .pure rfl
    | none => exact Repeats.behind_report _ (Silently.pure trivial : Silently _ fun _ => True)

theorem text_parameter (token : Token) :
    (names.token .parameterList token).text = names.register token.text := rfl

theorem bindParameters_grows (function : Bytes) (seen : List Token) (position : Nat)
    (tokens : List Token) : Silently (bindParameters function seen position tokens) fun _ => True :=
  .of_erases fun _ => bindParameters_erases function seen position tokens

theorem bindParameters_repeats (hinjective : Function.Injective names.register)
    (function twin : Bytes) (seen : List Token) (position : Nat) {tokens : List Token}
    (hbuiltin : ∀ token ∈ tokens, Register.parse? token.text = none →
      Register.parse? (names.register token.text) = none) :
    Repeats (renameAliases names) (bindParameters function seen position tokens)
      (bindParameters twin (seen.map (names.token .parameterList)) position
        (tokens.map (names.token .parameterList))) := by
  induction tokens generalizing seen position with
  | nil => exact .pure rfl
  | cons token rest ih =>
      obtain ⟨htoken, hrest⟩ := List.forall_mem_cons.mp hbuiltin
      have hseen : (seen.map (names.token .parameterList)).find?
          (·.text == names.register token.text) = (seen.find? (·.text == token.text)).map
            (names.token .parameterList) := by
        rw [List.find?_map]
        congr 2
        funext earlier
        exact (hinjective.beq_eq : (names.register earlier.text == names.register token.text) = _)
      simp only [List.map_cons, bindParameters, text_parameter, hseen]
      cases hparsed : Register.parse? token.text with
      | some builtin =>
          exact Repeats.behind_report _ (bindParameters_grows function seen (position + 1) rest)
      | none =>
          rw [htoken hparsed]
          refine .ite Iff.rfl (Repeats.behind_report _ (bindParameters_grows _ _ _ _)) ?_
          cases seen.find? (·.text == token.text) with
          | some earlier => exact Repeats.behind_report _ (bindParameters_grows _ _ _ _)
          | none =>
              have hothers := ih (token :: seen) (position + 1) hrest
              refine .ite Iff.rfl (@Repeats.behind_report _ _ _ _ _ (fun _ => True) _ ?_)
                (hothers.map fun others => ?_)
              · exact (bindParameters_grows _ _ _ _).follow fun _ => .pure fun _ => trivial
              · rw [renameAliases, renameAliases, List.map_append, List.map_map]
                rfl

/-- Every parameter of a function is bound, if nothing is reported. -/
theorem bindParameters_binds (function : Bytes) (seen : List Token) (position : Nat)
    (tokens : List Token) : Silently (bindParameters function seen position tokens) fun aliases =>
      ∀ token ∈ tokens, (aliases.lookup? token.text).isSome = true := by
  induction tokens generalizing seen position with
  | nil => exact .pure (List.forall_mem_nil _)
  | cons token rest ih =>
      simp only [bindParameters]
      split
      · exact .behind_report _ (bindParameters_grows function seen (position + 1) rest)
      · split
        · exact .behind_report _ (bindParameters_grows function seen (position + 1) rest)
        · split
          · refine @Silently.behind_report _ _ (fun _ => True) _ _ ?_
            exact (bindParameters_grows function (token :: seen) (position + 1) rest).follow
              fun _ => .pure fun _ => trivial
          · rename_i hlimit
            have hargument : Register.argument? position = some (.argument ⟨position, by
                unfold NameProblem.parameterLimit at hlimit
                omega⟩) := by
              rw [Register.argument?, dif_pos]
            simp only [hargument]
            refine (ih (token :: seen) (position + 1)).follow fun others => .pure fun hothers => ?_
            refine List.forall_mem_cons.mpr ⟨?_, fun later hlater => ?_⟩
            · simp [Aliases.lookup?]
            · have hlater := hothers later hlater
              rw [Aliases.lookup?, Option.isSome_map, List.find?_isSome] at hlater ⊢
              obtain ⟨entry, hentry, hname⟩ := hlater
              exact ⟨entry, List.mem_append_right _ hentry, hname⟩

/-! ## Preserved ranges -/

theorem text_range (token : Token) :
    (names.token .registerRange token).text = names.register token.text := rfl

theorem registerTokens_recast (kind : SyntaxKind) (children : List SyntaxTree) :
    registerTokens (.node kind (recastAll names.token kind children)) =
      (registerTokens (.node kind children)).map (names.token kind) := by
  rw [registerTokens, tokens_recast, List.filter_map]
  rfl

theorem preservedEnd?_repeats (hscope : scope.Renamed symbol other)
    (h : Rebinds names known aliases) {token : Token} (hname : known token.text) :
    Repeats id (preservedEnd? scope aliases token)
      (preservedEnd? other (renameAliases names aliases) (names.token .registerRange token)) := by
  have hrefuse (problem : NameProblem) (step : Reporting (Option Register)) :
      Repeats id (do problem.report token.span; return (none : Option Register)) step :=
    Repeats.behind_report _ (Silently.pure trivial : Silently _ fun _ => True)
  simp only [preservedEnd?, text_range, h.lookup?]
  cases hlookup : aliases.lookup? token.text with
  | some register => exact hrefuse _ _
  | none =>
      have hnamed : registerNamed? other [] token.text = registerNamed? scope [] token.text := by
        rw [registerNamed?, hscope.register, registerNamed?]
      rw [h.eq_of_lookup? hname hlookup, hnamed]
      cases registerNamed? scope [] token.text with
      | none => exact hrefuse _ _
      | some register =>
          change Repeats id (if register.isArgument then _ else _)
            (if register.isArgument then _ else _)
          exact .ite Iff.rfl (hrefuse _ _) (.pure rfl)

theorem preserve_repeats (hscope : scope.Renamed symbol other) (h : Rebinds names known aliases)
    (preserved : List Register) {children : List SyntaxTree}
    (hknown : AllKnown known (.node .registerRange children)) (parent : SyntaxKind) :
    Repeats id (preserve scope aliases preserved (.node .registerRange children))
      (preserve other (renameAliases names aliases) preserved
        ((SyntaxTree.node .registerRange children).recast names.token parent)) := by
  have hends : ∀ token ∈ registerTokens (.node .registerRange children), known token.text :=
    fun token htoken => hknown token (mem_leaves_of_mem_tokens (List.mem_filter.mp htoken).1)
  have hspan := span_recast names (.node .registerRange children) parent
  simp only [recast_node] at hspan ⊢
  simp only [preserve, registerTokens_recast, hspan]
  cases hregisters : registerTokens (.node .registerRange children) with
  | nil => exact .pure rfl
  | cons token more =>
      rw [hregisters] at hends
      have hfirst := preservedEnd?_repeats hscope h (hends token (List.mem_cons_self ..))
      simp only [List.map_cons, List.getLast?_map]
      refine hfirst.bind fun first => ?_
      cases hlast : more.getLast? with
      | none => exact Repeats.of_erases fun _ => preserveBetween_erases _ _ first first
      | some token =>
          have hlastKnown := hends token (List.mem_cons_of_mem _ (List.mem_of_getLast? hlast))
          exact (preservedEnd?_repeats hscope h hlastKnown).bind fun last =>
            Repeats.of_erases fun _ => preserveBetween_erases _ _ first last

/-! ## Statements -/

theorem readInstruction_repeats (hsymbol : names.symbol = symbol)
    (hscope : scope.Renamed symbol other) (h : Rebinds names known aliases) {tree : SyntaxTree}
    (hformed : tree.FormedAs (· == .instruction)) (hword : tree.BeginsWithWord)
    (hknown : AllKnown known tree) (parent : SyntaxKind) :
    Repeats (Statement.rename names) (readInstruction scope aliases tree)
      (readInstruction other (renameAliases names aliases) (tree.recast names.token parent)) := by
  cases tree with
  | token leaf => cases hformed.2
  | node kind children =>
      obtain rfl : kind = .instruction := beq_iff_eq.mp hformed.2
      have hspan := span_recast names (.node .instruction children) parent
      have hheaded : Headed children := Worded.headed (hword rfl)
      have hmnemonic : ((SyntaxTree.node .instruction (recastAll names.token .instruction
          children)).firstSignificant?.map Token.text).getD [] =
            ((SyntaxTree.node .instruction children).firstSignificant?.map Token.text).getD [] := by
        rw [firstSignificant?_recast names hheaded, Option.map_map]
        rfl
      rw [recast_node] at hspan ⊢
      simp only [readInstruction, hspan, hmnemonic, firstChild?_recast]
      cases hlist : (SyntaxTree.node .instruction children).firstChild? .argumentList with
      | none => exact .pure rfl
      | some list =>
          have hmem : list ∈ children := List.mem_of_find?_eq_some hlist
          have hlistKind := List.find?_some hlist
          have hlistFormed := (hformed.1.children list hmem).1
          have hlistKnown := hknown.child hmem
          cases list with
          | token leaf => cases hlistKind
          | node own operands =>
              obtain rfl : own = .argumentList := Option.some.inj (beq_iff_eq.mp hlistKind)
              simp only [Option.map_some, recast_node, childNodes_recast]
              rw [recastAll_eq_map]
              refine Follows.map (Follows.mapM fun operand hoperand => ?_) fun arguments => rfl
              exact readArgument_follows (naming_renames hsymbol hscope h)
                (hlistFormed.children.formedAs hoperand)
                (hlistKnown.child (List.mem_filter.mp hoperand).1) _

/-- The name that a node introduces, if it has one. -/
theorem nameOf_recast (hempty : names.symbol [] = []) {tree : SyntaxTree}
    (hkind : tree.kind?.any SyntaxKind.namesSymbol = true) (parent : SyntaxKind) :
    nameOf (tree.recast names.token parent) = names.symbol (nameOf tree) := by
  cases tree with
  | token leaf => cases hkind
  | node kind children =>
      have hkind : kind.namesSymbol = true := hkind
      rw [nameOf, recast_node, firstToken?_recast, nameOf]
      cases (SyntaxTree.node kind children).firstToken? .identifier with
      | none => exact hempty.symm
      | some token => simp [Names.token, Names.text, hkind]

theorem readBody_repeats (hempty : names.symbol [] = []) (hsymbol : names.symbol = symbol)
    (hscope : scope.Renamed symbol other) (h : Rebinds names known aliases) {kind : SyntaxKind}
    {trees : List SyntaxTree} (hformed : SyntaxTree.AllFormed kind.admits trees)
    (hwords : ∀ tree ∈ trees, tree.BeginsWithWord) (hknown : ∀ tree ∈ trees, AllKnown known tree) :
    Repeats (List.map (Statement.rename names)) (readBody scope aliases trees)
      (readBody other (renameAliases names aliases) (recastAll names.token kind trees)) := by
  induction trees with
  | nil => exact .pure rfl
  | cons tree rest ih =>
      obtain ⟨hfirst, hrest⟩ := List.forall_mem_cons.mp hformed
      obtain ⟨hword, hwords⟩ := List.forall_mem_cons.mp hwords
      obtain ⟨htreeKnown, hknown⟩ := List.forall_mem_cons.mp hknown
      have hbehind := ih hrest hwords hknown
      simp only [recastAll_cons, readBody, kind?_recast, span_recast]
      split
      · rename_i hkind
        rw [nameOf_recast hempty (by rw [hkind]; rfl)]
        exact hbehind.map fun statements => rfl
      · rename_i hkind
        exact (readInstruction_repeats hsymbol hscope h ⟨hfirst.1, by rw [hkind]; rfl⟩ hword
          htreeKnown kind).bind fun first => hbehind.map fun statements => rfl
      · exact hbehind

/-! ## Functions and subroutines -/

/-- Names for an item with which its parameters can be bound: others take the place of some of
them, and none is builtin. -/
structure Refreshes (names : Names) (tree : SyntaxTree) : Prop where
  injective : Function.Injective names.register
  builtin : ∀ leaf ∈ tree.leaves, Register.parse? leaf.text = none →
    Register.parse? (names.register leaf.text) = none
  moved : ∀ leaf ∈ tree.leaves, names.register leaf.text ≠ leaf.text →
    ∃ token ∈ parameterTokens tree, token.text = leaf.text

/-- Names that are written in a tree. -/
def WrittenIn (tree : SyntaxTree) (name : Bytes) : Prop := ∃ leaf ∈ tree.leaves, leaf.text = name

theorem allKnown_writtenIn (tree : SyntaxTree) : AllKnown (WrittenIn tree) tree :=
  fun leaf hleaf => ⟨leaf, hleaf, rfl⟩

/-- Aliases in which all parameters of an item are bound. -/
theorem Refreshes.rebinds {tree : SyntaxTree} (h : Refreshes names tree)
    (hbound : ∀ token ∈ parameterTokens tree, (aliases.lookup? token.text).isSome = true) :
    Rebinds names (WrittenIn tree) aliases where
  injective := h.injective
  bound name hname hmoved := by
    obtain ⟨leaf, hleaf, rfl⟩ := hname
    obtain ⟨token, htoken, htext⟩ := h.moved leaf hleaf hmoved
    exact htext ▸ hbound token htoken

theorem mem_leaves_of_mem_parameterTokens {kind : SyntaxKind} {children : List SyntaxTree}
    {token : Token} (h : token ∈ parameterTokens (.node kind children)) :
    token ∈ (SyntaxTree.node kind children).leaves := by
  rw [parameterTokens] at h
  cases hlist : (SyntaxTree.node kind children).firstChild? .parameterList with
  | none =>
      rw [hlist] at h
      cases h
  | some list =>
      rw [hlist] at h
      have hmem : list ∈ children := List.mem_of_find?_eq_some hlist
      exact @mem_leaves_of_mem_children (.node kind children) list hmem token
        (mem_leaves_of_mem_tokens (List.mem_filter.mp h).1)

theorem parameterTokens_recast (kind : SyntaxKind) (children : List SyntaxTree) :
    parameterTokens (.node kind (recastAll names.token kind children)) =
      (parameterTokens (.node kind children)).map (names.token .parameterList) := by
  rw [parameterTokens, firstChild?_recast, parameterTokens]
  cases hlist : (SyntaxTree.node kind children).firstChild? .parameterList with
  | none => rfl
  | some list =>
      have hlistKind := List.find?_some hlist
      cases list with
      | token leaf => cases hlistKind
      | node own tokens =>
          obtain rfl : own = .parameterList := Option.some.inj (beq_iff_eq.mp hlistKind)
          exact registerTokens_recast .parameterList tokens

/-- The ranges that a function preserves. -/
theorem foldlM_preserve_repeats (hscope : scope.Renamed symbol other)
    (h : Rebinds names known aliases) {kind : SyntaxKind} {children : List SyntaxTree}
    (hformed : (SyntaxTree.node kind children).Formed)
    (hknown : AllKnown known (.node kind children)) :
    let ranges (tree : SyntaxTree) :=
      ((tree.firstChild? .preservedRangeList).map SyntaxTree.childNodes).getD []
    Repeats id ((ranges (.node kind children)).foldlM (preserve scope aliases) [])
      ((ranges (.node kind (recastAll names.token kind children))).foldlM
        (preserve other (renameAliases names aliases)) []) := by
  simp only [firstChild?_recast]
  cases hlist : (SyntaxTree.node kind children).firstChild? .preservedRangeList with
  | none => exact .pure rfl
  | some list =>
      have hmem : list ∈ children := List.mem_of_find?_eq_some hlist
      have hlistKind := List.find?_some hlist
      have hlistFormed := (hformed.children list hmem).1
      have hlistKnown := hknown.child hmem
      cases list with
      | token leaf => cases hlistKind
      | node own ranges =>
          obtain rfl : own = .preservedRangeList := Option.some.inj (beq_iff_eq.mp hlistKind)
          simp only [Option.map_some, Option.getD_some, recast_node, childNodes_recast]
          rw [recastAll_eq_map]
          refine Follows.foldlM (fun preserved range hrange => ?_) []
          have hrangeKnown := hlistKnown.child (List.mem_filter.mp hrange).1
          obtain ⟨-, hrangeKind⟩ := hlistFormed.children.formedAs hrange
          cases range with
          | token leaf => cases hrangeKind
          | node inner tokens =>
              obtain rfl : inner = .registerRange := beq_iff_eq.mp hrangeKind
              exact preserve_repeats hscope h preserved hrangeKnown _

theorem readProcedure_repeats (hempty : names.symbol [] = []) (hsymbol : names.symbol = symbol)
    (hscope : scope.Renamed symbol other) {tree : SyntaxTree} (hrefresh : Refreshes names tree)
    (hformed : tree.Formed) (hwords : tree.LinesBegin)
    (hkind : tree.kind? = some .functionDefinition ∨
      tree.kind? = some .subroutineDefinition) (kind : RoutineKind) (parent : SyntaxKind) :
    Repeats (rename names) (readProcedure scope kind tree)
      (readProcedure other kind (tree.recast names.token parent)) := by
  have hname := @nameOf_recast names hempty tree
    (by rcases hkind with hkind | hkind <;> rw [hkind] <;> rfl) parent
  have hspan := span_recast names tree parent
  have hlines := hwords.below (by rcases hkind with hkind | hkind <;> rw [hkind] <;> rfl)
  cases tree with
  | token leaf => rcases hkind with hkind | hkind <;> cases hkind
  | node own children =>
      have hknown := allKnown_writtenIn (.node own children)
      have hbind := bindParameters_repeats hrefresh.injective (nameOf (.node own children))
        (nameOf ((SyntaxTree.node own children).recast names.token parent)) [] 0
        fun token (htoken : token ∈ parameterTokens (.node own children)) =>
          hrefresh.builtin token (mem_leaves_of_mem_parameterTokens htoken)
      rw [List.map_nil, ← parameterTokens_recast] at hbind
      rw [recast_node] at hname hspan hbind ⊢
      refine hbind.bind_silently (bindParameters_binds _ _ _ _) (fun aliases => ?_)
        fun aliases hbound => ?_
      · refine (Silently.foldlM (fun preserved range =>
          .of_erases fun _ => preserve_erases scope aliases preserved range) _ _).follow
            fun preserved => ?_
        exact (Silently.of_erases fun _ => readBody_erases scope aliases children).follow
          fun statements => .pure fun _ _ => trivial
      · have hrebinds := hrefresh.rebinds hbound
        refine (foldlM_preserve_repeats hscope hrebinds hformed hknown).bind fun preserved => ?_
        refine (readBody_repeats hempty hsymbol hscope hrebinds hformed.children hlines
          fun child hchild => hknown.child hchild).map fun statements => ?_
        have hcount := congrArg List.length (@parameterTokens_recast names own children)
        rw [List.length_map] at hcount
        rw [hname, hspan, rename]
        exact congrArg (Routine.mk kind _ · _ _ _) hcount

/-! ## Files -/

/-- A routine that another one is with other names. -/
def RenamedTo (symbol : Bytes → Bytes) (routine twin : Routine) : Prop :=
  ∃ names : Names, names.symbol = symbol ∧ twin = routine.rename names

theorem rename_extend (script : Routine) (statement : Statement) (span : Span) :
    (script.rename names).extend (statement.rename names) span =
      (script.extend statement span).rename names := by
  simp [extend, rename]

/-- Reading on behind an item goes the same way with other names, whatever script is open. -/
def ReadsOn (symbol : Bytes → Bytes) (scope other : Scope) (items twins : List SyntaxTree) : Prop :=
  ∀ current : Option Routine, Accompanies List.length (List.Forall₂ (RenamedTo symbol))
    (readItems scope current items)
      (readItems other (current.map (rename (.ofSymbol symbol))) twins)

theorem readItems_grows (scope : Scope) (items : List SyntaxTree) (current : Option Routine)
    (state : Diagnostics) : state.length ≤ (readItems scope current items state).2.length :=
  (Silently.of_erases (fun _ => readItems_erases scope current items) state).1

/-- The script that is open, which is closed by whatever is no instruction. -/
theorem renamedTo_current (current : Option Routine) : List.Forall₂ (RenamedTo symbol)
    current.toList (current.map (rename (.ofSymbol symbol))).toList := by
  cases current with
  | none => exact .nil
  | some script => exact .cons ⟨_, rfl, rfl⟩ .nil

/-- The script that is open is a routine of its own before those behind it. -/
theorem ReadsOn.behindScript {items twins : List SyntaxTree}
    (h : ReadsOn symbol scope other items twins) (current opened : Option Routine) :
    Accompanies List.length (List.Forall₂ (RenamedTo symbol))
      (do return current.toList ++ (← readItems scope opened items))
      (do return (current.map (rename (.ofSymbol symbol))).toList ++
        (← readItems other (opened.map (rename (.ofSymbol symbol))) twins)) := by
  refine (h opened).bind (fun _ _ => le_rfl) fun _ _ htwins => .pure ?_
  exact List.rel_append (renamedTo_current current) htwins

section Items

variable {item : SyntaxTree} {items twins : List SyntaxTree}

theorem openScript_recast (hempty : names.symbol [] = []) (hsymbol : names.symbol = symbol)
    (hkind : item.kind? = some .label) (parent : SyntaxKind) :
    openScript (item.recast names.token parent) = (openScript item).rename (.ofSymbol symbol) := by
  rw [openScript, nameOf_recast hempty (by rw [hkind]; rfl), span_recast, hsymbol]
  rfl

/-- A function or subroutine is read before the routines behind it. -/
theorem ReadsOn.behindProcedure (h : ReadsOn symbol scope other items twins)
    (hempty : names.symbol [] = []) (hsymbol : names.symbol = symbol)
    (hscope : scope.Renamed symbol other) (hrefresh : Refreshes names item)
    (hformed : item.Formed) (hwords : item.LinesBegin)
    (hkind : item.kind? = some .functionDefinition ∨ item.kind? = some .subroutineDefinition)
    (kind : RoutineKind) (current : Option Routine) :
    Accompanies List.length (List.Forall₂ (RenamedTo symbol))
      (do
        let routine ← readProcedure scope kind item
        return current.toList ++ routine :: (← readItems scope none items))
      (do
        let routine ← readProcedure other kind (item.recast names.token .sourceFile)
        return (current.map (rename (.ofSymbol symbol))).toList ++ routine ::
          (← readItems other none twins)) := by
  have hprocedure := readProcedure_repeats hempty hsymbol hscope hrefresh hformed hwords hkind kind
    .sourceFile
  refine hprocedure.accompanies.bind (fun _ => readItems_grows scope items none) ?_
  rintro routine _ rfl
  refine (h none).bind (fun _ _ => le_rfl) fun routines twins htwins => .pure ?_
  exact List.rel_append (renamedTo_current current) (.cons ⟨_, hsymbol, rfl⟩ htwins)

/-- An instruction is read into the script that is open. -/
theorem ReadsOn.behindInstruction (h : ReadsOn symbol scope other items twins)
    (hsuit : names.Suit symbol item) (hscope : scope.Renamed symbol other)
    (hrefresh : Refreshes names item) (hformed : item.Formed) (hwords : item.LinesBegin)
    (hkind : item.kind? = some .instruction) (script : Routine) :
    Accompanies List.length (List.Forall₂ (RenamedTo symbol))
      (do
        let statement ← readInstruction scope [] item
        readItems scope (some (script.extend statement item.span)) items)
      (do
        let statement ← readInstruction other [] (item.recast names.token .sourceFile)
        readItems other (some ((script.rename (.ofSymbol symbol)).extend statement item.span))
          twins) := by
  have hnames := hsuit.eq fun hfunction => by rw [hkind] at hfunction; cases hfunction
  have hrebinds : Rebinds names (WrittenIn item) [] :=
    ⟨hrefresh.injective, fun name _ hmoved => absurd (by rw [hnames]; rfl) hmoved⟩
  have hread := readInstruction_repeats hsuit.symbol hscope hrebinds
    ⟨hformed, by rw [hkind]; rfl⟩ hwords.here (allKnown_writtenIn item) .sourceFile
  refine hread.accompanies.bind (fun statement => readItems_grows scope items _) ?_
  rintro statement _ rfl
  rw [hnames, rename_extend]
  exact h (some (script.extend statement item.span))

end Items

/-- The routines of a file whose items have other names, if nothing is reported. -/
theorem readItems_accompanies (hempty : symbol [] = []) (hscope : scope.Renamed symbol other)
    {names : SyntaxTree → Names} {items : List SyntaxTree}
    (hsuit : ∀ item ∈ items, (names item).Suit symbol item)
    (hrefresh : ∀ item ∈ items, Refreshes (names item) item)
    (hformed : SyntaxTree.AllFormed SyntaxKind.isItem items)
    (hwords : ∀ item ∈ items, item.LinesBegin) :
    ReadsOn symbol scope other items
      (items.map fun item => item.recast (names item).token .sourceFile) := by
  induction items with
  | nil => exact fun current => .pure (renamedTo_current current)
  | cons item rest ih =>
      obtain ⟨hitemSuit, hsuit⟩ := List.forall_mem_cons.mp hsuit
      obtain ⟨hitemRefresh, hrefresh⟩ := List.forall_mem_cons.mp hrefresh
      obtain ⟨hitemFormed, hformed⟩ := List.forall_mem_cons.mp hformed
      obtain ⟨hitemWords, hwords⟩ := List.forall_mem_cons.mp hwords
      have hrest := ih hsuit hrefresh hformed hwords
      have hitemEmpty : (names item).symbol [] = [] := hitemSuit.symbol ▸ hempty
      intro current
      simp only [List.map_cons, readItems, kind?_recast, span_recast]
      split
      · rename_i hkind
        rw [openScript_recast hitemEmpty hitemSuit.symbol hkind]
        exact hrest.behindScript current (some (openScript item))
      · rename_i hkind
        cases current with
        | none =>
            have hreport : Repeats id (NameProblem.looseInstruction.report item.span)
                (NameProblem.looseInstruction.report item.span) :=
              Repeats.of_silently (Silently.report _ : Silently _ fun _ => True)
            exact hreport.accompanies.bind (fun _ => readItems_grows scope rest none)
              fun _ _ _ => hrest none
        | some script =>
            exact hrest.behindInstruction hitemSuit hscope hitemRefresh hitemFormed.1 hitemWords
              hkind script
      · rename_i hkind
        exact hrest.behindProcedure hitemEmpty hitemSuit.symbol hscope hitemRefresh hitemFormed.1
          hitemWords (.inl hkind) .function current
      · rename_i hkind
        exact hrest.behindProcedure hitemEmpty hitemSuit.symbol hscope hitemRefresh hitemFormed.1
          hitemWords (.inr hkind) .subroutine current
      · exact hrest.behindScript current none
      · exact hrest current

end Routine

end NovelAsm
