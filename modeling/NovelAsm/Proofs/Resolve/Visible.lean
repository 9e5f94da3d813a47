import NovelAsm.Proofs.SyntaxTree.Grammar
import NovelAsm.Session

/-!
What a segment sees of a scope. The routines of a tree depend on the names that occur
in the tree, and on each of them through its value, its register and the kind and
parameter count of its symbol. Spans of symbols, their order and all other names make
no difference, so code made in one scope is the code that any scope with the same view
would give (`KeptCode.make_congr`).
-/

namespace NovelAsm

namespace Symbol

/-- What can be seen of a symbol: all but the place of its declaration. -/
def outline (symbol : Symbol) : Bytes × SymbolKind × Nat :=
  (symbol.name, symbol.kind, symbol.parameterCount)

end Symbol

namespace Scope

/-- Two scopes give some names the same meaning. -/
def AgreeOn (names : Bytes → Prop) (scope other : Scope) : Prop :=
  ∀ name, names name →
    scope.findValue? name = other.findValue? name ∧
    scope.findRegister? name = other.findRegister? name ∧
    (scope.findSymbol? name).map Symbol.outline = (other.findSymbol? name).map Symbol.outline

/-- All that a unit can see of a scope. -/
def view (scope : Scope) :
    List (Bytes × SymbolKind × Nat) × NameMap Value × NameMap Register :=
  (scope.symbols.map Symbol.outline, scope.values, scope.registers)

theorem map_outline_findSymbol? (scope : Scope) (name : Bytes) :
    (scope.findSymbol? name).map Symbol.outline =
      (scope.symbols.map Symbol.outline).find? (·.1 == name) := by
  simp only [findSymbol?, List.find?_map]
  rfl

theorem agreeOn_of_view_eq {scope other : Scope} (h : scope.view = other.view)
    (names : Bytes → Prop) : AgreeOn names scope other := by
  obtain ⟨hsymbols, hvalues, hregisters⟩ : scope.symbols.map Symbol.outline =
      other.symbols.map Symbol.outline ∧ scope.values = other.values ∧
        scope.registers = other.registers := by
    simpa [view] using h
  intro name _
  simp only [findValue?, findRegister?, map_outline_findSymbol?, hsymbols, hvalues, hregisters,
    and_self]

end Scope

namespace SyntaxTree

theorem mem_leavesOf {tree : SyntaxTree} {trees : List SyntaxTree} (h : tree ∈ trees)
    {leaf : Token} (hleaf : leaf ∈ tree.leaves) : leaf ∈ leavesOf trees := by
  induction trees with
  | nil => cases h
  | cons first rest ih =>
      simp only [leavesOf, List.mem_append]
      rcases List.mem_cons.mp h with heq | hrest
      · exact Or.inl (heq ▸ hleaf)
      · exact Or.inr (ih hrest)

theorem mem_leaves_of_mem_children {tree child : SyntaxTree} (h : child ∈ tree.children)
    {leaf : Token} (hleaf : leaf ∈ child.leaves) : leaf ∈ tree.leaves := by
  cases tree with
  | token _ => cases h
  | node kind children =>
      simp only [leaves]
      exact mem_leavesOf h hleaf

theorem mem_leaves_of_mem_tokens {tree : SyntaxTree} {token : Token} (h : token ∈ tree.tokens) :
    token ∈ tree.leaves := by
  obtain ⟨child, hchild, htoken⟩ := List.mem_filterMap.mp h
  cases child with
  | token leaf =>
      simp only [Option.ite_none_right_eq_some, Option.some.injEq] at htoken
      exact mem_leaves_of_mem_children hchild (by simp [leaves, htoken.2])
  | node _ _ => cases htoken

/-- All that a tree is read by is among some names. -/
abbrev Mentions (names : Bytes → Prop) (tree : SyntaxTree) : Prop :=
  tree.Asks fun token => names token.text

theorem Asks.child {P : Token → Prop} {tree child : SyntaxTree} (h : tree.Asks P)
    (hchild : child ∈ tree.children) : child.Asks P := by
  cases h with
  | token leaf => cases hchild
  | node hall _ _ => exact hall child hchild

theorem Asks.firstSignificant? {P : Token → Prop} {kind : SyntaxKind} {children : List SyntaxTree}
    (h : (SyntaxTree.node kind children).Asks P) (hkind : kind = .nameExpr ∨ kind = .registerExpr)
    {token : Token} (htoken : (SyntaxTree.node kind children).firstSignificant? = some token) :
    P token := by
  cases h with
  | node _ hname _ => exact hname hkind token htoken

theorem Asks.register {P : Token → Prop} {tree : SyntaxTree} (h : tree.Asks P) {token : Token}
    (htoken : token ∈ tree.tokens) (hkind : token.kind = .register) : P token := by
  cases h with
  | token leaf => cases htoken
  | node _ _ hregisters => exact hregisters token htoken hkind

mutual

/-- What is true of all tokens is true of those that a tree is read by. -/
theorem asks_of_all {P : Token → Prop} (h : ∀ token, P token) :
    ∀ tree : SyntaxTree, tree.Asks P
  | .token leaf => .token leaf
  | .node _ children => .node (allAsk_of_all h children) (fun _ token _ => h token)
      fun token _ _ => h token

theorem allAsk_of_all {P : Token → Prop} (h : ∀ token, P token) :
    ∀ trees : List SyntaxTree, AllAsk P trees
  | [] => allAsk_nil
  | first :: rest => AllAsk.cons (asks_of_all h first) (allAsk_of_all h rest)

end

mutual

/-- A tree asks for nothing but its own tokens. -/
theorem Asks.mono {P Q : Token → Prop} : ∀ {tree : SyntaxTree}, tree.Asks P →
    (∀ leaf ∈ tree.leaves, P leaf → Q leaf) → tree.Asks Q
  | .token leaf, _, _ => .token leaf
  | .node kind children, .node hall hname hregisters, himplies =>
      .node (allAsk_mono hall fun leaf hleaf => himplies leaf (by simpa only [leaves] using hleaf))
        (fun hkind token htoken => himplies token (List.mem_of_find?_eq_some htoken)
          (hname hkind token htoken))
        fun token htoken hkind => himplies token (mem_leaves_of_mem_tokens htoken)
          (hregisters token htoken hkind)

theorem allAsk_mono {P Q : Token → Prop} : ∀ {trees : List SyntaxTree}, AllAsk P trees →
    (∀ leaf ∈ leavesOf trees, P leaf → Q leaf) → AllAsk Q trees
  | [], _, _ => allAsk_nil
  | first :: rest, hall, himplies => by
      simp only [leavesOf, List.forall_mem_append] at himplies
      exact AllAsk.cons ((hall first (List.mem_cons_self ..)).mono himplies.1)
        (allAsk_mono (fun tree htree => hall tree (List.mem_cons_of_mem _ htree)) himplies.2)

end

end SyntaxTree

/-- Steps over a list that agree on its members are one step. -/
theorem mapM_congr {σ α β : Type} {f g : α → StateM σ β} {items : List α}
    (h : ∀ item ∈ items, f item = g item) : items.mapM f = items.mapM g := by
  induction items with
  | nil => rfl
  | cons first rest ih =>
      rw [List.mapM_cons, List.mapM_cons, h first (List.mem_cons_self ..),
        ih fun item hitem => h item (List.mem_cons_of_mem _ hitem)]

theorem foldlM_congr {σ α β : Type} {f g : β → α → StateM σ β} {items : List α}
    (h : ∀ item ∈ items, ∀ start, f start item = g start item) (start : β) :
    items.foldlM f start = items.foldlM g start := by
  induction items generalizing start with
  | nil => rfl
  | cons first rest ih =>
      rw [List.foldlM_cons, List.foldlM_cons, h first (List.mem_cons_self ..)]
      exact congrArg _ (funext fun next =>
        ih (fun item hitem => h item (List.mem_cons_of_mem _ hitem)) next)

namespace Naming

variable {σ : Type}

/-- Two ways to name things give some names the same expressions. -/
structure AgreeOn (names : Bytes → Prop) (naming other : Naming σ) : Prop where
  report : naming.report = other.report
  base : naming.base = other.base
  name : ∀ name span, names name → naming.readName name span = other.readName name span
  register : ∀ name span, names name → naming.register? name span = other.register? name span

variable {names : Bytes → Prop} {naming other : Naming σ}

theorem AgreeOn.complain (h : AgreeOn names naming other) :
    naming.complain = other.complain := by
  funext problem span
  simp [Naming.complain, h.report]

theorem AgreeOn.spanOf (h : AgreeOn names naming other) : naming.spanOf = other.spanOf := by
  funext tree
  simp [Naming.spanOf, h.base]

theorem AgreeOn.readLiteral (h : AgreeOn names naming other) :
    naming.readLiteral = other.readLiteral := by
  funext token span
  simp [Naming.readLiteral, h.complain]

theorem AgreeOn.readRegister (h : AgreeOn names naming other) (name : Bytes) (span : Span)
    (hname : names name) : naming.readRegister name span = other.readRegister name span := by
  simp [Naming.readRegister, h.register name span hname]

mutual

theorem AgreeOn.read (h : AgreeOn names naming other) :
    ∀ tree : SyntaxTree, tree.Mentions names → naming.read tree = other.read tree
  | .token leaf, _ => by simp [Naming.read, h.base]
  | .node kind children, hasks => by
      have hall := AgreeOn.readAll h children fun child hchild => hasks.child hchild
      simp only [Naming.read, h.spanOf, h.readLiteral, h.complain, hall]
      cases kind <;> try rfl
      case registerExpr =>
        cases htoken : (SyntaxTree.node .registerExpr children).firstSignificant? with
        | none => rfl
        | some token =>
            simp only [h.readRegister token.text _ (hasks.firstSignificant? (.inr rfl) htoken)]
      case nameExpr =>
        cases htoken : (SyntaxTree.node .nameExpr children).firstSignificant? with
        | none => rfl
        | some token =>
            simp only [h.name token.text _ (hasks.firstSignificant? (.inl rfl) htoken)]

theorem AgreeOn.readAll (h : AgreeOn names naming other) :
    ∀ trees : List SyntaxTree, (∀ tree ∈ trees, tree.Mentions names) →
      naming.readAll trees = other.readAll trees
  | [], _ => rfl
  | .token _ :: rest, hasks => by
      have hrest :=
        AgreeOn.readAll h rest fun tree htree => hasks tree (List.mem_cons_of_mem _ htree)
      simp only [Naming.readAll, hrest]
  | .node kind children :: rest, hasks => by
      have hfirst := AgreeOn.read h (.node kind children) (hasks _ (List.mem_cons_self ..))
      have hrest :=
        AgreeOn.readAll h rest fun tree htree => hasks tree (List.mem_cons_of_mem _ htree)
      simp only [Naming.readAll, hfirst, hrest]

end

theorem AgreeOn.readArgument (h : AgreeOn names naming other) (tree : SyntaxTree)
    (hasks : tree.Mentions names) : naming.readArgument tree = other.readArgument tree := by
  have hcases : tree.childNodes.mapM naming.readCase = tree.childNodes.mapM other.readCase := by
    apply mapM_congr
    intro entry hentry
    have hentry := hasks.child ((List.mem_filter.mp hentry).1)
    simp only [readCase, h.spanOf, h.readAll entry.children fun child hchild => hentry.child hchild]
  simp only [Naming.readArgument, h.spanOf, hcases, h.read tree hasks,
    h.readAll tree.children fun child hchild => hasks.child hchild]

end Naming

namespace Routine

variable {names : Bytes → Prop} {scope other : Scope}

theorem registerNamed?_congr (h : scope.AgreeOn names other) (aliases : Aliases) {name : Bytes}
    (hname : names name) :
    registerNamed? scope aliases name = registerNamed? other aliases name := by
  simp [registerNamed?, (h name hname).2.1]

theorem naming_agreeOn (h : scope.AgreeOn names other) (aliases : Aliases) :
    (naming scope aliases).AgreeOn names (naming other aliases) where
  report := rfl
  base := rfl
  name name span hname := by
    obtain ⟨hvalue, -, hsymbol⟩ := h name hname
    simp only [Naming.readName, naming, hvalue]
    cases other.findValue? name with
    | some value => rfl
    | none =>
        cases hfound : scope.findSymbol? name with
        | none =>
            have hnone : other.findSymbol? name = none := by simpa [hfound] using hsymbol.symm
            rw [hnone]
            rfl
        | some symbol =>
            cases hother : other.findSymbol? name with
            | none => simp [hfound, hother] at hsymbol
            | some twin =>
                have houtline : symbol.outline = twin.outline := by
                  simpa [hfound, hother] using hsymbol
                simp only [Symbol.outline, Prod.mk.injEq] at houtline
                simp [houtline.1, houtline.2.1, houtline.2.2]
  register name span hname := by
    simp only [naming, registerNamed?_congr h aliases hname]

theorem preservedEnd?_congr (h : scope.AgreeOn names other) (aliases : Aliases) (token : Token)
    (hname : names token.text) :
    preservedEnd? scope aliases token = preservedEnd? other aliases token := by
  simp only [preservedEnd?, registerNamed?_congr h [] hname]

theorem preserve_congr (h : scope.AgreeOn names other) (aliases : Aliases)
    (preserved : List Register) (range : SyntaxTree) (hasks : range.Mentions names) :
    preserve scope aliases preserved range = preserve other aliases preserved range := by
  have htokens : ∀ token ∈ registerTokens range,
      preservedEnd? scope aliases token = preservedEnd? other aliases token := by
    intro token htoken
    apply preservedEnd?_congr h
    obtain ⟨hmem, hkind⟩ := List.mem_filter.mp htoken
    exact hasks.register hmem (beq_iff_eq.mp hkind)
  simp only [preserve]
  cases hregisters : registerTokens range with
  | nil => rfl
  | cons token more =>
      rw [hregisters] at htokens
      simp only [htokens token (List.mem_cons_self ..)]
      cases hlast : more.getLast? with
      | none => rfl
      | some last =>
          simp only [htokens last (List.mem_cons_of_mem _ (List.mem_of_getLast? hlast))]

theorem readInstruction_congr (h : scope.AgreeOn names other) (aliases : Aliases)
    (tree : SyntaxTree) (hasks : tree.Mentions names) :
    readInstruction scope aliases tree = readInstruction other aliases tree := by
  simp only [readInstruction]
  cases hlist : tree.firstChild? .argumentList with
  | none => rfl
  | some list =>
      have hchild := hasks.child (List.mem_of_find?_eq_some hlist)
      have harguments : list.childNodes.mapM (naming scope aliases).readArgument =
          list.childNodes.mapM (naming other aliases).readArgument := by
        apply mapM_congr
        intro argument hargument
        exact (naming_agreeOn h aliases).readArgument argument
          (hchild.child (List.mem_filter.mp hargument).1)
      simp only [harguments]

theorem readBody_congr (h : scope.AgreeOn names other) (aliases : Aliases)
    (trees : List SyntaxTree) (hasks : ∀ tree ∈ trees, tree.Mentions names) :
    readBody scope aliases trees = readBody other aliases trees := by
  induction trees with
  | nil => rfl
  | cons tree rest ih =>
      have hrest := ih fun tree htree => hasks tree (List.mem_cons_of_mem _ htree)
      simp only [readBody, hrest,
        readInstruction_congr h aliases tree (hasks tree (List.mem_cons_self ..))]

theorem readProcedure_congr (h : scope.AgreeOn names other) (kind : RoutineKind)
    (tree : SyntaxTree) (hasks : tree.Mentions names) :
    readProcedure scope kind tree = readProcedure other kind tree := by
  have hranges (aliases : Aliases) :
      (((tree.firstChild? .preservedRangeList).map SyntaxTree.childNodes).getD []).foldlM
          (preserve scope aliases) [] =
        (((tree.firstChild? .preservedRangeList).map SyntaxTree.childNodes).getD []).foldlM
          (preserve other aliases) [] := by
    apply foldlM_congr
    intro range hrange preserved
    apply preserve_congr h
    cases hlist : tree.firstChild? .preservedRangeList with
    | none => simp [hlist] at hrange
    | some list =>
        have hchild := hasks.child (List.mem_of_find?_eq_some hlist)
        simp only [hlist, Option.map_some, Option.getD_some] at hrange
        exact hchild.child (List.mem_filter.mp hrange).1
  have hbody (aliases : Aliases) :
      readBody scope aliases tree.children = readBody other aliases tree.children :=
    readBody_congr h aliases tree.children fun child hchild => hasks.child hchild
  simp only [readProcedure, hranges, hbody]

theorem readItems_congr (h : scope.AgreeOn names other) (current : Option Routine)
    (trees : List SyntaxTree) (hasks : ∀ tree ∈ trees, tree.Mentions names) :
    readItems scope current trees = readItems other current trees := by
  induction trees generalizing current with
  | nil => rfl
  | cons tree rest ih =>
      have htree := hasks tree (List.mem_cons_self ..)
      have hrest (current : Option Routine) := ih current
        fun tree htree => hasks tree (List.mem_cons_of_mem _ htree)
      simp only [readItems, hrest, readInstruction_congr h [] tree htree,
        readProcedure_congr h _ tree htree]

/-- The routines of a tree depend on what the scope says of the names in it. -/
theorem resolve_congr (h : scope.AgreeOn names other) (tree : SyntaxTree)
    (hasks : tree.Mentions names) : resolve scope tree = resolve other tree := by
  simp only [resolve,
    readItems_congr h none tree.children fun child hchild => hasks.child hchild]

end Routine

/-- Scopes that look the same to a unit give a segment the same code. -/
theorem KeptCode.make_congr {scope other : Scope} (h : scope.view = other.view)
    (signature : Fingerprint) (kept : KeptTree) :
    make scope signature kept = make other signature kept := by
  have hagree := Scope.agreeOn_of_view_eq h fun _ => True
  simp only [make, Routine.resolve_congr hagree kept.parsed.tree
    (SyntaxTree.asks_of_all (fun _ => trivial) kept.parsed.tree)]

end NovelAsm
