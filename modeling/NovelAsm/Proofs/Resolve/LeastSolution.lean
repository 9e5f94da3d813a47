import NovelAsm.Proofs.Resolve.Declared
import NovelAsm.Proofs.Resolve.Walk
import NovelAsm.Proofs.SyntaxTree.Grammar
import NovelAsm.Proofs.SyntaxTree.Parsed

/-!
What a file defines. If its definitions have different names, the scope of a file holds the least
solution of what they say of each other: a name has a value if that can be derived, from those
that have been derived before, and no name that leads into a circle has one
(`Declarations.collect_least`). So the order of the definitions does not matter, nor where they
stand; and none is left without a value in silence.
-/

namespace NovelAsm

namespace Definition

/-- The definition that an item is, if it has a name. -/
def ofItem? (origin : Location) (tree : SyntaxTree) : Option Definition :=
  match tree.kind?, tree.tokens with
  | some .definition, _ :: name :: _ =>
      if name.kind != .identifier && name.kind != .register then none
      else some
        { name := name.text
          isRegister := name.kind == .register
          value := tree.childNodes.head?
          span := name.span.rebase origin
          origin }
  | _, _ => none

/-- Definitions with different names, none of which is a builtin register. -/
structure Distinct (definitions : List Definition) : Prop where
  names : (definitions.map Definition.name).Nodup
  notBuiltin : ∀ definition ∈ definitions, definition.isRegister = true →
    Register.parse? definition.name = none

theorem Distinct.of_append {definitions more : List Definition}
    (h : Distinct (definitions ++ more)) :
    Distinct definitions where
  names := (List.map_append ▸ h.names : _).of_append_left
  notBuiltin definition hmem := h.notBuiltin definition (List.mem_append_left _ hmem)

end Definition

namespace Declarations

open Definition (ofItem? Distinct)

/-- The definitions of a file, as they are written. -/
def written (trees : List PlacedTree) : List Definition :=
  trees.flatMap fun placed => placed.tree.children.filterMap (ofItem? placed.origin)

/-- Declarations to which definitions have been added, and besides these only symbols. -/
structure Records (found later : Declarations) (more : List Definition) : Prop where
  definitions : later.definitions = found.definitions ++ more
  values : later.scope.values = found.scope.values
  registers : later.scope.registers = found.scope.registers

namespace Records

theorem refl (found : Declarations) : found.Records found [] :=
  ⟨(List.append_nil _).symm, rfl, rfl⟩

theorem trans {found later last : Declarations} {more others : List Definition}
    (h : found.Records later more) (hlater : later.Records last others) :
    found.Records last (more ++ others) where
  definitions := by rw [hlater.definitions, h.definitions, List.append_assoc]
  values := hlater.values.trans h.values
  registers := hlater.registers.trans h.registers

/-- Items one after another, if all of them together are distinct. -/
theorem foldl {α : Type} {items : α → List Definition} {step : Declarations → α → Declarations}
    (h : ∀ (found : Declarations) (item : α), Distinct (found.definitions ++ items item) →
      found.Records (step found item) (items item))
    (list : List α) {found : Declarations}
    (hdistinct : Distinct (found.definitions ++ list.flatMap items)) :
    found.Records (list.foldl step found) (list.flatMap items) := by
  induction list generalizing found with
  | nil => exact refl found
  | cons item rest ih =>
      rw [List.flatMap_cons, ← List.append_assoc] at hdistinct
      have hfirst := h found item hdistinct.of_append
      rw [← hfirst.definitions] at hdistinct
      exact hfirst.trans (ih hdistinct)

end Records

theorem declare_records (found : Declarations) (symbol : Symbol) :
    found.Records (found.declare symbol) [] := by
  rw [declare, Scope.declare]
  cases found.scope.findSymbol? symbol.name with
  | none => exact ⟨(List.append_nil _).symm, rfl, rfl⟩
  | some earlier => exact ⟨(List.append_nil _).symm, rfl, rfl⟩

theorem declareTree_records (found : Declarations) (kind : SymbolKind) (count : Nat)
    (origin : Location) (tree : SyntaxTree) :
    found.Records (found.declareTree kind count origin tree) [] := by
  rw [declareTree]
  cases tree.firstToken? .identifier with
  | none => exact .refl found
  | some name => exact declare_records found _

theorem declareLabels_records (found : Declarations) (origin : Location) (body : SyntaxTree) :
    found.Records (found.declareLabels origin body) [] := by
  refine List.foldlRecOn (motive := fun later => found.Records later []) _ _ (.refl found) ?_
  exact fun later hlater label _ => hlater.trans (declareTree_records later _ _ origin label)

/-- A definition that is no builtin register, and whose name is new, is recorded. -/
theorem recordDefinition_records (found : Declarations) {origin : Location} {tree : SyntaxTree}
    (hkind : tree.kind? = some .definition)
    (hdistinct : Distinct (found.definitions ++ (ofItem? origin tree).toList)) :
    found.Records (found.recordDefinition origin tree) (ofItem? origin tree).toList := by
  simp only [ofItem?, hkind, recordDefinition] at hdistinct ⊢
  split
  · rename_i word name more htokens
    simp only [htokens] at hdistinct ⊢
    split
    · exact .refl found
    · rename_i hnamed
      rw [if_neg hnamed] at hdistinct
      obtain ⟨hnames, hbuiltin⟩ := hdistinct
      simp only [Option.toList_some, List.map_append, List.map_cons, List.map_nil,
        List.nodup_append, List.mem_singleton, List.mem_map] at hnames
      have hnew : found.definitions.find? (·.name == name.text) = none := by
        refine List.find?_eq_none.mpr fun definition hmem hname => ?_
        exact hnames.2.2 definition.name ⟨definition, hmem, rfl⟩ name.text rfl (beq_iff_eq.mp hname)
      split
      · rename_i hregister
        obtain ⟨hkind, hparsed⟩ := (Bool.and_eq_true _ _).mp hregister
        have hnone := hbuiltin _ (List.mem_append_right _ (List.mem_singleton_self _)) hkind
        simp only [hnone, Option.isSome_none, Bool.false_eq_true] at hparsed
      · rw [hnew]
        exact ⟨rfl, rfl, rfl⟩
  · rename_i hnone
    split
    · rename_i htokens
      exact absurd htokens (hnone _ _ _)
    · exact .refl found

theorem addItem_records (found : Declarations) (origin : Location) (tree : SyntaxTree)
    (hdistinct : Distinct (found.definitions ++ (ofItem? origin tree).toList)) :
    found.Records (found.addItem origin tree) (ofItem? origin tree).toList := by
  have hnone (hkind : tree.kind? ≠ some .definition) : ofItem? origin tree = none := by
    rw [ofItem?]
    split
    · rename_i hdefinition _
      exact absurd hdefinition hkind
    · rfl
  rw [addItem]
  split
  · rename_i hkind
    rw [hnone (by simp [hkind])]
    exact declareTree_records found _ _ origin tree
  · rename_i hkind
    rw [hnone (by simp [hkind])]
    exact (declareTree_records found _ _ origin tree).trans (declareLabels_records _ origin tree)
  · rename_i hkind
    rw [hnone (by simp [hkind])]
    exact (declareTree_records found _ _ origin tree).trans (declareLabels_records _ origin tree)
  · rename_i hkind
    exact recordDefinition_records found hkind hdistinct
  · rename_i _ _ _ hkind
    rw [hnone hkind]
    exact .refl found

theorem addTree_records (found : Declarations) (placed : PlacedTree)
    (hdistinct : Distinct (found.definitions ++
      placed.tree.children.filterMap (ofItem? placed.origin))) :
    found.Records (found.addTree placed)
      (placed.tree.children.filterMap (ofItem? placed.origin)) := by
  rw [List.filterMap_eq_flatMap_toList] at hdistinct ⊢
  exact Records.foldl (fun found item => addItem_records found placed.origin item) _ hdistinct

/-- What is found in a file before its definitions are evaluated. -/
theorem found_records {trees : List PlacedTree} (h : Distinct (written trees)) :
    Records .empty (trees.foldl addTree .empty).reportClashes (written trees) := by
  have hfound : Records .empty (trees.foldl addTree .empty) (written trees) :=
    Records.foldl addTree_records trees h
  have hclashes (found : Declarations) : found.reportClashes.definitions = found.definitions := by
    refine List.foldlRecOn (motive := fun state : Declarations =>
      state.definitions = found.definitions) _ _ rfl fun state hstate definition _ => ?_
    split
    · split
      · exact hstate
      · exact hstate
    · exact hstate
  exact ⟨(hclashes _).trans hfound.definitions,
    (congrArg _ (reportClashes_scope _)).trans hfound.values,
    (congrArg _ (reportClashes_scope _)).trans hfound.registers⟩

end Declarations

namespace Definition

variable {definitions : List Definition}

/-- Among definitions with different names, one is found by its name and its sort. -/
theorem find?_eq_some_iff (h : Distinct definitions) {name : Bytes} {isRegister : Bool}
    {definition : Definition} :
    find? definitions name isRegister = some definition ↔
      definition ∈ definitions ∧ definition.name = name ∧ definition.isRegister = isRegister := by
  constructor
  · intro hfound
    have hwanted := List.find?_some hfound
    simp only [Bool.and_eq_true, beq_iff_eq] at hwanted
    exact ⟨List.mem_of_find?_eq_some hfound, hwanted.1, hwanted.2⟩
  · rintro ⟨hmem, rfl, rfl⟩
    obtain ⟨other, hother⟩ : ∃ other, find? definitions definition.name definition.isRegister =
        some other :=
      Option.isSome_iff_exists.mp (List.find?_isSome.mpr ⟨definition, hmem, by simp⟩)
    rw [hother, List.inj_on_of_nodup_map h.names (List.mem_of_find?_eq_some hother) hmem
      (name_of_find? hother)]

theorem Distinct.perm {others : List Definition} (h : Distinct definitions)
    (hperm : definitions.Perm others) : Distinct others where
  names := (hperm.map Definition.name).nodup_iff.mp h.names
  notBuiltin definition hmem := h.notBuiltin definition (hperm.mem_iff.mpr hmem)

theorem find?_perm {others : List Definition} (h : Distinct definitions)
    (hperm : definitions.Perm others) (name : Bytes) (isRegister : Bool) :
    find? definitions name isRegister = find? others name isRegister := by
  refine Option.ext fun definition => ?_
  rw [find?_eq_some_iff h, find?_eq_some_iff (h.perm hperm), hperm.mem_iff]

theorem distinct_bare : Distinct (definitions.map bare) ↔ Distinct definitions := by
  have hnames : (definitions.map bare).map Definition.name = definitions.map Definition.name :=
    List.map_map
  constructor
  · rintro ⟨hnodup, hbuiltin⟩
    exact ⟨hnames ▸ hnodup, fun definition hmem =>
      hbuiltin definition.bare (List.mem_map_of_mem hmem)⟩
  · rintro ⟨hnodup, hbuiltin⟩
    refine ⟨hnames.symm ▸ hnodup, fun definition hmem => ?_⟩
    obtain ⟨original, horiginal, rfl⟩ := List.mem_map.mp hmem
    exact hbuiltin original horiginal

/-- What a definition gives to its name does not depend on places. -/
theorem valueRule_bare : valueRule (definitions.map bare) = valueRule definitions := by
  funext env name
  rw [valueRule, valueRule, find?_bare, Option.bind_map]
  refine Option.bind_congr fun definition _ => ?_
  change (definition.value.map SyntaxTree.core).bind _ = _
  rw [Option.bind_map]
  refine Option.bind_congr fun tree _ => ?_
  have hnaming : (given definitions definition.origin env).Bares Evaluation.bare
      (given (definitions.map bare) .origin env) :=
    naming_bares definitions .empty definition.origin fun _ _ => Erases.pure rfl
  have hrun := congrArg Prod.fst (evaluateTree_erases hnaming tree .empty)
  exact hrun

theorem registerRule_bare : registerRule (definitions.map bare) = registerRule definitions := by
  funext env name
  rw [registerRule, registerRule, find?_bare, Option.bind_map]
  refine Option.bind_congr fun definition _ => ?_
  change definition.bare.aliasToken?.bind _ = _
  rw [aliasToken?_bare, Option.bind_map]
  refine Option.bind_congr fun token _ => ?_
  simp only [Function.comp_apply, Token.text_bare, find?_bare, Option.isSome_map]
  rfl

theorem rules_of_perm {others : List Definition} (h : Distinct definitions)
    (hperm : (definitions.map bare).Perm (others.map bare)) :
    valueRule definitions = valueRule others ∧ registerRule definitions = registerRule others := by
  have hfind := find?_perm (distinct_bare.mpr h) hperm
  rw [← valueRule_bare, ← registerRule_bare, ← @valueRule_bare others,
    ← @registerRule_bare others]
  constructor
  · funext env name
    have hgiven (origin : Location) : given (definitions.map bare) origin env =
        given (others.map bare) origin env := by
      simp only [given, naming, hfind]
    simp only [valueRule, hfind, hgiven]
  · funext env name
    simp only [registerRule, hfind]

/-- A definition has a value, or a register, in a scope. -/
def EnteredIn (definition : Definition) (scope : Scope) : Prop :=
  if definition.isRegister then (scope.findRegister? definition.name).isSome = true
  else (scope.findValue? definition.name).isSome = true

instance (definition : Definition) (scope : Scope) : Decidable (definition.EnteredIn scope) :=
  inferInstanceAs (Decidable (if definition.isRegister then _ else _))

/-- A scope holds the least solution of definitions, of values as well as of aliases. -/
structure LeastSolution (definitions : List Definition) (scope : Scope) : Prop where
  values : (valueRule definitions).IsLeast (valueNames definitions) scope.findValue?
  registers : (registerRule definitions).IsLeast (registerNames definitions) scope.findRegister?

/-- A definition has a value, or a register, in the least solution. -/
def Settled (definitions : List Definition) (definition : Definition) : Prop :=
  if definition.isRegister then ((registerRule definitions).least definition.name).isSome = true
  else ((valueRule definitions).least definition.name).isSome = true

/-- The definitions of a text that is parsed without an error have well-formed values. -/
theorem ofItem?_formed {tree : SyntaxTree} (h : tree.Formed) {origin : Location}
    {definition : Definition} (hitem : ofItem? origin tree = some definition) :
    definition.Formed := by
  simp only [ofItem?] at hitem
  split at hitem
  · rename_i hkind _
    split at hitem
    · cases hitem
    · obtain rfl := Option.some.inj hitem
      cases tree with
      | token leaf => cases hkind
      | node kind children =>
          obtain rfl : kind = .definition := Option.some.inj hkind
          obtain ⟨value, hvalue⟩ := List.length_eq_one_iff.mp h.shaped
          refine ⟨value, by simp [hvalue], h.children.formedAs ?_⟩
          have hmem : value ∈ (SyntaxTree.node .definition children).childNodes := by simp [hvalue]
          exact hmem
  · cases hitem

end Definition

/-- A tree of a text that is parsed without an error, wherever it is placed. -/
def PlacedTree.Clean (placed : PlacedTree) : Prop :=
  ∃ source place, (ParsedSource.read source place).diagnostics.hasErrors = false ∧
    placed.tree = (ParsedSource.read source place).tree

namespace Scope

open Definition

/-- What a definition is entered as. -/
noncomputable def enter (definitions : List Definition) (scope : Scope) (definition : Definition) :
    Scope :=
  if definition.isRegister then
    ((registerRule definitions).least definition.name).elim scope
      (scope.defineRegister definition.name)
  else ((valueRule definitions).least definition.name).elim scope
    (scope.defineValue definition.name)

/-- The tables of a scope are sorted. -/
structure Sorted (scope : Scope) : Prop where
  values : scope.values.Sorted
  registers : scope.registers.Sorted

variable {definitions : List Definition}

theorem Sorted.enter {scope : Scope} (h : scope.Sorted) (definition : Definition) :
    (scope.enter definitions definition).Sorted := by
  rw [Scope.enter]
  split
  · cases (registerRule definitions).least definition.name with
    | none => exact h
    | some register => exact ⟨h.values, h.registers.insertNew _ _⟩
  · cases (valueRule definitions).least definition.name with
    | none => exact h
    | some value => exact ⟨h.values.insertNew _ _, h.registers⟩

theorem Sorted.foldl_enter (list : List Definition) {scope : Scope} (h : scope.Sorted) :
    (list.foldl (Scope.enter definitions) scope).Sorted :=
  List.foldlRecOn _ _ h fun _ hsorted definition _ => hsorted.enter definition

theorem findValue?_enter {scope : Scope} (h : scope.Sorted) (definition : Definition)
    (name : Bytes) : (scope.enter definitions definition).findValue? name =
      (scope.findValue? name).or (if definition.name = name ∧ definition.isRegister = false
        then (valueRule definitions).least name else none) := by
  rw [enter]
  cases hsort : definition.isRegister with
  | true =>
      cases (registerRule definitions).least definition.name <;> simp [defineRegister, findValue?]
  | false =>
      by_cases hname : definition.name = name
      · subst hname
        cases (valueRule definitions).least definition.name with
        | none => simp
        | some value => simp [defineValue, findValue?, NameMap.find?_insertNew h.values]
      · cases (valueRule definitions).least definition.name with
        | none => simp [hname]
        | some value => simp [defineValue, findValue?, NameMap.find?_insertNew h.values, hname]

theorem findRegister?_enter {scope : Scope} (h : scope.Sorted) (definition : Definition)
    (name : Bytes) : (scope.enter definitions definition).findRegister? name =
      (scope.findRegister? name).or (if definition.name = name ∧ definition.isRegister = true
        then (registerRule definitions).least name else none) := by
  rw [enter]
  cases hsort : definition.isRegister with
  | false =>
      cases (valueRule definitions).least definition.name <;> simp [defineValue, findRegister?]
  | true =>
      by_cases hname : definition.name = name
      · subst hname
        cases (registerRule definitions).least definition.name with
        | none => simp
        | some register => simp [defineRegister, findRegister?, NameMap.find?_insertNew h.registers]
      · cases (registerRule definitions).least definition.name with
        | none => simp [hname]
        | some register =>
            simp [defineRegister, findRegister?, NameMap.find?_insertNew h.registers, hname]

/-- The entries of definitions, one after another. -/
theorem find_foldl_enter {α : Type} {find : Scope → Bytes → Option α} {least : Bytes → Option α}
    {isRegister : Bool} (hfind : ∀ {scope : Scope}, scope.Sorted → ∀ definition name,
      find (scope.enter definitions definition) name = (find scope name).or
        (if definition.name = name ∧ definition.isRegister = isRegister then least name else none))
    (list : List Definition) {scope : Scope} (h : scope.Sorted) (name : Bytes) :
    find (list.foldl (enter definitions) scope) name =
      (find scope name).or ((find? list name isRegister).bind fun _ => least name) := by
  induction list generalizing scope with
  | nil => simp [find?]
  | cons definition rest ih =>
      have hcons : find? (definition :: rest) name isRegister =
          if definition.name = name ∧ definition.isRegister = isRegister then some definition
          else find? rest name isRegister := by
        rw [find?, List.find?_cons]
        split <;> simp_all [find?]
      rw [List.foldl_cons, ih (h.enter definition), hfind h, Option.or_assoc, hcons]
      congr 1
      split
      · rw [Option.bind_some]
        cases least name with
        | none => cases find? rest name isRegister <;> rfl
        | some value => rfl
      · rfl

end Scope

namespace Declarations

open Definition

theorem written_formed {trees : List PlacedTree} (hclean : ∀ placed ∈ trees, placed.Clean) :
    ∀ definition ∈ written trees, definition.Formed := by
  intro definition hmem
  obtain ⟨placed, hplaced, hmem⟩ := List.mem_flatMap.mp hmem
  obtain ⟨item, hitem, hdefinition⟩ := List.mem_filterMap.mp hmem
  obtain ⟨source, place, hread, htree⟩ := hclean placed hplaced
  have hformed := ParsedSource.read_formed (ParsedSource.diagnostics_eq_nil_of_hasErrors hread)
  rw [← htree] at hformed
  obtain ⟨hformed, hfile⟩ := hformed
  cases htree : placed.tree with
  | token leaf => rw [htree] at hitem; cases hitem
  | node kind children =>
      rw [htree] at hformed hitem
      exact ofItem?_formed (hformed.children item hitem).1 hdefinition

/-! ## The definitions one after another -/

section Define

variable {found : Declarations} (hformed : ∀ definition ∈ found.definitions, definition.Formed)

include hformed

/-- A definition is entered with its value of the least solution. -/
theorem define_gives {definition : Definition}
    (hfound : find? found.definitions definition.name definition.isRegister = some definition)
    (scope : Scope) :
    Gives (Right found.definitions) (found.define scope definition)
      (· = scope.enter found.definitions definition) := by
  rw [define, Scope.enter]
  split
  · rename_i hregister
    rw [hregister] at hfound
    refine (registerOf_gives _ [] definition _ hfound (.start _ 0)).bind fun outcome houtcome => ?_
    rw [← houtcome]
    cases outcome <;> exact .pure rfl
  · rename_i hvalue
    rw [Bool.not_eq_true] at hvalue
    rw [hvalue] at hfound
    refine (valueOf_gives hformed _ _ [] definition _ hfound (.start _ 0)).bind
      fun outcome houtcome => ?_
    rw [← houtcome]
    cases outcome <;> exact .pure rfl

theorem foldlM_define_gives (list : List Definition)
    (hfound : ∀ definition ∈ list,
      find? found.definitions definition.name definition.isRegister = some definition)
    (scope : Scope) :
    Gives (Right found.definitions) (list.foldlM found.define scope)
      (· = list.foldl (Scope.enter found.definitions) scope) := by
  induction list generalizing scope with
  | nil => exact .pure rfl
  | cons definition rest ih =>
      obtain ⟨hfirst, hrest⟩ := List.forall_mem_cons.mp hfound
      rw [List.foldlM_cons]
      exact (define_gives hformed hfirst scope).bind fun next hnext => hnext ▸ ih hrest next

/-- A definition is settled, or an error was reported. -/
theorem define_honest {definition : Definition} (hmem : definition ∈ found.definitions)
    (hfound : find? found.definitions definition.name definition.isRegister = some definition)
    (scope : Scope) :
    Honest (fun state => Right found.definitions state ∧ Witnessed state) Erring
      (found.define scope definition) fun _ => definition.Settled found.definitions := by
  rw [define, Settled]
  split
  · rename_i hregister
    rw [hregister] at hfound
    refine ((registerOf_honest hformed _ [] definition _ hmem (.start _ 0)).and_gives
      (registerOf_gives _ [] definition _ hfound (.start _ 0))).follow fun outcome => ?_
    cases outcome <;> exact .pure fun hboth => hboth.1 ▸ hboth.2
  · rename_i hvalue
    rw [Bool.not_eq_true] at hvalue
    rw [hvalue] at hfound
    refine ((valueOf_honest hformed _ _ [] definition _ hmem (.start _ 0)).and_gives
      (valueOf_gives hformed _ _ [] definition _ hfound (.start _ 0))).follow fun outcome => ?_
    cases outcome <;> exact .pure fun hboth => hboth.1 ▸ hboth.2

end Define

/-- The definitions of a file are found by their names. -/
theorem find?_written {trees : List PlacedTree} (hdistinct : Distinct (written trees))
    {definition : Definition} (hmem : definition ∈ written trees) :
    find? (written trees) definition.name definition.isRegister = some definition :=
  (find?_eq_some_iff hdistinct).mpr ⟨hmem, rfl, rfl⟩

/-! ## The scope of a file -/

section Collect

variable {trees : List PlacedTree} (hclean : ∀ placed ∈ trees, placed.Clean)
  (hdistinct : Distinct (written trees))

include hclean hdistinct

theorem collect_scope : (collect trees).1 =
    (written trees).foldl (Scope.enter (written trees))
      (trees.foldl addTree .empty).reportClashes.scope := by
  have hrecords : _ = written trees := (found_records hdistinct).definitions
  have hgives := foldlM_define_gives (hrecords.symm ▸ written_formed hclean) (written trees)
    (hrecords.symm ▸ fun definition => find?_written hdistinct)
    (trees.foldl addTree .empty).reportClashes.scope
  rw [hrecords] at hgives
  rw [← (hgives.gives .empty right_empty).1, collect, defineAll, hrecords]
  rfl

theorem collect_sorted : (collect trees).1.Sorted := by
  rw [collect_scope hclean hdistinct]
  have hfound := found_records hdistinct
  exact .foldl_enter _ ⟨hfound.values.symm ▸ NameMap.sorted_empty,
    hfound.registers.symm ▸ NameMap.sorted_empty⟩

/-- The values of a file are the least solution of its definitions. -/
theorem findValue?_collect (name : Bytes) :
    (collect trees).1.findValue? name = (valueRule (written trees)).least name := by
  have hfound := found_records hdistinct
  have hempty : (trees.foldl addTree .empty).reportClashes.scope.findValue? name = none := by
    rw [Scope.findValue?, hfound.values]
    rfl
  rw [collect_scope hclean hdistinct, Scope.find_foldl_enter Scope.findValue?_enter _
    ⟨hfound.values.symm ▸ NameMap.sorted_empty, hfound.registers.symm ▸ NameMap.sorted_empty⟩,
    hempty, Option.none_or, (valueRule_asks (written_formed hclean)).solves_least name, valueRule]
  cases find? (written trees) name false <;> rfl

/-- The registers of a file are the least solution of its aliases. -/
theorem findRegister?_collect (name : Bytes) :
    (collect trees).1.findRegister? name = (registerRule (written trees)).least name := by
  have hfound := found_records hdistinct
  have hempty : (trees.foldl addTree .empty).reportClashes.scope.findRegister? name = none := by
    rw [Scope.findRegister?, hfound.registers]
    rfl
  rw [collect_scope hclean hdistinct, Scope.find_foldl_enter Scope.findRegister?_enter _
    ⟨hfound.values.symm ▸ NameMap.sorted_empty, hfound.registers.symm ▸ NameMap.sorted_empty⟩,
    hempty, Option.none_or, registerRule_asks.solves_least name, registerRule]
  cases find? (written trees) name true <;> rfl

theorem collect_solution : LeastSolution (written trees) (collect trees).1 where
  values := by
    rw [show (collect trees).1.findValue? = (valueRule (written trees)).least from
      funext (findValue?_collect hclean hdistinct)]
    exact (valueRule_asks (written_formed hclean)).isLeast
  registers := by
    rw [show (collect trees).1.findRegister? = (registerRule (written trees)).least from
      funext (findRegister?_collect hclean hdistinct)]
    exact registerRule_asks.isLeast

/-- Definitions in another order, or at other places, give one scope. -/
theorem collect_perm {others : List PlacedTree} (hothers : ∀ placed ∈ others, placed.Clean)
    (hperm : ((written trees).map Definition.bare).Perm ((written others).map Definition.bare)) :
    (collect others).1.values = (collect trees).1.values ∧
      (collect others).1.registers = (collect trees).1.registers := by
  have hboth : Distinct (written others) :=
    distinct_bare.mp ((distinct_bare.mpr hdistinct).perm hperm)
  obtain ⟨hvalues, hregisters⟩ := rules_of_perm hdistinct hperm
  have hsorted := collect_sorted hclean hdistinct
  have hothersSorted := collect_sorted hothers hboth
  constructor
  · refine hothersSorted.values.ext hsorted.values fun name => ?_
    rw [← Scope.findValue?, findValue?_collect hothers hboth, ← hvalues,
      ← findValue?_collect hclean hdistinct, Scope.findValue?]
  · refine hothersSorted.registers.ext hsorted.registers fun name => ?_
    rw [← Scope.findRegister?, findRegister?_collect hothers hboth, ← hregisters,
      ← findRegister?_collect hclean hdistinct, Scope.findRegister?]

/-- A definition without an outcome is reported. -/
theorem collect_reports {definition : Definition} (hmem : definition ∈ written trees)
    (hmissing : ¬ definition.EnteredIn (collect trees).1) : (collect trees).2.hasErrors = true := by
  have hrecords : _ = written trees := (found_records hdistinct).definitions
  have hhonest := Honest.foldlM (trees.foldl addTree .empty).reportClashes.definitions
    (fun scope definition hmem => define_honest (hrecords.symm ▸ written_formed hclean) hmem
      ((find?_eq_some_iff (hrecords.symm ▸ hdistinct)).mpr ⟨hmem, rfl, rfl⟩) scope)
    (trees.foldl addTree .empty).reportClashes.scope
  rw [hrecords] at hhonest
  have herring := (hhonest.answers .empty ⟨right_empty, witnessed_empty⟩).resolve_left
    fun hall => by
    refine hmissing ?_
    have hsettled := hall definition hmem
    rwa [Settled, ← findRegister?_collect hclean hdistinct, ← findValue?_collect hclean hdistinct]
      at hsettled
  have hsplit : (collect trees).2 = (trees.foldl addTree .empty).reportClashes.diagnostics ++
      ((written trees).foldlM (trees.foldl addTree .empty).reportClashes.define
        (trees.foldl addTree .empty).reportClashes.scope .empty).2.diagnostics := by
    rw [collect, defineAll, hrecords]
    rfl
  rw [hsplit, Diagnostics.hasErrors, List.any_append, Bool.or_eq_true]
  exact .inr herring

/-- The definitions of a file, if their names are different, have their least solution in its
scope: each has the value, or the register, that can be derived for it from those of the names that
it mentions, which have theirs, and none leads into a circle. Definitions in another order, or at
other places, have the same values and registers. If a definition has none, an error is reported.
The walk that finds them ends before it gets to its limit. -/
theorem collect_least :
    LeastSolution (written trees) (collect trees).1 ∧
      (∀ others : List PlacedTree, (∀ placed ∈ others, placed.Clean) →
        ((written trees).map Definition.bare).Perm ((written others).map Definition.bare) →
        (collect others).1.values = (collect trees).1.values ∧
          (collect others).1.registers = (collect trees).1.registers) ∧
      (∀ definition ∈ written trees, ¬ definition.EnteredIn (collect trees).1 →
        (collect trees).2.hasErrors = true) ∧
      ∀ definition ∈ written trees, ∀ scope more use,
        let depth := (written trees).length + 1
        definition.valueOf (written trees) scope (depth + more) [] use =
            definition.valueOf (written trees) scope depth [] use ∧
          definition.registerOf (written trees) (depth + more) [] use =
            definition.registerOf (written trees) depth [] use :=
  ⟨collect_solution hclean hdistinct,
    fun _ hothers hperm => collect_perm hclean hdistinct hothers hperm,
    fun _ hmem hmissing => collect_reports hclean hdistinct hmem hmissing,
    fun definition hmem scope more use =>
      ⟨valueOf_depth scope _ more [] definition use hmem (.start _ 0),
        registerOf_depth _ more [] definition use hmem (.start _ 0)⟩⟩

end Collect

/-- What is read from a text, at the beginning of its file. -/
def ofText (text : String) : PlacedTree := ⟨(ParsedSource.read (ascii text) .origin).tree, .origin⟩

theorem clean_ofText {text : String}
    (h : (ParsedSource.read (ascii text) .origin).diagnostics.hasErrors = false) :
    (ofText text).Clean := ⟨ascii text, .origin, h, rfl⟩

/-- A value and an alias that are defined in the next segment, and two values that need each
other. -/
def dependent : String := "def A = B + 1\ndef $x = $y\ndef C = D\ndef D = C\n"

def needed : String := "def B = 6\ndef $y = $v3\n"

theorem collect_least_of_dependent :
    let trees := [ofText dependent, ofText needed]
    let swapped := [ofText needed, ofText dependent]
    (∀ placed ∈ trees, placed.Clean) ∧ Distinct (written trees) ∧
      LeastSolution (written trees) (collect trees).1 ∧
      (valueRule (written trees)).Derives (ascii "A") ⟨7, .integer⟩ ∧
      (registerRule (written trees)).Derives (ascii "$x") (.value 3) ∧
      (collect swapped).1.values = (collect trees).1.values ∧
      (collect trees).2.hasErrors = true ∧
      ∃ definition ∈ written trees, ¬ definition.EnteredIn (collect trees).1 ∧
        definition.valueOf (written trees) .empty ((written trees).length + 1 + 5) [] .origin =
          definition.valueOf (written trees) .empty ((written trees).length + 1) [] .origin := by
  intro trees swapped
  -- What the two texts come to is computed once.
  have hfacts : (∀ text ∈ [dependent, needed],
        (ParsedSource.read (ascii text) .origin).diagnostics.hasErrors = false) ∧
      ((written trees).map Definition.name).Nodup ∧
      (∀ definition ∈ written trees, definition.isRegister = true →
        Register.parse? definition.name = none) ∧
      (∃ definition ∈ written trees, ¬ definition.EnteredIn (collect trees).1) ∧
      (collect trees).1.findValue? (ascii "A") = some ⟨7, .integer⟩ ∧
      (collect trees).1.findRegister? (ascii "$x") = some (.value 3) := by
    decide +kernel
  obtain ⟨hread, hnames, hbuiltin, ⟨definition, hmem, hmissing⟩, hvalue, hregister⟩ := hfacts
  have hdependent : (ofText dependent).Clean := clean_ofText (hread _ (by simp))
  have hneeded : (ofText needed).Clean := clean_ofText (hread _ (by simp))
  have hclean : ∀ placed ∈ trees, placed.Clean := by simp [trees, hdependent, hneeded]
  have hothers : ∀ placed ∈ swapped, placed.Clean := by simp [swapped, hdependent, hneeded]
  have hdistinct : Distinct (written trees) := ⟨hnames, hbuiltin⟩
  have hswapped : ((written trees).map Definition.bare).Perm
      ((written swapped).map Definition.bare) := by
    simpa [trees, swapped, written] using List.perm_append_comm
  obtain ⟨hleast, hperm, hreported, hdepth⟩ := collect_least hclean hdistinct
  exact ⟨hclean, hdistinct, hleast, (hleast.values.derived _ _).mp hvalue,
    (hleast.registers.derived _ _).mp hregister, (hperm swapped hothers hswapped).1,
    hreported definition hmem hmissing,
    definition, hmem, hmissing, (hdepth definition hmem .empty 5 .origin).1⟩

end Declarations

end NovelAsm
