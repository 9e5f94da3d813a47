import NovelAsm.Proofs.Renaming.Listing
import NovelAsm.Proofs.Reports.Segments
import NovelAsm.Proofs.Resolve.Declared

/-!
Renaming a source. A symbol, or a parameter of one function, gets a name that the source does not
use. The source is linked to the same code under every base, and of its symbols no more than the
name changes (`Listing.ofSource_renamed`).

The proof exchanges the two names, so that nothing is renamed twice. As one of them is not used,
this gives it to the symbol or to the parameter and does nothing else.
-/

namespace NovelAsm

open Location (origin)
open LinkedProgram (entrySymbol)

/-- One name in the place of another. -/
def replaceName (old new text : Bytes) : Bytes := if text = old then new else text

/-- A change of names that gives a new one to an old one. What it does to the new one, which is not
used, is left open. -/
def Moves (old new : Bytes) (change : Bytes → Bytes) : Prop :=
  ∀ text, text ≠ new → change text = text ∨ text = old ∧ change text = new

theorem moves_id (old new : Bytes) : Moves old new id := fun _ _ => .inl rfl

theorem moves_swap (old new : Bytes) : Moves old new (Equiv.swap old new) := by
  intro text hnew
  by_cases hold : text = old
  · exact .inr ⟨hold, hold ▸ Equiv.swap_apply_left old new⟩
  · exact .inl (Equiv.swap_apply_of_ne_of_ne hold hnew)

theorem Moves.eq_old {old new text : Bytes} {change : Bytes → Bytes} (h : Moves old new change)
    (hnew : text ≠ new) (hmoved : change text ≠ text) : text = old :=
  ((h text hnew).resolve_left hmoved).1

theorem replaceName_eq {old new text : Bytes} (hnew : text ≠ new) :
    replaceName old new text = Equiv.swap old new text := by
  rw [replaceName]
  split
  · rename_i hold
    rw [hold, Equiv.swap_apply_left]
  · rename_i hold
    rw [Equiv.swap_apply_of_ne_of_ne hold hnew]

/-- Only names of symbols and of registers are other ones. -/
theorem Names.text_cases (names : Names) (parent : SyntaxKind) (text : Bytes) :
    names.text parent text = text ∨ names.text parent text = names.symbol text ∨
      names.text parent text = names.register text := by
  rw [Names.text]
  split
  · exact .inr (.inl rfl)
  split
  · exact .inr (.inr rfl)
  · exact .inl rfl

namespace SyntaxTree

/-- A name for a symbol in the place of another, where the symbol is declared and where operands
refer to it. -/
def renameSymbol (old new : Bytes) (file : SyntaxTree) : SyntaxTree :=
  file.renameItems fun _ => ⟨replaceName old new, id⟩

/-- Whether an item is a function of some name with a parameter of some name. -/
def hasParameter (function name : Bytes) (item : SyntaxTree) : Bool :=
  item.kind? == some .functionDefinition && Routine.nameOf item == function &&
    (Routine.parameterTokens item).any (·.text == name)

/-- A name for a parameter of a function in the place of another, in the head of the function and in
its body. -/
def renameParameter (function old new : Bytes) (file : SyntaxTree) : SyntaxTree :=
  file.renameItems fun item =>
    ⟨id, if item.hasParameter function old then replaceName old new else id⟩

theorem renameItems_congr {names others : SyntaxTree → Names} {file : SyntaxTree}
    (h : ∀ item ∈ file.children, ∀ leaf ∈ item.leaves,
      (names item).symbol leaf.text = (others item).symbol leaf.text ∧
        (names item).register leaf.text = (others item).register leaf.text) :
    file.renameItems names = file.renameItems others := by
  rw [renameItems, renameItems]
  congr 1
  refine List.map_congr_left fun item hitem => recast_congr fun leaf hleaf kind => ?_
  obtain ⟨hsymbol, hregister⟩ := h item hitem leaf hleaf
  simp only [Names.token, Names.text, hsymbol, hregister]

end SyntaxTree

namespace LinkedProgram

/-- Programs are compared up to places. -/
theorem Renamed.of_bare {symbol : Bytes → Bytes} {program other twin : LinkedProgram}
    (h : program.Renamed symbol other) (hsame : twin.bare = other.bare) :
    program.Renamed symbol twin where
  code := (congrArg LinkedProgram.code hsame).trans h.code
  base := (congrArg LinkedProgram.base hsame).trans h.base
  entry := (congrArg LinkedProgram.entry hsame).trans h.entry
  symbols := by
    rw [← symbols_bare twin, hsame]
    exact h.symbols
  succeeded := by
    rw [← succeeded_bare, hsame, succeeded_bare, h.succeeded]

end LinkedProgram

namespace Listing

open Session SyntaxTree

variable {source old new : Bytes}

/-- All that is said of a source before its units are encoded is an error. -/
theorem isError_of_mem {diagnostic : Diagnostic} (h : diagnostic ∈ (ofSource source).diagnostics) :
    diagnostic.isError = true := by
  obtain ⟨hroutines, hresolved⟩ := Routine.resolve_early (wholeDeclarations source).1
    (covered_everywhere (ParsedSource.read source origin).tree.leaves)
    (List.pairwise_of_forall fun _ _ _ => trivial)
  have hdeclared : (wholeDeclarations source).2.AllEarly fun _ => True :=
    Declarations.collect_early fun placed _ => covered_everywhere placed.tree.leaves
  rcases List.mem_append.mp (List.mem_mergeSort.mp h) with h | h
  · rcases List.mem_append.mp h with h | h
    · rcases List.mem_append.mp h with h | h
      · exact ParsedSource.isError_of_mem_diagnostics h
      · exact (hdeclared diagnostic h).error
    · exact (hresolved diagnostic h).error
  · obtain ⟨lowered, hlowered, h⟩ := List.mem_flatMap.mp h
    obtain ⟨routine, hroutine, rfl⟩ := List.mem_map.mp hlowered
    exact ((Routine.lower_early (hroutines routine hroutine)).2 diagnostic h).error

/-- Nothing is said of a source that is listed without an error. -/
theorem succeeded_iff :
    (ofSource source).succeeded = true ↔ (ofSource source).diagnostics = [] := by
  rw [succeeded, Bool.not_eq_true', Diagnostics.hasErrors, List.any_eq_false,
    List.eq_nil_iff_forall_not_mem]
  exact forall_congr' fun diagnostic => forall_congr' fun h => by simp [isError_of_mem h]

/-- A name that no token of a source has. -/
def Unused (source name : Bytes) : Prop :=
  ∀ token ∈ (Lexed.read source origin).tokens, token.text ≠ name

instance (source name : Bytes) : Decidable (Unused source name) :=
  inferInstanceAs (Decidable (∀ token ∈ (Lexed.read source origin).tokens, token.text ≠ name))

theorem ne_nil_of_spells {kind : TokenKind} {name : Bytes} (h : kind.spells name = true) :
    name ≠ [] := by
  rintro rfl
  cases kind <;> cases h

/-- A token of a tree with a text, or the end of the tree. -/
theorem mem_tokens_of_mem_leaves {leaf : Token}
    (h : leaf ∈ (ParsedSource.read source origin).tree.leaves) (htext : leaf.text ≠ []) :
    leaf ∈ (Lexed.read source origin).tokens := by
  rw [ParsedSource.leaves_read, Lexed.all] at h
  rcases List.mem_append.mp h with h | h
  · exact h
  · rw [List.mem_singleton.mp h] at htext
    exact absurd (Lexed.text_finish source origin) htext

theorem Unused.text_ne {kind : TokenKind} (hunused : Unused source new)
    (hspells : kind.spells new = true) {leaf : Token}
    (h : leaf ∈ (ParsedSource.read source origin).tree.leaves) : leaf.text ≠ new := by
  intro htext
  have hmem := mem_tokens_of_mem_leaves h (htext ▸ ne_nil_of_spells hspells)
  exact hunused leaf hmem htext

/-- Tokens with the text of an identifier are identifiers, and those with the text of a register
are registers. -/
theorem kind_of_text {kind : TokenKind} (hkind : kind = .identifier ∨ kind = .register)
    {leaf token : Token} (hleaf : leaf ∈ (ParsedSource.read source origin).tree.leaves)
    (htoken : token ∈ (ParsedSource.read source origin).tree.leaves)
    (hnamed : token.kind = kind) (htext : leaf.text = token.text) : leaf.kind = kind := by
  have hne : token.text ≠ [] := ParsedSource.text_ne_nil_of_mem_leaves htoken <| by
    rcases hkind with rfl | rfl <;> rw [hnamed] <;> decide
  have hspells := (Lexed.spells_iff hkind (mem_tokens_of_mem_leaves htoken hne)).mpr hnamed
  rw [← htext] at hspells hne
  exact (Lexed.spells_iff hkind (mem_tokens_of_mem_leaves hleaf hne)).mp hspells

/-- A parameter of a function is written as a register in its source. -/
theorem exists_parameter {function : Bytes} {item : SyntaxTree}
    (hitem : item ∈ (ParsedSource.read source origin).tree.children)
    (h : item.hasParameter function old = true) :
    ∃ token ∈ (ParsedSource.read source origin).tree.leaves,
      token.kind = .register ∧ token.text = old := by
  simp only [hasParameter, Bool.and_eq_true, List.any_eq_true, beq_iff_eq] at h
  obtain ⟨⟨hkind, -⟩, token, htoken, htext⟩ := h
  cases item with
  | token leaf => cases hkind
  | node kind children =>
      refine ⟨token, mem_leaves_of_mem_children hitem
        (Routine.mem_leaves_of_mem_parameterTokens htoken), ?_, htext⟩
      rw [Routine.parameterTokens] at htoken
      cases hlist : (SyntaxTree.node kind children).firstChild? .parameterList with
      | none =>
          rw [hlist] at htoken
          cases htoken
      | some list =>
          rw [hlist] at htoken
          exact beq_iff_eq.mp (List.mem_filter.mp htoken).2

/-- Names that move one name of a kind of tokens to a name of that kind. -/
theorem give_of_moves {names : Names} {kind : TokenKind}
    (hkind : kind = .identifier ∨ kind = .register) (hspells : kind.spells new = true)
    (hunused : Unused source new) {token : Token}
    (htoken : token ∈ (ParsedSource.read source origin).tree.leaves) (hnamed : token.kind = kind)
    (hsymbol : Moves token.text new names.symbol) (hregister : Moves token.text new names.register)
    {item : SyntaxTree} (hitem : item ∈ (ParsedSource.read source origin).tree.children) :
    names.Give new item := by
  intro leaf hleaf parent
  have hleaf := mem_leaves_of_mem_children hitem hleaf
  have hnew := hunused.text_ne hspells hleaf
  have hmoved {text : Bytes} (h : text = leaf.text ∨ leaf.text = token.text ∧ text = new) :
      text = leaf.text ∨ text = new ∧ leaf.kind.spells new = true :=
    h.imp_right fun ⟨hold, hgiven⟩ =>
      ⟨hgiven, kind_of_text hkind hleaf htoken hnamed hold ▸ hspells⟩
  rcases names.text_cases parent leaf.text with h | h | h <;> rw [h]
  · exact .inl rfl
  · exact hmoved (hsymbol leaf.text hnew)
  · exact hmoved (hregister leaf.text hnew)

/-- The exchange of the name of a symbol with an identifier that is not used. -/
theorem renames_symbol (hdeclared : ((wholeDeclarations source).1.findSymbol? old).isSome = true)
    (hspells : TokenKind.identifier.spells new = true) (hflag : Flag.ofText? new = none)
    (hunused : Unused source new) :
    Renames source (fun _ => ⟨Equiv.swap old new, id⟩) (Equiv.swap old new) new := by
  obtain ⟨placed, hplaced, token, htoken, hkind, rfl⟩ := Declarations.exists_identifier hdeclared
  rw [List.mem_singleton.mp hplaced] at htoken
  have hne : token.text ≠ [] :=
    ParsedSource.text_ne_nil_of_mem_leaves htoken (by rw [hkind]; decide)
  exact {
    injective := (Equiv.swap token.text new).injective
    empty := Equiv.swap_apply_of_ne_of_ne hne.symm (ne_nil_of_spells hspells).symm
    flag := hflag
    give := fun item hitem => give_of_moves (.inl rfl) hspells hunused htoken hkind
      (moves_swap _ _) (moves_id _ _) hitem
    suit := fun item _ => ⟨rfl, fun _ => rfl⟩
    refreshes := fun item _ => ⟨Function.injective_id, fun _ _ h => h, fun _ _ h => absurd rfl h⟩
    moved := fun leaf hleaf hmoved =>
      (moves_swap _ _).eq_old (hunused.text_ne hspells hleaf) hmoved ▸ hdeclared }

/-- No flag has the text of a register. -/
theorem ofText?_of_register {name : Bytes} (h : TokenKind.register.spells name = true) :
    Flag.ofText? name = none := by
  have hflags : ∀ flag ∈ Flag.all, TokenKind.register.spells (ascii flag.text) = false := by decide
  rw [Flag.ofText?, List.find?_eq_none]
  intro flag hflag htext
  rw [← beq_iff_eq.mp htext, hflags flag hflag] at h
  cases h

/-- In its function, a parameter can be bound under a register that is not used. -/
theorem refreshes_swap {function : Bytes} {item : SyntaxTree}
    (h : item.hasParameter function old = true) (hbuiltin : Register.parse? new = none)
    (hnew : ∀ leaf ∈ item.leaves, leaf.text ≠ new) :
    Routine.Refreshes ⟨id, Equiv.swap old new⟩ item where
  injective := (Equiv.swap old new).injective
  builtin leaf hleaf hnone := by
    dsimp only
    rcases moves_swap old new leaf.text (hnew leaf hleaf) with hsame | ⟨-, hgiven⟩
    · rwa [hsame]
    · rwa [hgiven]
  moved leaf hleaf hmoved := by
    rw [(moves_swap old new).eq_old (hnew leaf hleaf) hmoved]
    simp only [hasParameter, Bool.and_eq_true, List.any_eq_true, beq_iff_eq] at h
    exact h.2

/-- The exchange of the name of a parameter with a register that is not used. -/
theorem renames_parameter (function old : Bytes) (hspells : TokenKind.register.spells new = true)
    (hbuiltin : Register.parse? new = none) (hunused : Unused source new) :
    Renames source (fun item => ⟨id, if item.hasParameter function old then Equiv.swap old new
      else id⟩) id new where
  injective := Function.injective_id
  empty := rfl
  flag := ofText?_of_register hspells
  moved leaf _ hmoved := absurd rfl hmoved
  give item hitem := by
    cases hfunction : item.hasParameter function old with
    | false =>
        intro leaf hleaf parent
        rcases Names.text_cases ⟨id, id⟩ parent leaf.text with h | h | h <;> exact .inl h
    | true =>
        obtain ⟨token, htoken, hkind, rfl⟩ := exists_parameter hitem hfunction
        exact give_of_moves (.inr rfl) hspells hunused htoken hkind (moves_id _ _) (moves_swap _ _)
          hitem
  suit item hitem := by
    refine ⟨rfl, fun hkind => if_neg fun hfunction => hkind ?_⟩
    simp only [hasParameter, Bool.and_eq_true, beq_iff_eq] at hfunction
    exact hfunction.1.1
  refreshes item hitem := by
    cases hfunction : item.hasParameter function old with
    | false => exact ⟨Function.injective_id, fun _ _ h => h, fun _ _ h => absurd rfl h⟩
    | true =>
        exact refreshes_swap hfunction hbuiltin fun leaf hleaf =>
          hunused.text_ne hspells (mem_leaves_of_mem_children hitem hleaf)

/-- The symbols of a program are written in its source. -/
theorem find?_unused (base : UInt32) (hspells : TokenKind.identifier.spells new = true)
    (hunused : Unused source new) :
    (LinkedProgram.ofUnits base (ofSource source).units).symbols.find? new = none := by
  have hlabels : ∀ unit ∈ (ofSource source).units, ∀ mark ∈ unit.labels, mark.name ≠ new := by
    intro unit hunit mark hmark
    obtain ⟨lowered, hlowered, rfl⟩ := List.mem_map.mp hunit
    obtain ⟨routine, hroutine, rfl⟩ := List.mem_map.mp hlowered
    have hname : mark.name ∈ routine.labels.map Prod.fst :=
      routine.lower_labels ▸ List.mem_map_of_mem hmark
    obtain ⟨label, hlabel, hname⟩ := List.mem_map.mp hname
    rw [← hname]
    exact @Routine.resolve_labels_spelled (· ≠ new) _ _ (ne_nil_of_spells hspells).symm
      (fun leaf hleaf _ => hunused.text_ne hspells hleaf) routine hroutine label hlabel
  rw [NameMap.find?, Option.map_eq_none_iff, List.find?_eq_none]
  exact fun entry hentry => by
    simpa using @LinkedProgram.ofUnits_symbols (· ≠ new) base _ hlabels entry hentry

/-- A source with other names is linked to the same code. -/
theorem Renames.linked {names : SyntaxTree → Names} {symbol : Bytes → Bytes}
    (h : Renames source names symbol new) (hentry : symbol entrySymbol = entrySymbol)
    (hlisted : (ofSource source).succeeded = true) (base : UInt32) :
    let twin := ofSource ((ParsedSource.read source origin).tree.renameItems names).text
    twin.succeeded = true ∧
      (LinkedProgram.ofUnits base (ofSource source).units).Renamed symbol
        (LinkedProgram.ofUnits base twin.units) := by
  intro twin
  obtain ⟨hquiet, hunits⟩ := h.listed (succeeded_iff.mp hlisted)
  have hplaced (units : List CodeUnit) :
      (units.map fun unit => (⟨unit.encode, .origin⟩ : PlacedUnit)).map PlacedUnit.bare =
        (units.map CodeUnit.bare).map fun unit => ⟨unit.encode, .origin⟩ := by
    rw [List.map_map, List.map_map]
    exact List.map_congr_left fun unit _ => by simp [PlacedUnit.bare, CodeUnit.encode_bare]
  have hsame : (LinkedProgram.ofUnits base twin.units).bare =
      (LinkedProgram.ofUnits base ((ofSource source).units.map (CodeUnit.rename symbol))).bare := by
    rw [LinkedProgram.ofUnits, LinkedProgram.ofUnits]
    refine LinkedProgram.link_congr ?_ base []
    rw [hplaced, hplaced, hunits]
  have hrenamed := LinkedProgram.ofUnits_rename h.injective hentry base (ofSource source).units
  exact ⟨succeeded_iff.mpr hquiet, hrenamed.of_bare hsame⟩

/-- Names are arbitrary. A source that is listed without an error is renamed: one of its symbols,
other than the entry, gets an identifier that the source does not use and that is no flag, or a
parameter of one of its functions gets a register that the source does not use and that is not
builtin. It is listed without an error as well, and under every base it is linked to the same code
with the same entry. Of the symbols of the program nothing changes but the name. -/
theorem ofSource_renamed (hlisted : (ofSource source).succeeded = true) :
    let file := (ParsedSource.read source origin).tree
    (∀ old new, ((wholeDeclarations source).1.findSymbol? old).isSome = true → old ≠ entrySymbol →
      TokenKind.identifier.spells new = true → Flag.ofText? new = none → new ≠ entrySymbol →
      Unused source new →
        let twin := ofSource (file.renameSymbol old new).text
        twin.succeeded = true ∧ ∀ base,
          let program := LinkedProgram.ofUnits base (ofSource source).units
          let other := LinkedProgram.ofUnits base twin.units
          other.code = program.code ∧ other.entry = program.entry ∧
            other.succeeded = program.succeeded ∧
            other.symbols.find? new = program.symbols.find? old ∧
            other.symbols.find? old = none ∧
            ∀ name, name ≠ old → name ≠ new →
              other.symbols.find? name = program.symbols.find? name) ∧
    ∀ function old new, TokenKind.register.spells new = true → Register.parse? new = none →
      Unused source new →
        let twin := ofSource (file.renameParameter function old new).text
        twin.succeeded = true ∧ ∀ base,
          let program := LinkedProgram.ofUnits base (ofSource source).units
          let other := LinkedProgram.ofUnits base twin.units
          other.code = program.code ∧ other.entry = program.entry ∧
            other.succeeded = program.succeeded ∧ other.symbols = program.symbols := by
  intro file
  constructor
  · intro old new hdeclared hold hspells hflag hnew hunused twin
    have hnames : file.renameSymbol old new = file.renameItems fun _ => ⟨Equiv.swap old new, id⟩ :=
      renameItems_congr fun item hitem leaf hleaf =>
        ⟨replaceName_eq (hunused.text_ne hspells (mem_leaves_of_mem_children hitem hleaf)), rfl⟩
    have hlinked := (renames_symbol hdeclared hspells hflag hunused).linked
      (Equiv.swap_apply_of_ne_of_ne hold.symm hnew.symm) hlisted
    rw [← hnames] at hlinked
    refine ⟨(hlinked 0).1, fun base => ?_⟩
    obtain ⟨hcode, -, hentry, hsymbols, hsucceeded⟩ := (hlinked base).2
    refine ⟨hcode, hentry, hsucceeded, ?_, ?_, fun name hname hother => ?_⟩
    · have hfind := hsymbols.find? old
      rwa [Equiv.swap_apply_left] at hfind
    · have hfind := hsymbols.find? new
      rwa [Equiv.swap_apply_right, find?_unused base hspells hunused] at hfind
    · have hfind := hsymbols.find? name
      rwa [Equiv.swap_apply_of_ne_of_ne hname hother] at hfind
  · intro function old new hspells hbuiltin hunused twin
    have hnames : file.renameParameter function old new = file.renameItems fun item =>
        ⟨id, if item.hasParameter function old then Equiv.swap old new else id⟩ := by
      refine renameItems_congr fun item hitem leaf hleaf => ⟨rfl, ?_⟩
      have hleaf := hunused.text_ne hspells (mem_leaves_of_mem_children hitem hleaf)
      dsimp only
      split
      · exact replaceName_eq hleaf
      · rfl
    have hlinked := (renames_parameter function old hspells hbuiltin hunused).linked rfl hlisted
    rw [← hnames] at hlinked
    refine ⟨(hlinked 0).1, fun base => ?_⟩
    obtain ⟨hcode, -, hentry, hsymbols, hsucceeded⟩ := (hlinked base).2
    exact ⟨hcode, hentry, hsucceeded, hsymbols.otherSorted.ext hsymbols.sorted hsymbols.find?⟩

/-- A function with another name, and with another name for its parameter. -/
theorem ofSource_renamed_function :
    let source :=
      ascii "ENTRY:\n    call F, 1\nfunction F($x)\n    mov $v0, $x\n    return\nendfun\n"
    let named :=
      ascii "ENTRY:\n    call G, 1\nfunction G($x)\n    mov $v0, $x\n    return\nendfun\n"
    let bound :=
      ascii "ENTRY:\n    call F, 1\nfunction F($y)\n    mov $v0, $y\n    return\nendfun\n"
    let file := (ParsedSource.read source origin).tree
    let program := LinkedProgram.ofUnits 0x100 (ofSource source).units
    let other := LinkedProgram.ofUnits 0x100 (ofSource named).units
    (ofSource source).succeeded = true ∧
      (file.renameSymbol (ascii "F") (ascii "G")).text = named ∧
      other.code = program.code ∧
      other.symbols.find? (ascii "G") = program.symbols.find? (ascii "F") ∧
      (file.renameParameter (ascii "F") (ascii "$x") (ascii "$y")).text = bound ∧
      (LinkedProgram.ofUnits 0x100 (ofSource bound).units).code = program.code := by
  intro source named bound file program other
  have hlisted : (ofSource source).succeeded = true := by decide +kernel
  have hdeclared : ((wholeDeclarations source).1.findSymbol? (ascii "F")).isSome = true := by
    decide +kernel
  have hnamed : (file.renameSymbol (ascii "F") (ascii "G")).text = named := by decide +kernel
  have hbound : (file.renameParameter (ascii "F") (ascii "$x") (ascii "$y")).text = bound := by
    decide +kernel
  obtain ⟨hsymbol, hparameter⟩ := ofSource_renamed hlisted
  obtain ⟨-, hother⟩ := hsymbol (ascii "F") (ascii "G") hdeclared (by decide) (by decide)
    (by decide) (by decide) (by decide +kernel)
  obtain ⟨-, htwin⟩ := hparameter (ascii "F") (ascii "$x") (ascii "$y") (by decide) (by decide)
    (by decide +kernel)
  obtain ⟨hcode, -, -, hfind, -⟩ := hother 0x100
  obtain ⟨hsame, -⟩ := htwin 0x100
  rw [hnamed] at hcode hfind
  rw [hbound] at hsame
  exact ⟨hlisted, hnamed, hcode, hfind, hbound, hsame⟩

end Listing

end NovelAsm
