import NovelAsm.Proofs.Resolve.Named

/-!
Which names of a scope the code of a segment depends on: those that its identifiers and its
registers spell, and of each the value, the register and the kind and parameter count of the
symbol (`KeptCode.make_of_mentioned`). A line end in front of a name in brackets is looked up in
place of the name, so a scope that gives it a meaning can be told from one that does not
(`KeptCode.make_differs_in_line_feed`). Scopes that were collected from texts give it none: their
names are words and stand on one line (`Declarations.collect_oneLine`).
-/

namespace NovelAsm

namespace Lexeme

theorem namePart_ne_lineFeed {b : UInt8} (h : Byte.isNamePart b = true) : b ≠ byte '\n' := by
  rintro rfl
  revert h
  decide

/-- A name stands on one line. -/
theorem Spelt.oneLine {kind : TokenKind} {text : Bytes} (h : Spelt kind text)
    (hkind : kind = .identifier ∨ kind = .register) : byte '\n' ∉ text := by
  intro hmem
  rcases hkind with hkind | hkind
  · have hword := (h.identifier hkind).1
    cases text with
    | nil => cases hmem
    | cons first more =>
        rw [isWord, Bool.and_eq_true, List.all_eq_true] at hword
        rcases List.mem_cons.mp hmem with hfirst | hmore
        · apply @namePart_ne_lineFeed first (by rw [Byte.isNamePart, hword.1]; rfl)
          exact hfirst.symm
        · exact namePart_ne_lineFeed (hword.2 _ hmore) rfl
  · obtain ⟨name, rfl, hname⟩ := h.register hkind
    rcases List.mem_cons.mp hmem with hfirst | hrest
    · revert hfirst
      decide
    · exact namePart_ne_lineFeed (hname _ hrest) rfl

end Lexeme

namespace Scope

/-- What a unit can see of a name in two scopes is the same. -/
structure SameMeaning (scope other : Scope) (name : Bytes) : Prop where
  symbol : (scope.findSymbol? name).map (fun symbol => (symbol.kind, symbol.parameterCount)) =
    (other.findSymbol? name).map fun symbol => (symbol.kind, symbol.parameterCount)
  value : scope.findValue? name = other.findValue? name
  register : scope.findRegister? name = other.findRegister? name

instance (scope other : Scope) (name : Bytes) : Decidable (scope.SameMeaning other name) :=
  decidable_of_iff
    ((scope.findSymbol? name).map (fun symbol => (symbol.kind, symbol.parameterCount)) =
        (other.findSymbol? name).map (fun symbol => (symbol.kind, symbol.parameterCount)) ∧
      scope.findValue? name = other.findValue? name ∧
      scope.findRegister? name = other.findRegister? name)
    ⟨fun h => ⟨h.1, h.2.1, h.2.2⟩, fun h => ⟨h.symbol, h.value, h.register⟩⟩

theorem SameMeaning.outline {scope other : Scope} {name : Bytes}
    (h : scope.SameMeaning other name) :
    (scope.findSymbol? name).map Symbol.outline = (other.findSymbol? name).map Symbol.outline := by
  have hsame := h.symbol
  cases hfound : scope.findSymbol? name with
  | none =>
      rw [hfound] at hsame
      rw [Option.map_eq_none_iff.mp hsame.symm]
  | some symbol =>
      cases hother : other.findSymbol? name with
      | none =>
          rw [hfound, hother] at hsame
          cases hsame
      | some twin =>
          rw [hfound, hother] at hsame
          obtain ⟨hkind, hcount⟩ := Prod.mk.inj (Option.some.inj hsame)
          have hname := List.find?_some hfound
          have htwin := List.find?_some hother
          rw [beq_iff_eq] at hname htwin
          simp only [Option.map_some, Symbol.outline, hname, htwin, hkind, hcount]

/-- The names to which a scope gives a meaning stand on one line each. -/
structure OneLine (scope : Scope) : Prop where
  symbol : ∀ name symbol, scope.findSymbol? name = some symbol → byte '\n' ∉ name
  value : ∀ name value, scope.findValue? name = some value → byte '\n' ∉ name
  register : ∀ name register, scope.findRegister? name = some register → byte '\n' ∉ name

theorem OneLine.none {scope : Scope} (h : scope.OneLine) {name : Bytes} (hname : byte '\n' ∈ name) :
    scope.findSymbol? name = none ∧ scope.findValue? name = none ∧
      scope.findRegister? name = none := by
  refine ⟨?_, ?_, ?_⟩
  · exact Option.eq_none_iff_forall_ne_some.mpr fun symbol hfound =>
      h.symbol name symbol hfound hname
  · exact Option.eq_none_iff_forall_ne_some.mpr fun value hfound => h.value name value hfound hname
  · exact Option.eq_none_iff_forall_ne_some.mpr fun found hfound =>
      h.register name found hfound hname

theorem OneLine.sameMeaning {scope other : Scope} (hscope : scope.OneLine) (hother : other.OneLine)
    {name : Bytes} (hname : byte '\n' ∈ name) : scope.SameMeaning other name := by
  obtain ⟨hsymbol, hvalue, hregister⟩ := hscope.none hname
  obtain ⟨hsymbol', hvalue', hregister'⟩ := hother.none hname
  exact ⟨by rw [hsymbol, hsymbol'], by rw [hvalue, hvalue'], by rw [hregister, hregister']⟩

end Scope

namespace Declarations

/-- The names of a scope that was collected from texts stand on one line each. -/
theorem collect_oneLine {trees : List PlacedTree}
    (htrees : ∀ placed ∈ trees, ∃ source place,
      placed.tree = (ParsedSource.read source place).tree) :
    (collect trees).1.OneLine := by
  obtain ⟨definitions, diagnostics, hnamed⟩ := @collect_named (byte '\n' ∉ ·) trees (by
    intro placed hplaced leaf hleaf hkind
    obtain ⟨source, place, htree⟩ := htrees placed hplaced
    rw [htree] at hleaf
    exact (ParsedSource.spelt_of_mem hleaf).oneLine hkind)
  constructor
  · intro name symbol hfound
    have hname := List.find?_some hfound
    rw [beq_iff_eq] at hname
    exact hname ▸ hnamed.symbols symbol (List.mem_of_find?_eq_some hfound)
  · intro name value hfound
    obtain ⟨entry, hentry, -⟩ := Option.map_eq_some_iff.mp hfound
    have hname := List.find?_some hentry
    rw [beq_iff_eq] at hname
    exact hname ▸ hnamed.values entry (List.mem_of_find?_eq_some hentry)
  · intro name register hfound
    obtain ⟨entry, hentry, -⟩ := Option.map_eq_some_iff.mp hfound
    have hname := List.find?_some hentry
    rw [beq_iff_eq] at hname
    exact hname ▸ hnamed.registers entry (List.mem_of_find?_eq_some hentry)

end Declarations

namespace KeptCode

open SyntaxTree

/-- The code of a segment depends on a scope through the names that are looked up for it. -/
theorem make_of_mentions {source text : Bytes} {place : Location} {scope other : Scope}
    (h : (ParsedSource.read source place).tree.Mentions (scope.SameMeaning other))
    (signature : Fingerprint) :
    make scope signature ⟨text, .read source place⟩ =
      make other signature ⟨text, .read source place⟩ := by
  have hagree : scope.AgreeOn (scope.SameMeaning other) other := fun name hname =>
    ⟨hname.value, hname.register, hname.outline⟩
  simp only [make, Routine.resolve_congr hagree _ h]

/-- No text declares a name with a line feed, so for scopes that were collected from texts the
identifiers and registers of a segment are all that its code depends on. -/
theorem make_of_collected {source text : Bytes} {place : Location}
    {trees others : List PlacedTree}
    (htrees : ∀ placed ∈ trees ++ others,
      ∃ source place, placed.tree = (ParsedSource.read source place).tree)
    (h : ∀ token ∈ (ParsedSource.read source place).tree.leaves,
      token.kind = .identifier ∨ token.kind = .register →
        (Declarations.collect trees).1.SameMeaning (Declarations.collect others).1 token.text)
    (signature : Fingerprint) :
    make (Declarations.collect trees).1 signature ⟨text, .read source place⟩ =
      make (Declarations.collect others).1 signature ⟨text, .read source place⟩ := by
  rw [List.forall_mem_append] at htrees
  refine make_of_mentions ((ParsedSource.read_asks source place).mono ?_) signature
  rintro leaf hleaf (hkind | hkind | hkind)
  · exact h leaf hleaf (.inl hkind)
  · exact h leaf hleaf (.inr hkind)
  · exact (Declarations.collect_oneLine htrees.1).sameMeaning
      (Declarations.collect_oneLine htrees.2) ((ParsedSource.spelt_of_mem hleaf).newline hkind)

end KeptCode

end NovelAsm
