import Mathlib.Data.List.Induction
import NovelAsm.Proofs.NameMap
import NovelAsm.Proofs.Resolve.Visible

/-!
What the signature of a scope remembers. A signature is fed one record for each symbol, value
and register alias: the name, its length and some words. Read from its end, a stream of
records can be taken apart again, since the last bytes of a record have a fixed size and say
how long the name in front of them is.

But no record says which table it belongs to, and nothing stands between the tables: a symbol
and a value are both a name with two words. So the stream has to be taken apart with the sizes
of the tables in hand, and then it determines all that can be seen of a scope
(`Scope.stream_eq_iff`); without them it does not (`Scope.stream_eq_of_subroutine_and_value`).
-/

namespace NovelAsm

theorem toUInt64_inj {n m : Nat} (hn : n < 2 ^ 64) (hm : m < 2 ^ 64)
    (h : n.toUInt64 = m.toUInt64) : n = m := by
  have hnat := congrArg UInt64.toNat h
  simp only [Nat.toUInt64, UInt64.toNat_ofNat'] at hnat
  rwa [Nat.mod_eq_of_lt hn, Nat.mod_eq_of_lt hm] at hnat

namespace Fingerprint

/-- A name, its length and some words. -/
structure Record where
  name : Bytes
  words : List UInt64
deriving DecidableEq

/-- What a record feeds into a fingerprint. -/
def Record.bytes (record : Record) : Bytes :=
  (Part.text record.name).bytes ++ record.words.flatMap wordBytes

/-- A record of a name that a machine word can count, with a number of words. -/
structure Record.Fits (width : Nat) (record : Record) : Prop where
  name : record.name.length < 2 ^ 64
  words : record.words.length = width

theorem length_wordBytes (value : UInt64) : (wordBytes value).length = 8 := rfl

theorem wordBytes_inj {a b : UInt64} (h : wordBytes a = wordBytes b) : a = b := by
  simp only [wordBytes, List.cons.injEq, and_true] at h
  obtain ⟨h0, h1, h2, h3, h4, h5, h6, h7⟩ := h
  apply UInt64.toNat_inj.mp
  have hbyte {n : Nat} (hshift : ((a >>> UInt64.ofNat n).toUInt8 = (b >>> UInt64.ofNat n).toUInt8))
      (hn : n < 64) : a.toNat / 2 ^ n % 256 = b.toNat / 2 ^ n % 256 := by
    have hnat := congrArg UInt8.toNat hshift
    simp only [UInt64.toNat_toUInt8, UInt64.toNat_shiftRight, UInt64.toNat_ofNat',
      Nat.shiftRight_eq_div_pow] at hnat
    rwa [Nat.mod_eq_of_lt (a := n) (by omega), Nat.mod_eq_of_lt (a := n) hn] at hnat
  have ha := a.toNat_lt
  have hb := b.toNat_lt
  have b0 := hbyte (n := 0) (by simpa using h0) (by omega)
  have b1 := hbyte (n := 8) h1 (by omega)
  have b2 := hbyte (n := 16) h2 (by omega)
  have b3 := hbyte (n := 24) h3 (by omega)
  have b4 := hbyte (n := 32) h4 (by omega)
  have b5 := hbyte (n := 40) h5 (by omega)
  have b6 := hbyte (n := 48) h6 (by omega)
  have b7 := hbyte (n := 56) h7 (by omega)
  omega

theorem flatMap_wordBytes_inj {words others : List UInt64} (hlength : words.length = others.length)
    (h : words.flatMap wordBytes = others.flatMap wordBytes) : words = others := by
  induction words generalizing others with
  | nil => exact (List.length_eq_zero_iff.mp hlength.symm).symm
  | cons first rest ih =>
      cases others with
      | nil => cases hlength
      | cons second more =>
          rw [List.flatMap_cons, List.flatMap_cons] at h
          obtain ⟨hfirst, hrest⟩ := List.append_inj h rfl
          rw [wordBytes_inj hfirst, ih (Nat.succ.inj hlength) hrest]

theorem length_flatMap_wordBytes (words : List UInt64) :
    (words.flatMap wordBytes).length = 8 * words.length := by
  induction words with
  | nil => rfl
  | cons first rest ih =>
      rw [List.flatMap_cons, List.length_append, ih, length_wordBytes, List.length_cons]
      omega

variable {width : Nat}

/-- The last record of a stream can be taken off. -/
theorem Record.append_inj {record other : Record} (hrecord : record.Fits width)
    (hother : other.Fits width) {front rest : Bytes}
    (h : front ++ record.bytes = rest ++ other.bytes) : front = rest ∧ record = other := by
  obtain ⟨name, words⟩ := record
  obtain ⟨twin, others⟩ := other
  have hwidth : words.length = others.length := hrecord.words.trans hother.words.symm
  simp only [Record.bytes, Part.bytes, ← List.append_assoc] at h
  obtain ⟨hnames, hwords⟩ := List.append_inj' h (by
    rw [length_flatMap_wordBytes, length_flatMap_wordBytes, hwidth])
  obtain ⟨htexts, hlengths⟩ := List.append_inj' hnames rfl
  have hcount := toUInt64_inj hrecord.name hother.name (wordBytes_inj hlengths)
  obtain ⟨hfront, hname⟩ := List.append_inj' htexts hcount
  refine ⟨hfront, ?_⟩
  rw [hname, flatMap_wordBytes_inj hwidth hwords]

/-- As many records of one width as are known to end a stream can be taken off. -/
theorem records_append_inj {records others : List Record}
    (hrecords : ∀ record ∈ records, record.Fits width)
    (hothers : ∀ record ∈ others, record.Fits width) (hlength : records.length = others.length)
    {front rest : Bytes}
    (h : front ++ records.flatMap Record.bytes = rest ++ others.flatMap Record.bytes) :
    front = rest ∧ records = others := by
  induction records using List.reverseRecOn generalizing others with
  | nil =>
      obtain rfl := List.length_eq_zero_iff.mp hlength.symm
      simpa using h
  | append_singleton records record ih =>
      obtain rfl | ⟨others, other, rfl⟩ := List.eq_nil_or_concat' others
      · simp at hlength
      simp only [List.flatMap_append, List.flatMap_cons, List.flatMap_nil, List.append_nil,
        ← List.append_assoc] at h
      obtain ⟨hfront, hlast⟩ := Record.append_inj (hrecords record (by simp))
        (hothers other (by simp)) h
      obtain ⟨hsame, hinit⟩ := ih (fun record hmem => hrecords record (by simp [hmem]))
        (fun record hmem => hothers record (by simp [hmem])) (by simpa using hlength) hfront
      exact ⟨hsame, by rw [hinit, hlast]⟩

/-- A stream of records of one width can be taken apart to its beginning. -/
theorem records_inj {records others : List Record}
    (hrecords : ∀ record ∈ records, record.Fits width)
    (hothers : ∀ record ∈ others, record.Fits width)
    (h : records.flatMap Record.bytes = others.flatMap Record.bytes) : records = others := by
  have hsize {records : List Record} (hrecords : ∀ record ∈ records, record.Fits width) :
      (records.flatMap Record.bytes).length =
        (records.map fun record => record.name.length).sum + (8 + 8 * width) * records.length := by
    induction records with
    | nil => rfl
    | cons first rest ih =>
        have hwords := (hrecords first (List.mem_cons_self ..)).words
        have hfirst : first.bytes.length = first.name.length + (8 + 8 * width) := by
          rw [Record.bytes, Part.bytes, List.length_append, List.length_append,
            length_flatMap_wordBytes, length_wordBytes, hwords, Nat.add_assoc]
        rw [List.flatMap_cons, List.length_append, hfirst,
          ih fun record hmem => hrecords record (List.mem_cons_of_mem _ hmem), List.map_cons,
          List.sum_cons, List.length_cons, Nat.mul_succ]
        omega
  induction records using List.reverseRecOn generalizing others with
  | nil =>
      have hnone := hsize hothers
      rw [← h, List.flatMap_nil, List.length_nil] at hnone
      cases others with
      | nil => rfl
      | cons other more =>
          rw [List.length_cons, Nat.mul_succ] at hnone
          omega
  | append_singleton records record ih =>
      obtain rfl | ⟨others, other, rfl⟩ := List.eq_nil_or_concat' others
      · have hnone := hsize hrecords
        rw [h, List.flatMap_nil, List.length_nil, List.length_append, List.length_singleton,
          Nat.mul_succ] at hnone
        omega
      · simp only [List.flatMap_append, List.flatMap_cons, List.flatMap_nil,
          List.append_nil] at h
        obtain ⟨hfront, hlast⟩ := Record.append_inj (hrecords record (by simp))
          (hothers other (by simp)) h
        rw [ih (fun record hmem => hrecords record (by simp [hmem]))
          (fun record hmem => hothers record (by simp [hmem])) hfront, hlast]

end Fingerprint

theorem SymbolKind.code_inj {kind other : SymbolKind} (h : kind.code = other.code) :
    kind = other := by
  revert h
  cases kind <;> cases other <;> decide

theorem ValueKind.code_inj {kind other : ValueKind} (h : kind.code = other.code) :
    kind = other := by
  revert h
  cases kind <;> cases other <;> decide

theorem Register.raw_inj {register other : Register} (h : register.raw = other.raw) :
    register = other := by
  cases register with
  | value index =>
      cases other with
      | value twin => exact congrArg Register.value (Fin.ext h)
      | argument twin =>
          have hindex := index.isLt
          simp only [raw, limit] at h
          omega
  | argument index =>
      cases other with
      | value twin =>
          have htwin := twin.isLt
          simp only [raw, limit] at h
          omega
      | argument twin =>
          simp only [raw, limit] at h
          exact congrArg Register.argument (Fin.ext (by omega))

namespace Scope

open Fingerprint

/-- What builds a scope. -/
inductive Change where
  | symbol (symbol : Symbol)
  | value (name : Bytes) (value : Value)
  | register (name : Bytes) (register : Register)
deriving DecidableEq

namespace Change

def name : Change → Bytes
  | symbol declared => declared.name
  | value name _ | register name _ => name

/-- The parameters that a change declares. -/
def parameterCount : Change → Nat
  | symbol declared => declared.parameterCount
  | value .. | register .. => 0

/-- A change that a machine can hold: words count the bytes of its name and its parameters. -/
def Fits (change : Change) : Prop := change.name.length < 2 ^ 64 ∧ change.parameterCount < 2 ^ 64

instance (change : Change) : Decidable change.Fits := inferInstanceAs (Decidable (_ ∧ _))

end Change

/-- The scope behind a change. -/
def change (scope : Scope) : Change → Scope
  | .symbol symbol => (scope.declare symbol).1
  | .value name value => scope.defineValue name value
  | .register name register => scope.defineRegister name register

/-- The scope that changes build. -/
def build (changes : List Change) : Scope := changes.foldl change empty

/-- The bytes that a signature is fed. -/
def stream (scope : Scope) : Bytes := scope.parts.flatMap Part.bytes

theorem signature_eq_addBytes (scope : Scope) :
    scope.signature = (Fingerprint.ofText (ascii "scope")).addBytes scope.stream := by
  have hparts (parts : List Part) (seed : Fingerprint) :
      parts.foldl Fingerprint.add seed = seed.addBytes (parts.flatMap Part.bytes) := by
    induction parts generalizing seed with
    | nil => rfl
    | cons first rest ih =>
        rw [List.foldl_cons, ih, List.flatMap_cons, addBytes, addBytes, List.foldl_append,
          Fingerprint.add, addBytes]
  exact hparts scope.parts _

/-- Two scopes say the same: they have the same symbols in one order, wherever these are
declared, and give every name the same value and the same register. -/
structure Alike (scope other : Scope) : Prop where
  symbols : scope.symbols.map Symbol.outline = other.symbols.map Symbol.outline
  values : ∀ name, scope.findValue? name = other.findValue? name
  registers : ∀ name, scope.findRegister? name = other.findRegister? name

/-- What is true of each scope that changes build. -/
structure Sound (scope : Scope) : Prop where
  valuesSorted : scope.values.Sorted
  registersSorted : scope.registers.Sorted
  symbolsFit : ∀ symbol ∈ scope.symbols, (Change.symbol symbol).Fits
  valuesFit : ∀ entry ∈ scope.values.entries, (Change.value entry.1 entry.2).Fits
  registersFit : ∀ entry ∈ scope.registers.entries, (Change.register entry.1 entry.2).Fits

theorem sound_empty : empty.Sound where
  valuesSorted := NameMap.sorted_empty
  registersSorted := NameMap.sorted_empty
  symbolsFit := List.forall_mem_nil _
  valuesFit := List.forall_mem_nil _
  registersFit := List.forall_mem_nil _

theorem Sound.change {scope : Scope} (h : scope.Sound) {change : Change} (hfits : change.Fits) :
    (scope.change change).Sound := by
  cases change with
  | symbol symbol =>
      simp only [Scope.change, declare]
      split
      · exact h
      · refine { h with symbolsFit := fun other hother => ?_ }
        rcases List.mem_append.mp hother with hother | hother
        · exact h.symbolsFit other hother
        · rw [List.mem_singleton.mp hother]
          exact hfits
  | value name value =>
      refine { h with valuesSorted := h.valuesSorted.insertNew name value, valuesFit := ?_ }
      intro entry hentry
      rcases NameMap.mem_insertInto hentry with rfl | hentry
      · exact hfits
      · exact h.valuesFit entry hentry
  | register name register =>
      refine { h with
        registersSorted := h.registersSorted.insertNew name register, registersFit := ?_ }
      intro entry hentry
      rcases NameMap.mem_insertInto hentry with rfl | hentry
      · exact hfits
      · exact h.registersFit entry hentry

theorem build_sound {changes : List Change} (hfits : ∀ change ∈ changes, change.Fits) :
    (build changes).Sound := by
  have hrun {scope : Scope} (h : scope.Sound) (hfits : ∀ change ∈ changes, change.Fits) :
      (changes.foldl Scope.change scope).Sound := by
    induction changes generalizing scope with
    | nil => exact h
    | cons first rest ih =>
        rw [List.forall_mem_cons] at hfits
        exact ih hfits.2 (h.change hfits.1) hfits.2
  exact hrun sound_empty hfits

section Records

def symbolRecord (symbol : Symbol) : Record :=
  ⟨symbol.name, [symbol.kind.code, symbol.parameterCount.toUInt64]⟩

def valueRecord (entry : Bytes × Value) : Record :=
  ⟨entry.1, [entry.2.number.toUInt32.toUInt64, entry.2.kind.code]⟩

def registerRecord (entry : Bytes × Register) : Record := ⟨entry.1, [entry.2.raw.toUInt64]⟩

/-- The stream of a scope is that of its records. -/
theorem stream_eq (scope : Scope) : scope.stream =
    (scope.symbols.map symbolRecord).flatMap Record.bytes ++
      (scope.values.entries.map valueRecord).flatMap Record.bytes ++
        (scope.registers.entries.map registerRecord).flatMap Record.bytes := by
  simp only [stream, parts, List.flatMap_append, List.flatMap_map, List.flatMap_assoc]
  congr 2

theorem outline_eq_of_record {symbol other : Symbol} (hfits : (Change.symbol symbol).Fits)
    (hother : (Change.symbol other).Fits) (h : symbolRecord symbol = symbolRecord other) :
    symbol.outline = other.outline := by
  simp only [symbolRecord, Record.mk.injEq, List.cons.injEq, and_true] at h
  obtain ⟨hname, hkind, hcount⟩ := h
  have hcount : symbol.parameterCount = other.parameterCount :=
    toUInt64_inj hfits.2 hother.2 hcount
  rw [Symbol.outline, hname, SymbolKind.code_inj hkind, hcount, Symbol.outline]

theorem valueRecord_inj {entry other : Bytes × Value} (h : valueRecord entry = valueRecord other) :
    entry = other := by
  obtain ⟨name, number, kind⟩ := entry
  obtain ⟨twin, numeral, sort⟩ := other
  simp only [valueRecord, Record.mk.injEq, List.cons.injEq, and_true] at h
  obtain ⟨rfl, hnumber, hkind⟩ := h
  obtain rfl := ValueKind.code_inj hkind
  have hword : number.toUInt32 = numeral.toUInt32 := by
    apply UInt32.toNat_inj.mp
    rw [← UInt32.toNat_toUInt64, hnumber, UInt32.toNat_toUInt64]
  rw [show number = numeral from congrArg Int32.ofUInt32 hword]

theorem registerRecord_inj {entry other : Bytes × Register}
    (h : registerRecord entry = registerRecord other) : entry = other := by
  obtain ⟨name, register⟩ := entry
  obtain ⟨twin, source⟩ := other
  have hsmall (register : Register) : register.raw < 2 ^ 64 := by
    cases register with
    | value index | argument index =>
        have hindex := index.isLt
        simp only [Register.raw, Register.limit]
        omega
  simp only [registerRecord, Record.mk.injEq, List.cons.injEq, and_true] at h
  rw [h.1, Register.raw_inj (toUInt64_inj (hsmall _) (hsmall _) h.2)]

/-- Lists of one image have one image under each function that the first one determines. -/
theorem map_eq_of_map_eq {α β γ : Type} {f : α → β} {g : α → γ} {items others : List α}
    (hfg : ∀ a ∈ items, ∀ b ∈ others, f a = f b → g a = g b) (h : items.map f = others.map f) :
    items.map g = others.map g := by
  induction items generalizing others with
  | nil => rw [List.map_eq_nil_iff.mp h.symm]
  | cons first rest ih =>
      cases others with
      | nil => cases h
      | cons second more =>
          rw [List.map_cons, List.map_cons, List.cons.injEq] at h ⊢
          refine ⟨hfg _ (List.mem_cons_self ..) _ (List.mem_cons_self ..) h.1, ih ?_ h.2⟩
          intro a ha b hb
          exact hfg a (List.mem_cons_of_mem _ ha) b (List.mem_cons_of_mem _ hb)

variable {scope other : Scope}

theorem Sound.symbolRecord_fits (h : scope.Sound) :
    ∀ record ∈ scope.symbols.map symbolRecord, record.Fits 2 := by
  intro record hrecord
  obtain ⟨symbol, hsymbol, rfl⟩ := List.mem_map.mp hrecord
  exact ⟨(h.symbolsFit symbol hsymbol).1, rfl⟩

theorem Sound.valueRecord_fits (h : scope.Sound) :
    ∀ record ∈ scope.values.entries.map valueRecord, record.Fits 2 := by
  intro record hrecord
  obtain ⟨entry, hentry, rfl⟩ := List.mem_map.mp hrecord
  exact ⟨(h.valuesFit entry hentry).1, rfl⟩

theorem Sound.registerRecord_fits (h : scope.Sound) :
    ∀ record ∈ scope.registers.entries.map registerRecord, record.Fits 1 := by
  intro record hrecord
  obtain ⟨entry, hentry, rfl⟩ := List.mem_map.mp hrecord
  exact ⟨(h.registersFit entry hentry).1, rfl⟩

/-- The tables of one size are taken off the stream from the last one to the first. -/
theorem alike_of_stream_eq (h : scope.Sound) (hother : other.Sound)
    (hvalues : scope.values.entries.length = other.values.entries.length)
    (hregisters : scope.registers.entries.length = other.registers.entries.length)
    (hstream : scope.stream = other.stream) : scope.Alike other := by
  rw [stream_eq, stream_eq] at hstream
  obtain ⟨hfront, hregisters⟩ := records_append_inj h.registerRecord_fits
    hother.registerRecord_fits (by simpa using hregisters) hstream
  obtain ⟨hsymbols, hvalues⟩ := records_append_inj h.valueRecord_fits hother.valueRecord_fits
    (by simpa using hvalues) hfront
  have hsymbols := records_inj h.symbolRecord_fits hother.symbolRecord_fits hsymbols
  have hvalues := map_eq_of_map_eq (g := id) (fun _ _ _ _ => valueRecord_inj) hvalues
  have hregisters := map_eq_of_map_eq (g := id) (fun _ _ _ _ => registerRecord_inj) hregisters
  rw [List.map_id, List.map_id] at hvalues hregisters
  constructor
  · refine map_eq_of_map_eq (fun symbol hsymbol twin htwin => ?_) hsymbols
    exact outline_eq_of_record (h.symbolsFit symbol hsymbol) (hother.symbolsFit twin htwin)
  · intro name
    rw [findValue?, findValue?, NameMap.find?, NameMap.find?, hvalues]
  · intro name
    rw [findRegister?, findRegister?, NameMap.find?, NameMap.find?, hregisters]

/-- What is fed of a symbol is part of its outline. -/
theorem symbolRecord_eq_of_outline {symbol twin : Symbol} (h : symbol.outline = twin.outline) :
    symbolRecord symbol = symbolRecord twin := by
  simp only [Symbol.outline, Prod.mk.injEq] at h
  rw [symbolRecord, symbolRecord, h.1, h.2.1, h.2.2]

end Records

/-- What a signature is fed determines a scope up to the places of its declarations, if it is
known how many values and how many register aliases there are. So the order of definitions and
declarations that come too late make no difference to it, and every other change of one of the
tables does that keeps their sizes. -/
theorem stream_eq_iff {changes others : List Change} (hfits : ∀ change ∈ changes, change.Fits)
    (hothers : ∀ change ∈ others, change.Fits) :
    (build changes).stream = (build others).stream ∧
        (build changes).values.entries.length = (build others).values.entries.length ∧
        (build changes).registers.entries.length = (build others).registers.entries.length ↔
      (build changes).Alike (build others) := by
  have hsound := build_sound hfits
  have hother := build_sound hothers
  constructor
  · rintro ⟨hstream, hvalues, hregisters⟩
    exact alike_of_stream_eq hsound hother hvalues hregisters hstream
  · rintro ⟨hsymbols, hvalues, hregisters⟩
    have hvalues := hsound.valuesSorted.ext hother.valuesSorted hvalues
    have hregisters := hsound.registersSorted.ext hother.registersSorted hregisters
    have hrecords := map_eq_of_map_eq (fun _ _ _ _ => symbolRecord_eq_of_outline) hsymbols
    rw [stream_eq, stream_eq, hrecords, hvalues, hregisters]
    exact ⟨rfl, rfl, rfl⟩

/-- Definitions in another order, one that comes too late, and a function at another place. -/
theorem stream_eq_iff_reordered :
    let span : Span := ⟨⟨3, 1, 20⟩, ⟨3, 2, 21⟩⟩
    let changes : List Change := [.value (ascii "B") ⟨7, .integer⟩,
      .register (ascii "$r") (.value 3),
      .symbol ⟨ascii "F", .function, 2, .origin⟩, .value (ascii "A") ⟨-1, .real⟩]
    let others : List Change := [.symbol ⟨ascii "F", .function, 2, span⟩,
      .value (ascii "A") ⟨-1, .real⟩, .value (ascii "B") ⟨7, .integer⟩,
      .value (ascii "A") ⟨5, .integer⟩, .symbol ⟨ascii "F", .label, 0, .origin⟩,
      .register (ascii "$r") (.value 3)]
    (∀ change ∈ changes, change.Fits) ∧ (∀ change ∈ others, change.Fits) ∧
      (build changes).stream = (build others).stream ∧ (build changes).Alike (build others) := by
  intro span changes others
  have hfits : ∀ change ∈ changes, change.Fits := by decide
  have hothers : ∀ change ∈ others, change.Fits := by decide
  have hstream : (build changes).stream = (build others).stream := by decide
  exact ⟨hfits, hothers, hstream, (stream_eq_iff hfits hothers).mp ⟨hstream, by decide, by decide⟩⟩

/-- A subroutine takes the place of a value of its name that is two: the stream stays as it was,
and what the name means does not. -/
theorem stream_eq_of_subroutine_and_value :
    let changes : List Change := [.symbol ⟨ascii "A", .label, 0, .origin⟩,
      .value (ascii "S") ⟨2, .integer⟩]
    let others : List Change := [.symbol ⟨ascii "A", .label, 0, .origin⟩,
      .symbol ⟨ascii "S", .subroutine, 0, .origin⟩]
    (∀ change ∈ changes, change.Fits) ∧ (∀ change ∈ others, change.Fits) ∧
      (build changes).stream = (build others).stream ∧
      ¬ (build changes).Alike (build others) := by
  intro changes others
  refine ⟨by decide, by decide, by decide, ?_⟩
  intro h
  have hvalue : (build changes).findValue? (ascii "S") = none := h.values (ascii "S")
  have hfound : (build changes).findValue? (ascii "S") = some ⟨2, .integer⟩ := by decide
  rw [hfound] at hvalue
  cases hvalue

end Scope

end NovelAsm
