import Mathlib.Data.List.Nodup
import NovelAsm.Session

/-!
What a session puts together. The memos decide which work is done again; this module
takes them away. `Session.program` is the program of a source for a given choice of
the code of each segment, and `Session.assemble_eq` says that a session answers such
a program, for the codes that it found or made.

A source by itself uses the code that was made in its own scope. Two segments of one
text share a code, and that code is found again by its key, so the statement about a
new session asks that no text occurs twice (`ofSource_eq_program`).
-/

namespace NovelAsm

namespace Memo

variable {α : Type}

theorem find?_put (memo : Memo α) (key other : Fingerprint) (result : α) :
    (memo.put key result).find? other =
      if key = other then some result else memo.find? other := by
  by_cases h : key = other
  · simp [find?, put, h]
  · have hother : (key == other) = false := by simpa using h
    simp only [find?, put, List.find?_cons, hother, if_neg h, List.find?_filter]
    congr 2
    funext entry
    by_cases hentry : entry.1 = other
    · simp [hentry, Ne.symm h]
    · simp [hentry]

theorem find?_retain (memo : Memo α) (used : List Fingerprint) (key : Fingerprint) :
    (memo.retain used).find? key = if key ∈ used then memo.find? key else none := by
  simp only [find?, retain, List.find?_filter]
  split
  · congr 2
    funext entry
    by_cases hentry : entry.1 = key
    · simp_all
    · simp [hentry]
  · rename_i h
    simp only [Option.map_eq_none_iff, List.find?_eq_none]
    rintro entry - hentry
    obtain ⟨hused, hkey⟩ : entry.1 ∈ used ∧ entry.1 = key := by simpa using hentry
    exact h (hkey ▸ hused)

end Memo

namespace Fingerprint

/-- Feeding a byte can be undone: the factor is odd, so it has an inverse. -/
theorem addByte_inj (a b : Fingerprint) (x : UInt8) (h : addByte a x = addByte b x) : a = b := by
  have hproduct : (a ^^^ x.toUInt64) * 1099511628211 * 14886173955864302971 =
      (b ^^^ x.toUInt64) * 1099511628211 * 14886173955864302971 :=
    congrArg (· * 14886173955864302971) h
  have hfactor : (1099511628211 * 14886173955864302971 : UInt64) = 1 := by decide
  rw [UInt64.mul_assoc, UInt64.mul_assoc, hfactor, UInt64.mul_one, UInt64.mul_one] at hproduct
  have hxor := congrArg (· ^^^ x.toUInt64) hproduct
  simpa [UInt64.xor_assoc] using hxor

theorem addBytes_inj (a b : Fingerprint) (bytes : Bytes)
    (h : a.addBytes bytes = b.addBytes bytes) : a = b := by
  induction bytes generalizing a b with
  | nil => exact h
  | cons x rest ih => exact addByte_inj a b x (ih _ _ h)

/-- What was fed last does not hide what was fed before. -/
theorem add_inj (a b : Fingerprint) (part : Part) (h : a.add part = b.add part) : a = b :=
  addBytes_inj a b part.bytes h

end Fingerprint

namespace Session

/-- A segment with its tree, as it is read without a memo. -/
def readAlone (segment : Segment) : ReadSegment :=
  ⟨segment.origin, Fingerprint.ofText segment.text,
    ⟨segment.text, ParsedSource.read segment.text .origin⟩⟩

/-- The segments of a source with their trees. -/
def reads (source : Bytes) : List ReadSegment := (Segment.split source).map readAlone

/-- The texts of the segments of a source. -/
def texts (source : Bytes) : List Bytes := (Segment.split source).map Segment.text

/-- The scope of a source and the diagnostics of its declarations. -/
def declarations (source : Bytes) : Scope × Diagnostics :=
  Declarations.collect ((reads source).map ReadSegment.placedTree)

def scopeOf (source : Bytes) : Scope := (declarations source).1

def signatureOf (source : Bytes) : Fingerprint := (scopeOf source).signature

/-- The program put together from segments with their codes. -/
def linkCodes (base : UInt32) (declared : Diagnostics) (codes : List (ReadSegment × KeptCode)) :
    LinkedProgram :=
  let program :=
    LinkedProgram.link base [] (codes.flatMap fun (read, code) => placedUnits read code)
  { program with
    diagnostics := Diagnostics.sortByPlace
      ((codes.flatMap fun (read, code) => segmentDiagnostics read code)
        ++ declared ++ program.diagnostics) }

/-- The program of a source, where the code of a text was made in a scope of its own. All
that such a code takes from the source is the signature. -/
def program (base : UInt32) (source : Bytes) (scopeFor : Bytes → Scope) : LinkedProgram :=
  linkCodes base (declarations source).2 <|
    (reads source).map fun read =>
      (read, KeptCode.make (scopeFor read.kept.text) (signatureOf source) read.kept)

/-- Every kept tree is the tree of its text. -/
def TreesValid (session : Session) : Prop :=
  ∀ key kept, session.trees.find? key = some kept →
    kept.parsed = ParsedSource.read kept.text .origin

theorem start_treesValid (base : UInt32) : (start base).TreesValid := by
  intro key kept h
  cases h

theorem readSegment_spec (session : Session) (segment : Segment) (h : session.TreesValid) :
    (session.readSegment segment).1 = readAlone segment ∧
      (session.readSegment segment).2.TreesValid ∧
      (session.readSegment segment).2.base = session.base ∧
      (session.readSegment segment).2.codes = session.codes := by
  simp only [readSegment]
  split
  · rename_i kept hkept
    obtain ⟨hfound, htext⟩ := Option.filter_eq_some_iff.mp hkept
    have htext : kept.text = segment.text := by simpa using htext
    have hparsed := h _ _ hfound
    refine ⟨?_, h, rfl, rfl⟩
    cases kept
    simp_all [readAlone]
  · refine ⟨rfl, ?_, rfl, rfl⟩
    intro key kept hkept
    simp only [Memo.find?_put] at hkept
    split at hkept
    · cases hkept
      rfl
    · exact h key kept hkept

theorem readSegments_spec (session : Session) (segments : List Segment)
    (h : session.TreesValid) :
    (session.readSegments segments).1 = segments.map readAlone ∧
      (session.readSegments segments).2.TreesValid ∧
      (session.readSegments segments).2.base = session.base ∧
      (session.readSegments segments).2.codes = session.codes := by
  induction segments generalizing session with
  | nil => exact ⟨rfl, h, rfl, rfl⟩
  | cons segment rest ih =>
      obtain ⟨hread, hvalid, hbase, hcodes⟩ := readSegment_spec session segment h
      obtain ⟨hreads, hvalids, hbases, hcodess⟩ := ih _ hvalid
      simp only [readSegments, List.map_cons]
      exact ⟨by rw [hread, hreads], hvalids, hbases.trans hbase, hcodess.trans hcodes⟩

/-- Where the code of a segment comes from, given the segments for which code is being made
when it is asked for. -/
def Chosen (session : Session) (scope : Scope) (signature : Fingerprint)
    (making : List ReadSegment) (read : ReadSegment) : CodeSource → Prop
  | .earlier code => session.keptCode? signature read = some code
  | .shared => session.keptCode? signature read = none ∧
      ∃ other ∈ making, other.codeKey signature = read.codeKey signature ∧
        other.kept.text = read.kept.text
  | .made code => session.keptCode? signature read = none ∧
      code = KeptCode.make scope signature read.kept

theorem map_fst_codeSources (session : Session) (scope : Scope) (signature : Fingerprint)
    (making reads : List ReadSegment) :
    (session.codeSources scope signature making reads).map Prod.fst = reads := by
  induction reads generalizing making with
  | nil => rfl
  | cons read rest ih =>
      simp only [codeSources]
      split
      · simp [ih]
      · split <;> simp [ih]

theorem chosen_of_mem_codeSources (session : Session) (scope : Scope) (signature : Fingerprint)
    (making reads : List ReadSegment) (read : ReadSegment) (source : CodeSource)
    (h : (read, source) ∈ session.codeSources scope signature making reads) :
    Chosen session scope signature
      (making ++ (session.codeSources scope signature making reads).filterMap
        fun (other, source) => if source.isMade then some other else none)
      read source := by
  induction reads generalizing making with
  | nil => simp [codeSources] at h
  | cons first rest ih =>
      cases hkept : session.keptCode? signature first with
      | some code =>
          simp only [codeSources, hkept, List.mem_cons] at h ⊢
          rcases h with heq | hrest
          · cases heq
            exact hkept
          · exact ih making hrest
      | none =>
          by_cases hany : making.any (fun other =>
              other.codeKey signature == first.codeKey signature
                && other.kept.text == first.kept.text) = true
          · simp only [codeSources, hkept, hany, if_true, List.mem_cons] at h ⊢
            rcases h with heq | hrest
            · cases heq
              obtain ⟨other, hother, hsame⟩ := List.any_eq_true.mp hany
              obtain ⟨hkey, htext⟩ : other.codeKey signature = read.codeKey signature ∧
                  other.kept.text = read.kept.text := by simpa using hsame
              exact ⟨hkept, other, List.mem_append_left _ hother, hkey, htext⟩
            · exact ih making hrest
          · simp only [codeSources, hkept, if_neg hany, List.mem_cons] at h ⊢
            rcases h with heq | hrest
            · cases heq
              exact ⟨hkept, rfl⟩
            · have hchosen := ih (first :: making) hrest
              cases source with
              | earlier code => exact hchosen
              | made code => exact hchosen
              | shared =>
                  obtain ⟨hread, other, hother, hsame⟩ := hchosen
                  refine ⟨hread, other, ?_, hsame⟩
                  simp only [CodeSource.isMade, List.filterMap_cons, if_true, List.mem_append,
                    List.mem_cons] at hother ⊢
                  rcases hother with (hfirst | hmaking) | hmade
                  · exact Or.inr (Or.inl hfirst)
                  · exact Or.inl hmaking
                  · exact Or.inr (Or.inr hmade)

/-- Code that is made for two segments under one key is the same. -/
def Agree (signature : Fingerprint) (sources : List (ReadSegment × CodeSource)) : Prop :=
  ∀ a b code code', (a, CodeSource.made code) ∈ sources → (b, CodeSource.made code') ∈ sources →
    a.codeKey signature = b.codeKey signature → code = code'

theorem keep_cons (session : Session) (signature : Fingerprint) (read : ReadSegment)
    (source : CodeSource) (rest : List (ReadSegment × CodeSource)) :
    ∃ next : Session, next.base = session.base ∧ next.trees = session.trees ∧
      next.codes = (match source with
        | .made code => session.codes.put (read.codeKey signature) code
        | _ => session.codes) ∧
      session.keep signature ((read, source) :: rest) = next.keep signature rest := by
  cases source with
  | earlier code =>
      exact ⟨{ session with generations := session.generations.count true },
        rfl, rfl, rfl, rfl⟩
  | shared =>
      exact ⟨{ session with generations := session.generations.count true },
        rfl, rfl, rfl, rfl⟩
  | made code =>
      exact ⟨{ session with
        generations := session.generations.count false
        codes := session.codes.put (read.codeKey signature) code }, rfl, rfl, rfl, rfl⟩

theorem keep_frame (session : Session) (signature : Fingerprint)
    (sources : List (ReadSegment × CodeSource)) :
    (session.keep signature sources).base = session.base ∧
      (session.keep signature sources).trees = session.trees := by
  induction sources generalizing session with
  | nil => exact ⟨rfl, rfl⟩
  | cons first rest ih =>
      obtain ⟨next, hbase, htrees, -, hkeep⟩ :=
        keep_cons session signature first.1 first.2 rest
      rw [hkeep]
      exact ⟨(ih next).1.trans hbase, (ih next).2.trans htrees⟩

/-- A key under which nothing was made keeps its result. -/
theorem keep_find?_of_not_made (session : Session) (signature key : Fingerprint)
    (sources : List (ReadSegment × CodeSource))
    (h : ∀ read code, (read, CodeSource.made code) ∈ sources → read.codeKey signature ≠ key) :
    (session.keep signature sources).codes.find? key = session.codes.find? key := by
  induction sources generalizing session with
  | nil => rfl
  | cons first rest ih =>
      obtain ⟨read, source⟩ := first
      obtain ⟨next, -, -, hcodes, hkeep⟩ := keep_cons session signature read source rest
      rw [hkeep, ih next fun other code hmem => h other code (List.mem_cons_of_mem _ hmem), hcodes]
      cases source with
      | made code =>
          rw [Memo.find?_put, if_neg (h read code (List.mem_cons_self ..))]
      | earlier _ => rfl
      | shared => rfl

/-- What was made is found under its key. -/
theorem keep_find?_of_made (session : Session) (signature : Fingerprint)
    (sources : List (ReadSegment × CodeSource)) (hagree : Agree signature sources)
    (read : ReadSegment) (code : KeptCode) (h : (read, CodeSource.made code) ∈ sources) :
    (session.keep signature sources).codes.find? (read.codeKey signature) = some code := by
  induction sources generalizing session read code with
  | nil => simp at h
  | cons first rest ih =>
      obtain ⟨other, source⟩ := first
      obtain ⟨next, -, -, hcodes, hkeep⟩ := keep_cons session signature other source rest
      rw [hkeep]
      have hrest : Agree signature rest := fun a b c c' ha hb =>
        hagree a b c c' (List.mem_cons_of_mem _ ha) (List.mem_cons_of_mem _ hb)
      by_cases hlater : ∃ later code', (later, CodeSource.made code') ∈ rest ∧
          later.codeKey signature = read.codeKey signature
      · obtain ⟨later, code', hmem, hkey⟩ := hlater
        rw [← hkey, ih next hrest later code' hmem]
        rw [hagree later read code' code (List.mem_cons_of_mem _ hmem) h hkey]
      · rw [keep_find?_of_not_made next signature _ rest
          fun later code' hmem hkey => hlater ⟨later, code', hmem, hkey⟩, hcodes]
        rcases List.mem_cons.mp h with heq | hmem
        · cases heq
          simp [Memo.find?_put]
        · exact absurd ⟨read, code, hmem, rfl⟩ hlater

/-- No two different segment texts of a source have one fingerprint. -/
def ToldApart (source : Bytes) : Prop :=
  ∀ a ∈ texts source, ∀ b ∈ texts source,
    Fingerprint.ofText a = Fingerprint.ofText b → a = b

instance (source : Bytes) : Decidable (ToldApart source) :=
  inferInstanceAs (Decidable (∀ a ∈ texts source, ∀ b ∈ texts source,
    Fingerprint.ofText a = Fingerprint.ofText b → a = b))

theorem readAlone_of_mem {source : Bytes} {read : ReadSegment} (h : read ∈ reads source) :
    read.key = Fingerprint.ofText read.kept.text ∧
      read.kept = ⟨read.kept.text, ParsedSource.read read.kept.text .origin⟩ ∧
      read.kept.text ∈ texts source := by
  obtain ⟨segment, hsegment, rfl⟩ := List.mem_map.mp h
  exact ⟨rfl, rfl, List.mem_map_of_mem hsegment⟩

theorem map_text_reads (source : Bytes) :
    (reads source).map (fun read => read.kept.text) = texts source := by
  simp [reads, texts, readAlone]

theorem kept_eq_of_text_eq {source source' : Bytes} {a b : ReadSegment} (ha : a ∈ reads source)
    (hb : b ∈ reads source') (h : a.kept.text = b.kept.text) : a.kept = b.kept := by
  rw [(readAlone_of_mem ha).2.1, (readAlone_of_mem hb).2.1, h]

theorem text_eq_of_codeKey_eq {source : Bytes} (happart : ToldApart source) {a b : ReadSegment}
    (ha : a ∈ reads source) (hb : b ∈ reads source) (signature : Fingerprint)
    (h : a.codeKey signature = b.codeKey signature) : a.kept.text = b.kept.text := by
  obtain ⟨hkey, -, htext⟩ := readAlone_of_mem ha
  obtain ⟨hkey', -, htext'⟩ := readAlone_of_mem hb
  apply happart _ htext _ htext'
  rw [← hkey, ← hkey']
  exact Fingerprint.add_inj _ _ _ h

section Choice

variable (session : Session) (source : Bytes)

/-- Where a session takes the codes of the segments of a source from. -/
def choices : List (ReadSegment × CodeSource) :=
  session.codeSources (scopeOf source) (signatureOf source) [] (reads source)

theorem map_fst_choices : (choices session source).map Prod.fst = reads source :=
  map_fst_codeSources session (scopeOf source) (signatureOf source) [] (reads source)

theorem mem_reads_of_mem_choices {read : ReadSegment} {chosen : CodeSource}
    (h : (read, chosen) ∈ choices session source) : read ∈ reads source := by
  rw [← map_fst_choices session source]
  exact List.mem_map_of_mem h

theorem made_of_mem_choices {read : ReadSegment} {code : KeptCode}
    (h : (read, CodeSource.made code) ∈ choices session source) :
    session.keptCode? (signatureOf source) read = none ∧
      code = KeptCode.make (scopeOf source) (signatureOf source) read.kept :=
  chosen_of_mem_codeSources _ _ _ _ _ _ _ h

/-- A segment shares the code that is made for another one with its text. -/
theorem shared_of_mem_choices {read : ReadSegment}
    (h : (read, CodeSource.shared) ∈ choices session source) :
    session.keptCode? (signatureOf source) read = none ∧
      ∃ other code, (other, CodeSource.made code) ∈ choices session source ∧
        other.codeKey (signatureOf source) = read.codeKey (signatureOf source) ∧
        other.kept.text = read.kept.text := by
  obtain ⟨hnone, other, hother, hsame⟩ := chosen_of_mem_codeSources _ _ _ _ _ _ _ h
  refine ⟨hnone, other, ?_⟩
  simp only [List.nil_append, List.mem_filterMap] at hother
  obtain ⟨⟨owner, origin⟩, hmem, howner⟩ := hother
  cases origin with
  | made code =>
      simp only [CodeSource.isMade, if_true, Option.some.injEq] at howner
      exact ⟨code, howner ▸ hmem, hsame⟩
  | earlier _ => simp [CodeSource.isMade] at howner
  | shared => simp [CodeSource.isMade] at howner

theorem agree_of_toldApart (happart : ToldApart source) :
    Agree (signatureOf source) (choices session source) := by
  intro a b code code' ha hb hkey
  have hreada := mem_reads_of_mem_choices session source ha
  have hreadb := mem_reads_of_mem_choices session source hb
  have htext := text_eq_of_codeKey_eq happart hreada hreadb _ hkey
  rw [(made_of_mem_choices session source ha).2, (made_of_mem_choices session source hb).2,
    kept_eq_of_text_eq hreada hreadb htext]

theorem not_shared_of_nodup (hnodup : (texts source).Nodup) (read : ReadSegment) :
    (read, CodeSource.shared) ∉ choices session source := by
  intro h
  obtain ⟨-, other, code, hmade, -, htext⟩ := shared_of_mem_choices session source h
  have hreads : ((choices session source).map fun choice => choice.1.kept.text).Nodup := by
    have hmap : (choices session source).map (fun choice => choice.1.kept.text) =
        texts source := by
      rw [← map_text_reads, ← map_fst_choices session source, List.map_map]
      rfl
    rw [hmap]
    exact hnodup
  have heq := List.inj_on_of_nodup_map hreads hmade h htext
  cases heq

/-- After the codes are kept, each segment finds the code that was kept for it before, or the
one that is made for its text in the scope of the source. -/
theorem codeOf?_of_mem_choices (kept : Session)
    (happart : ToldApart source ∨ (texts source).Nodup) {read : ReadSegment}
    {chosen : CodeSource} (h : (read, chosen) ∈ choices session source) :
    (kept.keep (signatureOf source) (choices session source)).codeOf?
        (signatureOf source) read chosen =
      some ((session.keptCode? (signatureOf source) read).getD
        (KeptCode.make (scopeOf source) (signatureOf source) read.kept)) := by
  cases chosen with
  | earlier code =>
      have hcode : session.keptCode? (signatureOf source) read = some code :=
        chosen_of_mem_codeSources _ _ _ _ _ _ _ h
      simp [codeOf?, hcode]
  | made code =>
      obtain ⟨hnone, hcode⟩ := made_of_mem_choices session source h
      simp [codeOf?, hnone, hcode]
  | shared =>
      rcases happart with happart | hnodup
      · obtain ⟨hnone, other, code, hmade, hkey, htext⟩ := shared_of_mem_choices session source h
        have hother := mem_reads_of_mem_choices session source hmade
        have hread := mem_reads_of_mem_choices session source h
        rw [codeOf?, ← hkey,
          keep_find?_of_made kept _ _ (agree_of_toldApart session source happart) other code hmade,
          hnone, (made_of_mem_choices session source hmade).2,
            kept_eq_of_text_eq hother hread htext]
        rfl
      · exact absurd h (not_shared_of_nodup session source hnodup read)

end Choice

theorem keptCode?_congr {session other : Session} (h : session.codes = other.codes)
    (signature : Fingerprint) (read : ReadSegment) :
    session.keptCode? signature read = other.keptCode? signature read := by
  simp [keptCode?, h]

theorem codeSources_congr {session other : Session} (h : session.codes = other.codes)
    (scope : Scope) (signature : Fingerprint) (making reads : List ReadSegment) :
    session.codeSources scope signature making reads =
      other.codeSources scope signature making reads := by
  induction reads generalizing making with
  | nil => rfl
  | cons read rest ih => simp only [codeSources, keptCode?_congr h, ih]

/-- The code that a session uses for a segment of a source. -/
def usedCode (session : Session) (source : Bytes) (read : ReadSegment) : KeptCode :=
  (session.keptCode? (signatureOf source) read).getD
    (KeptCode.make (scopeOf source) (signatureOf source) read.kept)

/-- A run of a session: it reads the segments, keeps the codes that it makes, and links what it
then finds for each segment. -/
theorem assemble_run (session : Session) (source : Bytes) (hvalid : session.TreesValid) :
    ∃ kept : Session, kept = (session.readSegments (Segment.split source)).2 ∧
      kept.TreesValid ∧ kept.base = session.base ∧ kept.codes = session.codes ∧
      session.assemble source =
        (linkCodes session.base (declarations source).2
            ((choices session source).filterMap fun (read, chosen) =>
              ((kept.keep (signatureOf source) (choices session source)).codeOf?
                (signatureOf source) read chosen).map fun code => (read, code)),
          (kept.keep (signatureOf source) (choices session source)).forgetUnused
            (signatureOf source) (reads source)) := by
  obtain ⟨hreads, hvalids, hbase, hcodes⟩ :=
    readSegments_spec session (Segment.split source) hvalid
  cases hrun : session.readSegments (Segment.split source) with
  | mk found kept =>
      simp only [hrun] at hreads hvalids hbase hcodes
      subst hreads
      refine ⟨kept, rfl, hvalids, hbase, hcodes, ?_⟩
      have hchoices : kept.codeSources (scopeOf source) (signatureOf source) []
          (reads source) = choices session source := codeSources_congr hcodes _ _ _ _
      simp only [assemble, hrun]
      change (linkCodes (kept.keep (signatureOf source) (kept.codeSources (scopeOf source)
        (signatureOf source) [] (reads source))).base (declarations source).2
        ((kept.codeSources (scopeOf source) (signatureOf source) []
          (reads source)).filterMap fun (read, chosen) =>
            ((kept.keep (signatureOf source) (kept.codeSources (scopeOf source)
              (signatureOf source) [] (reads source))).codeOf?
                (signatureOf source) read chosen).map fun code => (read, code)),
        (kept.keep (signatureOf source) (kept.codeSources (scopeOf source)
          (signatureOf source) [] (reads source))).forgetUnused
            (signatureOf source) (reads source)) = _
      rw [hchoices, (keep_frame _ _ _).1, hbase]

/-- A session links, for each segment, the code that it kept or the code that it makes in the
scope of the source. Behind that it keeps what `keep` kept and the segments still use. -/
theorem assemble_eq (session : Session) (source : Bytes) (hvalid : session.TreesValid)
    (happart : ToldApart source ∨ (texts source).Nodup) :
    (session.assemble source).1 =
      linkCodes session.base (declarations source).2
        ((reads source).map fun read => (read, session.usedCode source read)) ∧
    ∃ kept : Session, kept.TreesValid ∧ kept.base = session.base ∧
      kept.codes = session.codes ∧
      (session.assemble source).2 =
        (kept.keep (signatureOf source) (choices session source)).forgetUnused
          (signatureOf source) (reads source) := by
  obtain ⟨kept, -, hvalids, hbase, hcodes, hrun⟩ := assemble_run session source hvalid
  have hused : ((choices session source).filterMap fun (read, chosen) =>
      ((kept.keep (signatureOf source) (choices session source)).codeOf?
        (signatureOf source) read chosen).map fun code => (read, code)) =
      (reads source).map fun read => (read, session.usedCode source read) := by
    rw [← map_fst_choices session source, List.map_map]
    calc
      _ = (choices session source).filterMap (some ∘ fun choice =>
            (choice.1, session.usedCode source choice.1)) := by
          apply List.filterMap_congr
          intro choice hchoice
          obtain ⟨read, chosen⟩ := choice
          simp only [codeOf?_of_mem_choices session source kept happart hchoice]
          rfl
      _ = _ := by
          rw [List.filterMap_eq_map]
          rfl
  rw [hused] at hrun
  exact ⟨congrArg Prod.fst hrun, kept, hvalids, hbase, hcodes, congrArg Prod.snd hrun⟩

/-- Whatever a segment takes its code from, what is wrong with its tree is reported. -/
theorem exists_linked (session kept : Session) (source : Bytes) {read : ReadSegment}
    (h : read ∈ reads source) :
    ∃ other code, other.kept = read.kept ∧
      (other, code) ∈ (choices session source).filterMap fun (read, chosen) =>
        ((kept.keep (signatureOf source) (choices session source)).codeOf?
          (signatureOf source) read chosen).map fun code => (read, code) := by
  have hlinked {other : ReadSegment} {chosen : CodeSource} {code : KeptCode}
      (hmem : (other, chosen) ∈ choices session source)
      (hcode : (kept.keep (signatureOf source) (choices session source)).codeOf?
        (signatureOf source) other chosen = some code) :
      (other, code) ∈ (choices session source).filterMap fun (read, chosen) =>
        ((kept.keep (signatureOf source) (choices session source)).codeOf?
          (signatureOf source) read chosen).map fun code => (read, code) :=
    List.mem_filterMap.mpr ⟨_, hmem, by simp only [hcode, Option.map_some]⟩
  rw [← map_fst_choices session source] at h
  obtain ⟨⟨_, chosen⟩, hmem, rfl⟩ := List.mem_map.mp h
  cases chosen with
  | earlier code => exact ⟨_, code, rfl, hlinked hmem rfl⟩
  | made code => exact ⟨_, code, rfl, hlinked hmem rfl⟩
  | shared =>
      obtain ⟨-, other, code, hmade, -, htext⟩ := shared_of_mem_choices session source hmem
      exact ⟨other, code, kept_eq_of_text_eq (mem_reads_of_mem_choices session source hmade)
        (mem_reads_of_mem_choices session source hmem) htext, hlinked hmade rfl⟩

/-- A source by itself is linked from the codes made in its own scope. -/
theorem ofSource_eq_program (base : UInt32) (source : Bytes)
    (happart : ToldApart source ∨ (texts source).Nodup) :
    LinkedProgram.ofSource base source = program base source fun _ => scopeOf source := by
  have hassemble := (assemble_eq (start base) source (start_treesValid base) happart).1
  exact hassemble

end Session
end NovelAsm
