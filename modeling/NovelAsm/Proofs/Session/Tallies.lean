import Mathlib.Data.Finset.Card
import NovelAsm.Proofs.Session.Incremental

/-!
What a session counts. Behind a source the memos hold the segment texts of that source and
nothing else (`Holds`), whatever was assembled before it: a kept thing with the fingerprint
of a text but another text is written over, and what no segment uses is forgotten. The next
source therefore misses each of its texts that is new, and each only once, since the
first segment of a text answers for the later ones.

A code is kept together with the signature of its scope. If the next source has another
signature, no kept code is found, and every text is compiled again.
-/

namespace NovelAsm

namespace Tally

/-- How often a memo was asked. -/
def asked (tally : Tally) : Nat := tally.hits + tally.misses

theorem asked_count (tally : Tally) (answered : Bool) :
    (tally.count answered).asked = tally.asked + 1 := by
  cases answered <;> simp [count, asked] <;> omega

theorem misses_count (tally : Tally) (answered : Bool) :
    (tally.count answered).misses = tally.misses + if answered then 0 else 1 := by
  cases answered <;> simp [count]

end Tally

namespace Session

/-- The texts among some that are not known, each once. -/
def unseen (known : Finset Bytes) (texts : List Bytes) : Nat := (texts.toFinset \ known).card

theorem unseen_nil (known : Finset Bytes) : unseen known [] = 0 := by simp [unseen]

theorem unseen_cons (known : Finset Bytes) (text : Bytes) (rest : List Bytes) :
    unseen known (text :: rest) =
      (if text ∈ known then 0 else 1) + unseen (insert text known) rest := by
  by_cases h : text ∈ known
  · simp [unseen, h, Finset.insert_sdiff_of_mem]
  · have hnew : text ∉ rest.toFinset \ insert text known := by simp
    have hsplit : insert text rest.toFinset \ known =
        insert text (rest.toFinset \ insert text known) := by
      ext other
      by_cases hother : other = text <;> simp [hother, h]
    rw [unseen, List.toFinset_cons, hsplit, Finset.card_insert_of_notMem hnew, if_neg h, unseen,
      Nat.add_comm]

/-- No two different texts of a list have one fingerprint. -/
def Distinct (texts : List Bytes) : Prop :=
  ∀ a ∈ texts, ∀ b ∈ texts, Fingerprint.ofText a = Fingerprint.ofText b → a = b

instance (texts : List Bytes) : Decidable (Distinct texts) :=
  inferInstanceAs (Decidable (∀ a ∈ texts, ∀ b ∈ texts,
    Fingerprint.ofText a = Fingerprint.ofText b → a = b))

section Parsing

/-- The tree of a text is kept. -/
def HasTree (session : Session) (text : Bytes) : Prop :=
  ∃ kept, session.trees.find? (Fingerprint.ofText text) = some kept ∧ kept.text = text

/-- A segment is read from its kept tree, and only then counts as a hit. -/
theorem readSegment_parses (session : Session) (segment : Segment) :
    (session.HasTree segment.text ∧
        (session.readSegment segment).2.parses = session.parses.count true) ∨
      (¬ session.HasTree segment.text ∧
        (session.readSegment segment).2.parses = session.parses.count false) := by
  simp only [readSegment]
  split
  · rename_i kept hkept
    obtain ⟨hfound, htext⟩ := Option.filter_eq_some_iff.mp hkept
    exact Or.inl ⟨⟨kept, hfound, by simpa using htext⟩, rfl⟩
  · rename_i hnone
    refine Or.inr ⟨?_, rfl⟩
    rintro ⟨kept, hfound, htext⟩
    simp [hfound, Option.filter, htext] at hnone

/-- Reading a segment keeps the tree of its text, and loses none of a text that has another
fingerprint. -/
theorem hasTree_readSegment (session : Session) (segment : Segment) (text : Bytes)
    (hapart : Fingerprint.ofText text = Fingerprint.ofText segment.text → text = segment.text) :
    (session.readSegment segment).2.HasTree text ↔ text = segment.text ∨ session.HasTree text := by
  simp only [readSegment]
  split
  · rename_i kept hkept
    obtain ⟨hfound, htext⟩ := Option.filter_eq_some_iff.mp hkept
    have hhas : session.HasTree segment.text := ⟨kept, hfound, by simpa using htext⟩
    exact ⟨Or.inr, fun h => h.elim (fun heq => heq ▸ hhas) id⟩
  · by_cases heq : text = segment.text
    · simp [HasTree, Memo.find?_put, heq]
    · have hkeys : Fingerprint.ofText segment.text ≠ Fingerprint.ofText text :=
        fun h => heq (hapart h.symm)
      simp [HasTree, Memo.find?_put, heq, hkeys]

theorem readSegments_parses (session : Session) (segments : List Segment) (pool : List Bytes)
    (hpool : ∀ segment ∈ segments, segment.text ∈ pool) (happart : Distinct pool)
    (known : Finset Bytes) (hknown : ∀ text ∈ pool, session.HasTree text ↔ text ∈ known) :
    (session.readSegments segments).2.parses.misses =
        session.parses.misses + unseen known (segments.map Segment.text) ∧
      (session.readSegments segments).2.parses.asked = session.parses.asked + segments.length ∧
      ∀ text ∈ pool, (session.readSegments segments).2.HasTree text ↔
        text ∈ known ∨ text ∈ segments.map Segment.text := by
  induction segments generalizing session known with
  | nil => simpa [readSegments, unseen_nil] using hknown
  | cons segment rest ih =>
      have hsegment := hpool segment (List.mem_cons_self ..)
      have hnext : ∀ text ∈ pool, (session.readSegment segment).2.HasTree text ↔
          text ∈ insert segment.text known := by
        intro text htext
        rw [hasTree_readSegment session segment text (happart text htext _ hsegment),
          hknown text htext, Finset.mem_insert]
      obtain ⟨hmisses, hasked, hhas⟩ := ih (session.readSegment segment).2
        (fun other hother => hpool other (List.mem_cons_of_mem _ hother)) _ hnext
      simp only [readSegments, List.map_cons, List.length_cons, unseen_cons]
      refine ⟨?_, ?_, fun text htext => ?_⟩
      · rw [hmisses]
        rcases readSegment_parses session segment with ⟨htree, hcount⟩ | ⟨htree, hcount⟩ <;>
          rw [hknown _ hsegment] at htree <;>
          simp [hcount, Tally.misses_count, htree]
        omega
      · rw [hasked]
        rcases readSegment_parses session segment with ⟨-, hcount⟩ | ⟨-, hcount⟩ <;>
          rw [hcount, Tally.asked_count] <;> omega
      · rw [hhas text htext, Finset.mem_insert, List.mem_cons]
        tauto

end Parsing

section Generating

/-- Reading segments counts no generation. -/
theorem readSegments_generations (session : Session) (segments : List Segment) :
    (session.readSegments segments).2.generations = session.generations := by
  induction segments generalizing session with
  | nil => rfl
  | cons segment rest ih =>
      rw [readSegments, ih, readSegment]
      split <;> rfl

theorem keep_generations (session : Session) (signature : Fingerprint)
    (sources : List (ReadSegment × CodeSource)) :
    (session.keep signature sources).generations.misses =
        session.generations.misses + sources.countP (·.2.isMade) ∧
      (session.keep signature sources).generations.asked =
        session.generations.asked + sources.length ∧
      (session.keep signature sources).parses = session.parses := by
  induction sources generalizing session with
  | nil => simp [keep]
  | cons first rest ih =>
      obtain ⟨read, source⟩ := first
      have hcount := ih { session with generations := session.generations.count (!source.isMade) }
      cases source with
      | made code =>
          obtain ⟨hmisses, hasked, hparses⟩ := ih
            { session with
              generations := session.generations.count false
              codes := session.codes.put (read.codeKey signature) code }
          refine ⟨hmisses.trans ?_, hasked.trans ?_, hparses⟩
          · simp [CodeSource.isMade, Tally.misses_count]
            omega
          · simp [Tally.asked_count]
            omega
      | earlier | shared =>
          refine ⟨hcount.1.trans ?_, hcount.2.1.trans ?_, hcount.2.2⟩
          · simp [CodeSource.isMade, Tally.misses_count]
          · simp [CodeSource.isMade, Tally.asked_count]
            omega

/-- Where texts are told apart by their keys, a read segment shares the code of another one just
if they have the same text. -/
theorem any_codeKey_iff {making : List ReadSegment} {read : ReadSegment} (signature : Fingerprint)
    (hkeys : ∀ other ∈ making, other.kept.text = read.kept.text → other.key = read.key) :
    making.any (fun other => other.codeKey signature == read.codeKey signature
      && other.kept.text == read.kept.text) = true ↔
      ∃ other ∈ making, other.kept.text = read.kept.text := by
  simp only [List.any_eq_true, Bool.and_eq_true, beq_iff_eq]
  constructor
  · rintro ⟨other, hother, -, htext⟩
    exact ⟨other, hother, htext⟩
  · rintro ⟨other, hother, htext⟩
    have hkey := hkeys other hother htext
    exact ⟨other, hother, by rw [ReadSegment.codeKey, ReadSegment.codeKey, hkey], htext⟩

/-- What is known behind a segment for which code is made. -/
theorem mem_insert_iff {known : Finset Bytes} {making : List ReadSegment} {other : ReadSegment}
    {isKept : Prop} (read : ReadSegment)
    (h : other.kept.text ∈ known ↔ isKept ∨ ∃ before ∈ making, before.kept.text = other.kept.text) :
    other.kept.text ∈ insert read.kept.text known ↔
      isKept ∨ ∃ before ∈ read :: making, before.kept.text = other.kept.text := by
  simp only [Finset.mem_insert, h, List.mem_cons, exists_eq_or_imp,
    @eq_comm _ other.kept.text]
  exact or_left_comm

/-- Code is made once for each text that is not known: not kept from before, and not made for a
segment before. -/
theorem countP_isMade_codeSources (session : Session) (scope : Scope) (signature : Fingerprint)
    (making reads : List ReadSegment)
    (hkeys : ∀ a ∈ making ++ reads, ∀ b ∈ reads, a.kept.text = b.kept.text → a.key = b.key)
    (known : Finset Bytes)
    (hknown : ∀ read ∈ reads, read.kept.text ∈ known ↔
      (session.keptCode? signature read).isSome ∨
        ∃ other ∈ making, other.kept.text = read.kept.text) :
    (session.codeSources scope signature making reads).countP (·.2.isMade) =
      unseen known (reads.map (·.kept.text)) := by
  induction reads generalizing making known with
  | nil => simp [codeSources, unseen_nil]
  | cons read rest ih =>
      obtain ⟨hread, hrest⟩ := List.forall_mem_cons.mp hknown
      have hsub : making ++ rest ⊆ making ++ read :: rest :=
        ((List.sublist_cons_self ..).append_left making).subset
      have hsubRead : read :: making ++ rest ⊆ making ++ read :: rest :=
        List.perm_middle.symm.subset
      have hkeysOf {others : List ReadSegment} (h : others ⊆ making ++ read :: rest) :
          ∀ a ∈ others, ∀ b ∈ rest, a.kept.text = b.kept.text → a.key = b.key :=
        fun a ha b hb => hkeys a (h ha) b (List.mem_cons_of_mem _ hb)
      have hany := any_codeKey_iff signature fun other hother =>
        hkeys other (List.mem_append_left _ hother) read (List.mem_cons_self ..)
      rw [List.map_cons, unseen_cons]
      cases hkept : session.keptCode? signature read with
      | some code =>
          have hmem : read.kept.text ∈ known := hread.mpr (Or.inl (by simp [hkept]))
          simp only [codeSources, hkept, List.countP_cons]
          rw [ih making (hkeysOf hsub) known hrest]
          simp [CodeSource.isMade, hmem]
      | none =>
          by_cases hshared : ∃ other ∈ making, other.kept.text = read.kept.text
          · have hmem : read.kept.text ∈ known := hread.mpr (Or.inr hshared)
            simp only [codeSources, hkept, hany.mpr hshared, if_true, List.countP_cons]
            rw [ih making (hkeysOf hsub) known hrest]
            simp [CodeSource.isMade, hmem]
          · have hmem : read.kept.text ∉ known := by
              rw [hread, hkept]
              simpa using hshared
            simp only [codeSources, hkept, if_neg (mt hany.mp hshared), List.countP_cons]
            rw [ih (read :: making) (hkeysOf hsubRead) (insert read.kept.text known)
              fun other hother => mem_insert_iff read (hrest other hother)]
            simp [CodeSource.isMade, hmem, Nat.add_comm]

end Generating

/-- What is kept behind a source: the tree and the code of each of its segment texts, and no
others. -/
structure Holds (session : Session) (source : Bytes) : Prop where
  valid : session.TreesValid
  tree : ∀ text ∈ texts source, session.HasTree text
  treeOnly : ∀ key kept, session.trees.find? key = some kept →
    ∃ text ∈ texts source, key = Fingerprint.ofText text
  code : ∀ text ∈ texts source, ∃ code,
    session.codes.find? (keyIn source text) = some code ∧ code.text = text
  codeOnly : ∀ key code, session.codes.find? key = some code →
    code.text ∈ texts source ∧ code.signature = signatureOf source

/-- The code that a session uses is the code of the segment in the scope's signature. -/
theorem usedCode_text (session : Session) (source : Bytes) (read : ReadSegment) :
    (session.usedCode source read).text = read.kept.text ∧
      (session.usedCode source read).signature = signatureOf source := by
  unfold usedCode
  cases hkept : session.keptCode? (signatureOf source) read with
  | none => exact ⟨rfl, rfl⟩
  | some code => simpa using (Option.filter_eq_some_iff.mp hkept).2

theorem assemble_treesValid (session : Session) (source : Bytes) (h : session.TreesValid) :
    (session.assemble source).2.TreesValid := by
  obtain ⟨kept, -, hvalid, -, -, hrun⟩ := assemble_run session source h
  rw [hrun]
  intro key tree htree
  simp only [forgetUnused, Memo.find?_retain, (keep_frame _ _ _).2,
    Option.ite_none_right_eq_some] at htree
  exact hvalid key tree htree.2

theorem after_treesValid (base : UInt32) (steps : List Step) : (after base steps).TreesValid := by
  have hrun (session : Session) (h : session.TreesValid) :
      (steps.foldl take session).TreesValid := by
    induction steps generalizing session with
    | nil => exact h
    | cons step rest ih =>
        cases step with
        | assemble source => exact ih _ (assemble_treesValid session source h)
        | resetTallies => exact ih _ h
  exact hrun _ (start_treesValid base)

theorem mem_texts_iff (source text : Bytes) :
    text ∈ texts source ↔ ∃ read ∈ reads source, read.kept.text = text := by
  rw [← map_text_reads, List.mem_map]

/-- Whatever a session kept before, behind a source it holds the source. -/
theorem assemble_holds (session : Session) (source : Bytes) (hvalid : session.TreesValid)
    (happart : ToldApart source) : (session.assemble source).2.Holds source := by
  classical
  have hvalids := assemble_treesValid session source hvalid
  obtain ⟨kept, hkept, -, -, hcodes, hrun⟩ := assemble_run session source hvalid
  have hsession := congrArg Prod.snd hrun
  rw [hsession] at hvalids ⊢
  have hfound {read : ReadSegment} (hread : read ∈ reads source) :=
    keep_find?_usedCode happart kept hcodes hread
  refine ⟨hvalids, fun text htext => ?_, fun key tree htree => ?_, fun text htext => ?_,
    fun key code hcode => ?_⟩
  · have hhas : kept.HasTree text := by
      rw [hkept]
      refine ((readSegments_parses session (Segment.split source) (texts source)
        (fun segment hsegment => List.mem_map_of_mem hsegment) happart
        ((texts source).toFinset.filter session.HasTree) ?_).2.2 text htext).mpr (Or.inr htext)
      intro other hother
      simp [hother]
    obtain ⟨tree, htree, htext'⟩ := hhas
    obtain ⟨read, hread, rfl⟩ := (mem_texts_iff source text).mp htext
    refine ⟨tree, ?_, htext'⟩
    simp only [forgetUnused, Memo.find?_retain, (keep_frame _ _ _).2]
    rw [if_pos, htree]
    exact List.mem_map.mpr ⟨read, hread, (readAlone_of_mem hread).1⟩
  · simp only [forgetUnused, Memo.find?_retain, Option.ite_none_right_eq_some,
      List.mem_map] at htree
    obtain ⟨⟨read, hread, rfl⟩, -⟩ := htree
    exact ⟨_, (readAlone_of_mem hread).2.2, (readAlone_of_mem hread).1⟩
  · obtain ⟨read, hread, rfl⟩ := (mem_texts_iff source text).mp htext
    refine ⟨session.usedCode source read, ?_, (usedCode_text session source read).1⟩
    rw [← codeKey_of_mem_reads hread source]
    simp only [forgetUnused, Memo.find?_retain]
    rw [if_pos (List.mem_map_of_mem hread), hfound hread]
  · simp only [forgetUnused, Memo.find?_retain, Option.ite_none_right_eq_some,
      List.mem_map] at hcode
    obtain ⟨⟨read, hread, rfl⟩, hcode⟩ := hcode
    obtain rfl : session.usedCode source read = code := by
      rw [hfound hread] at hcode
      exact Option.some.inj hcode
    obtain ⟨htext, hsignature⟩ := usedCode_text session source read
    exact ⟨htext ▸ (readAlone_of_mem hread).2.2, hsignature⟩

section Held

variable {session : Session} {source next : Bytes}

theorem Holds.hasTree_iff (h : session.Holds source) {text : Bytes}
    (happart : Distinct (text :: texts source)) : session.HasTree text ↔ text ∈ texts source := by
  refine ⟨?_, h.tree text⟩
  rintro ⟨kept, hkept, -⟩
  obtain ⟨other, hother, hkeys⟩ := h.treeOnly _ _ hkept
  rw [happart text (by simp) other (by simp [hother]) hkeys]
  exact hother

/-- Which codes are found for the segments of the next source. -/
theorem Holds.keptCode?_isSome (h : session.Holds source) {read : ReadSegment}
    (hread : read ∈ reads next) :
    (session.keptCode? (signatureOf next) read).isSome ↔
      signatureOf source = signatureOf next ∧ read.kept.text ∈ texts source := by
  constructor
  · intro hsome
    obtain ⟨code, hcode⟩ := Option.isSome_iff_exists.mp hsome
    obtain ⟨hfound, hmatch⟩ := Option.filter_eq_some_iff.mp hcode
    obtain ⟨htext, hsignature⟩ : code.text = read.kept.text ∧
        code.signature = signatureOf next := by simpa using hmatch
    obtain ⟨hmem, howner⟩ := h.codeOnly _ _ hfound
    exact ⟨howner.symm.trans hsignature, htext ▸ hmem⟩
  · rintro ⟨hsignature, hmem⟩
    obtain ⟨code, hfound, htext⟩ := h.code _ hmem
    have hkeys : read.codeKey (signatureOf next) = keyIn source read.kept.text := by
      rw [codeKey_of_mem_reads hread, keyIn, keyIn, hsignature]
    have hcode : session.keptCode? (signatureOf next) read = some code := by
      simp [keptCode?, hkeys, hfound, Option.filter, htext, (h.codeOnly _ _ hfound).2, hsignature]
    simp [hcode]

/-- The next source behind a source that is held: it misses the trees that are not held, and the
codes that are not held, which are all its codes if the signatures differ. -/
theorem Holds.assemble_misses (h : session.Holds source)
    (happart : Distinct (texts source ++ texts next)) :
    (session.assemble next).2.parses.misses =
        session.parses.misses + unseen (texts source).toFinset (texts next) ∧
      (session.assemble next).2.generations.misses = session.generations.misses +
        unseen (if signatureOf source = signatureOf next then (texts source).toFinset else ∅)
          (texts next) ∧
      (session.assemble next).2.parses.asked = session.parses.asked + (texts next).length ∧
      (session.assemble next).2.generations.asked =
        session.generations.asked + (texts next).length := by
  obtain ⟨kept, hkept, -, -, hcodes, hrun⟩ := assemble_run session next h.valid
  have htree : ∀ text ∈ texts next, session.HasTree text ↔ text ∈ (texts source).toFinset := by
    intro text htext
    rw [List.mem_toFinset]
    apply h.hasTree_iff
    intro a ha b hb
    apply happart a _ b <;> simp only [List.mem_append, List.mem_cons] at * <;> grind
  obtain ⟨hmisses, hparsed, -⟩ := readSegments_parses session (Segment.split next) (texts next)
    (fun segment hsegment => List.mem_map_of_mem hsegment)
    (fun a ha b hb => happart a (List.mem_append_right _ ha) b (List.mem_append_right _ hb))
    (texts source).toFinset htree
  have hmade := countP_isMade_codeSources session (scopeOf next) (signatureOf next) [] (reads next)
    (fun a ha b hb htext => by
      rw [(readAlone_of_mem ha).1, (readAlone_of_mem hb).1, htext])
    (if signatureOf source = signatureOf next then (texts source).toFinset else ∅)
    (fun read hread => by
      rw [h.keptCode?_isSome hread]
      split <;> simp_all)
  have hlength : (choices session next).length = (texts next).length := by
    rw [← map_text_reads, ← map_fst_choices session next, List.length_map, List.length_map]
  have hframe : kept.generations = session.generations := by
    rw [hkept, readSegments_generations]
  obtain ⟨hgenerated, hasked, hparses⟩ :=
    keep_generations kept (signatureOf next) (choices session next)
  rw [hrun]
  simp only [forgetUnused]
  rw [hparses, hgenerated, hasked, hframe, hlength, hkept, hmisses, hparsed, choices, hmade,
    map_text_reads]
  simp [texts]

end Held

theorem foldl_take_resetTallies (count : Nat) {session : Session} {source : Bytes}
    (h : session.Holds source) :
    ((List.replicate count Step.resetTallies).foldl take session).Holds source := by
  induction count generalizing session with
  | zero => exact h
  | succ count ih => exact ih ⟨h.valid, h.tree, h.treeOnly, h.code, h.codeOnly⟩

/-- What an assembly counts behind another one, with any history before both and any resets of
the counts between them. Each text that is new is read once. Each is compiled once, and so is
each of the other texts if the signature of the scope changed. Every segment asks both memos. -/
theorem assemble_tallies (base : UInt32) (history : List Step) (source next : Bytes)
    (resets : Nat) (happart : Distinct (texts source ++ texts next)) :
    let first := after base (history ++ .assemble source :: List.replicate resets .resetTallies)
    let second := (first.assemble next).2
    let new := ((texts next).toFinset \ (texts source).toFinset).card
    second.parses.misses = first.parses.misses + new ∧
      second.generations.misses = first.generations.misses +
        (if signatureOf source = signatureOf next then new else (texts next).toFinset.card) ∧
      second.parses.hits + second.parses.misses =
        first.parses.hits + first.parses.misses + (Segment.split next).length ∧
      second.generations.hits + second.generations.misses =
        first.generations.hits + first.generations.misses + (Segment.split next).length ∧
      (next = source → second.parses.misses = first.parses.misses ∧
        second.generations.misses = first.generations.misses) := by
  intro first second new
  have hfirst : first = (List.replicate resets Step.resetTallies).foldl take
      ((after base history).assemble source).2 := by
    simp only [first, after, List.foldl_append, List.foldl_cons, take]
  have hholds : first.Holds source := by
    rw [hfirst]
    apply foldl_take_resetTallies
    exact assemble_holds _ _ (after_treesValid base history)
      fun a ha b hb => happart a (List.mem_append_left _ ha) b (List.mem_append_left _ hb)
  obtain ⟨hparses, hgenerations, hparsed, hgenerated⟩ := hholds.assemble_misses happart
  have hlength : (texts next).length = (Segment.split next).length := List.length_map ..
  have hmade : unseen (if signatureOf source = signatureOf next then (texts source).toFinset
      else ∅) (texts next) =
        if signatureOf source = signatureOf next then new else (texts next).toFinset.card := by
    split <;> simp [unseen, new]
  rw [hmade] at hgenerations
  rw [hlength] at hparsed hgenerated
  refine ⟨hparses, hgenerations, hparsed, hgenerated, fun hsame => ?_⟩
  have hnew : unseen (texts source).toFinset (texts next) = 0 := by simp [unseen, hsame]
  refine ⟨by rw [hparses, hnew, Nat.add_zero], ?_⟩
  rw [hgenerations, if_pos (by rw [hsame])]
  exact Nat.add_eq_left.mpr hnew

/-- One of two labels is edited. -/
theorem assemble_tallies_of_edit :
    let source := ascii "A:\n    j B\nB:\n    j A\n"
    let next := ascii "A:\n    j B\nB:\n    j B\n"
    let first := after 0 [.assemble source, .resetTallies]
    Distinct (texts source ++ texts next) ∧
      (first.assemble next).2.parses.misses = first.parses.misses + 1 ∧
      (first.assemble next).2.generations.misses = first.generations.misses + 1 := by
  intro source next first
  have happart : Distinct (texts source ++ texts next) := by decide +kernel
  have hsignature : signatureOf source = signatureOf next := by decide +kernel
  have hnew : ((texts next).toFinset \ (texts source).toFinset).card = 1 := by decide +kernel
  have htallies := assemble_tallies 0 [] source next 1 happart
  simp only [List.nil_append, List.replicate_succ, List.replicate_zero, if_pos hsignature,
    hnew] at htallies
  simp only [first]
  exact ⟨happart, htallies.1, htallies.2.1⟩

end Session
end NovelAsm
