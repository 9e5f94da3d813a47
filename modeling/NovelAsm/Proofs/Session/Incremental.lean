import NovelAsm.Proofs.Resolve.Visible
import NovelAsm.Proofs.Session.Program

/-!
What a session answers after any history of sources. The code of a segment stays in
the session while every source contains the segment and has the same signature, so it
was made in the scope of the first source of that stretch: `birthScope`. The invariant
`Follows` says so of all that is kept, and each step of a session preserves it.

A signature does not determine a scope. The answer is the one of a new session exactly
if linking the codes of the birth scopes gives the program of the source's own scope,
which is so when equal signatures in the history come from scopes that look the same.
The names of symbols and the names of values are fed to the fingerprint alike, so a
label and a value can give scopes that look different and have one signature.
-/

namespace NovelAsm

namespace Session

/-- What a session can be asked to do. -/
inductive Step where
  | assemble (source : Bytes)
  | resetTallies
deriving DecidableEq, Repr

def Step.source? : Step → Option Bytes
  | .assemble source => some source
  | .resetTallies => none

/-- The session behind a step. -/
def take (session : Session) : Step → Session
  | .assemble source => (session.assemble source).2
  | .resetTallies => session.resetTallies

/-- A session that has taken steps from its start. -/
def after (base : UInt32) (steps : List Step) : Session := steps.foldl take (start base)

/-- The sources that steps assemble, the last one first. -/
def past (steps : List Step) : List Bytes := (steps.filterMap Step.source?).reverse

/-- The scope in which the code of a text was made that a source uses behind earlier sources,
the last one first. -/
def birthScope (text source : Bytes) : List Bytes → Scope
  | [] => scopeOf source
  | previous :: older =>
      if signatureOf previous = signatureOf source ∧ text ∈ texts previous then
        birthScope text previous older
      else scopeOf source

/-- The code that a source uses for a text behind earlier sources. -/
def bornCode (past : List Bytes) (source text : Bytes) : KeptCode :=
  KeptCode.make (birthScope text source past) (signatureOf source)
    ⟨text, ParsedSource.read text .origin⟩

/-- The key of the code of a text in a source. -/
def keyIn (source text : Bytes) : Fingerprint :=
  (Fingerprint.ofText text).add (.word (signatureOf source))

/-- What is kept behind some sources: the codes of the last one, each from its birth scope. -/
structure Follows (base : UInt32) (past : List Bytes) (session : Session) : Prop where
  base_eq : session.base = base
  trees : session.TreesValid
  kept : ∀ previous older, past = previous :: older → ∀ text ∈ texts previous,
    session.codes.find? (keyIn previous text) = some (bornCode older previous text)
  only : ∀ key code, session.codes.find? key = some code →
    ∃ previous older, past = previous :: older ∧
      ∃ text ∈ texts previous, code = bornCode older previous text

theorem start_follows (base : UInt32) : Follows base [] (start base) where
  base_eq := rfl
  trees := start_treesValid base
  kept _ _ h := nomatch h
  only _ _ h := nomatch h

theorem bornCode_text (past : List Bytes) (source text : Bytes) :
    (bornCode past source text).text = text := rfl

theorem bornCode_signature (past : List Bytes) (source text : Bytes) :
    (bornCode past source text).signature = signatureOf source := rfl

theorem codeKey_of_mem_reads {source : Bytes} {read : ReadSegment} (h : read ∈ reads source)
    (other : Bytes) : read.codeKey (signatureOf other) = keyIn other read.kept.text := by
  rw [ReadSegment.codeKey, (readAlone_of_mem h).1, keyIn]

section Uses

variable {base : UInt32} {past : List Bytes} {session : Session} {source : Bytes}

/-- What is used for a segment is the code from its birth scope. -/
theorem usedCode_eq_bornCode (h : Follows base past session) {read : ReadSegment}
    (hread : read ∈ reads source) :
    session.usedCode source read = bornCode past source read.kept.text := by
  obtain ⟨-, hkept, -⟩ := readAlone_of_mem hread
  have hown : KeptCode.make (scopeOf source) (signatureOf source) read.kept =
      KeptCode.make (scopeOf source) (signatureOf source)
        ⟨read.kept.text, ParsedSource.read read.kept.text .origin⟩ := by rw [← hkept]
  have hkey := codeKey_of_mem_reads hread source
  cases past with
  | nil =>
      have hnone : session.codes.find? (read.codeKey (signatureOf source)) = none := by
        rw [Option.eq_none_iff_forall_not_mem]
        intro code hcode
        obtain ⟨_, _, hnil, -⟩ := h.only _ _ hcode
        cases hnil
      simp [usedCode, keptCode?, hnone, hown, bornCode, birthScope]
  | cons previous older =>
      by_cases hshared : signatureOf previous = signatureOf source ∧
          read.kept.text ∈ texts previous
      · have hfound := h.kept previous older rfl _ hshared.2
        have hkeys : keyIn previous read.kept.text = keyIn source read.kept.text := by
          rw [keyIn, keyIn, hshared.1]
        have hbirth : birthScope read.kept.text source (previous :: older) =
            birthScope read.kept.text previous older := by simp [birthScope, hshared]
        have hcode : session.keptCode? (signatureOf source) read =
            some (bornCode older previous read.kept.text) := by
          simp [keptCode?, hkey, ← hkeys, hfound, Option.filter, bornCode_text,
            bornCode_signature, hshared.1]
        rw [usedCode, hcode, Option.getD_some, bornCode, bornCode, hbirth, hshared.1]
      · have hnone : session.keptCode? (signatureOf source) read = none := by
          rw [Option.eq_none_iff_forall_not_mem]
          intro code hcode
          obtain ⟨hcode, hmatch⟩ := Option.filter_eq_some_iff.mp hcode
          obtain ⟨_, _, hpast, text, htext, rfl⟩ := h.only _ _ hcode
          cases hpast
          obtain ⟨heq, hsignature⟩ : text = read.kept.text ∧
              signatureOf previous = signatureOf source := by
            simpa [bornCode_text, bornCode_signature] using hmatch
          exact hshared ⟨hsignature, heq ▸ htext⟩
        simp [usedCode, hnone, hown, bornCode, birthScope, if_neg hshared]

/-- Behind a source every segment's used code is kept under its key. -/
theorem keep_find?_usedCode (happart : ToldApart source) (kept : Session)
    (hcodes : kept.codes = session.codes) {read : ReadSegment} (hread : read ∈ reads source) :
    (kept.keep (signatureOf source) (choices session source)).codes.find?
        (read.codeKey (signatureOf source)) = some (session.usedCode source read) := by
  obtain ⟨chosen, hchosen⟩ : ∃ chosen, (read, chosen) ∈ choices session source := by
    rw [← map_fst_choices session source] at hread
    obtain ⟨choice, hmem, rfl⟩ := List.mem_map.mp hread
    exact ⟨choice.2, hmem⟩
  have hcode := codeOf?_of_mem_choices session source kept (Or.inl happart) hchosen
  cases chosen with
  | shared => exact hcode
  | made code =>
      rw [keep_find?_of_made kept _ _ (agree_of_toldApart session source happart) read code hchosen]
      exact hcode
  | earlier code =>
      have hearlier : session.keptCode? (signatureOf source) read = some code :=
        chosen_of_mem_codeSources _ _ _ _ _ _ _ hchosen
      -- a segment with this key has this text, so it found the same code and made none
      rw [keep_find?_of_not_made, hcodes]
      · rw [(Option.filter_eq_some_iff.mp hearlier).1, usedCode, hearlier]
        rfl
      · intro other made hmade hkey
        have hother := mem_reads_of_mem_choices session source hmade
        have htext := text_eq_of_codeKey_eq happart hother hread _ hkey
        have hnone := (made_of_mem_choices session source hmade).1
        rw [keptCode?, hkey, htext, ← keptCode?, hearlier] at hnone
        cases hnone

/-- One step of the history: the answer is linked from birth scopes, and the session follows. -/
theorem assemble_follows (h : Follows base past session) (happart : ToldApart source) :
    (session.assemble source).1 =
        program base source (fun text => birthScope text source past) ∧
      Follows base (source :: past) (session.assemble source).2 := by
  obtain ⟨hprogram, kept, htrees, hbase, hcodes, hsession⟩ :=
    assemble_eq session source h.trees (Or.inl happart)
  have hused : ∀ read ∈ reads source,
      session.usedCode source read = bornCode past source read.kept.text :=
    fun read hread => usedCode_eq_bornCode h hread
  obtain ⟨hkeepbase, hkeeptrees⟩ := keep_frame kept (signatureOf source) (choices session source)
  refine ⟨?_, ?_⟩
  · rw [hprogram, h.base_eq, program]
    congr 1
    apply List.map_congr_left
    intro read hread
    rw [hused read hread, bornCode, ← (readAlone_of_mem hread).2.1]
  · rw [hsession]
    refine ⟨?_, ?_, ?_, ?_⟩
    · simp only [forgetUnused]
      rw [hkeepbase, hbase, h.base_eq]
    · intro key tree htree
      simp only [forgetUnused, Memo.find?_retain, hkeeptrees,
        Option.ite_none_right_eq_some] at htree
      exact htrees key tree htree.2
    · rintro _ _ ⟨⟩ text htext
      rw [← map_text_reads] at htext
      obtain ⟨read, hread, rfl⟩ := List.mem_map.mp htext
      rw [← codeKey_of_mem_reads hread source]
      simp only [forgetUnused, Memo.find?_retain]
      rw [if_pos (List.mem_map_of_mem hread), keep_find?_usedCode happart kept hcodes hread,
        hused read hread]
    · intro key code hcode
      simp only [forgetUnused, Memo.find?_retain, Option.ite_none_right_eq_some] at hcode
      obtain ⟨hkey, hcode⟩ := hcode
      obtain ⟨read, hread, rfl⟩ := List.mem_map.mp hkey
      rw [keep_find?_usedCode happart kept hcodes hread, hused read hread] at hcode
      refine ⟨source, past, rfl, read.kept.text, (readAlone_of_mem hread).2.2, ?_⟩
      exact (Option.some.inj hcode).symm

end Uses

theorem resetTallies_follows {base : UInt32} {past : List Bytes} {session : Session}
    (h : Follows base past session) : Follows base past session.resetTallies :=
  ⟨h.base_eq, h.trees, h.kept, h.only⟩

theorem foldl_take_follows {base : UInt32} (steps : List Step) {earlier : List Bytes}
    {session : Session} (h : Follows base earlier session)
    (happart : ∀ source ∈ past steps, ToldApart source) :
    Follows base (past steps ++ earlier) (steps.foldl take session) := by
  induction steps generalizing earlier session with
  | nil => exact h
  | cons step rest ih =>
      cases step with
      | resetTallies => exact ih (resetTallies_follows h) happart
      | assemble source =>
          have hpast : past (.assemble source :: rest) = past rest ++ [source] := by
            simp [past, Step.source?]
          rw [hpast] at happart ⊢
          have hstep := (assemble_follows h (happart source (by simp))).2
          rw [List.append_assoc]
          exact ih hstep fun other hother => happart other (List.mem_append_left _ hother)

/-- All that a session keeps behind a history comes from the birth scopes. -/
theorem after_follows (base : UInt32) (steps : List Step)
    (happart : ∀ source ∈ past steps, ToldApart source) :
    Follows base (past steps) (after base steps) := by
  have hrun := foldl_take_follows steps (start_follows base) happart
  rwa [List.append_nil] at hrun

theorem view_birthScope (text source : Bytes) (past : List Bytes)
    (h : ∀ earlier ∈ past, signatureOf earlier = signatureOf source →
      (scopeOf earlier).view = (scopeOf source).view) :
    (birthScope text source past).view = (scopeOf source).view := by
  induction past generalizing source with
  | nil => rfl
  | cons previous older ih =>
      simp only [birthScope]
      split
      · rename_i hshared
        have hview := h previous (List.mem_cons_self ..) hshared.1
        rw [← hview]
        apply ih
        intro earlier hearlier hsignature
        rw [hview]
        exact h earlier (List.mem_cons_of_mem _ hearlier) (hsignature.trans hshared.1)
      · rfl

theorem program_congr (base : UInt32) (source : Bytes) {scopeFor other : Bytes → Scope}
    (h : ∀ text ∈ texts source, (scopeFor text).view = (other text).view) :
    program base source scopeFor = program base source other := by
  simp only [program]
  congr 1
  apply List.map_congr_left
  intro read hread
  rw [KeptCode.make_congr (h _ (readAlone_of_mem hread).2.2)]

/-- What a session answers behind a history, if fingerprints tell the segment texts of each
source apart: the program of the source with every segment compiled in its birth scope. So
the answer is the one of a new session exactly if that program is the one that the
source's own scope gives, and this is so if no earlier source has the same signature and
a scope that looks different. -/
theorem assemble_after (base : UInt32) (steps : List Step) (source : Bytes)
    (happart : ∀ other ∈ source :: past steps, ToldApart other) :
    ((after base steps).assemble source).1 =
        program base source (fun text => birthScope text source (past steps)) ∧
      (((after base steps).assemble source).1 = LinkedProgram.ofSource base source ↔
        program base source (fun text => birthScope text source (past steps)) =
          program base source fun _ => scopeOf source) ∧
      ((∀ earlier ∈ past steps, signatureOf earlier = signatureOf source →
          (scopeOf earlier).view = (scopeOf source).view) →
        ((after base steps).assemble source).1 = LinkedProgram.ofSource base source) := by
  have hsource := happart source (List.mem_cons_self ..)
  have hfollows := after_follows base steps
    fun other hother => happart other (List.mem_cons_of_mem _ hother)
  have hanswer := (assemble_follows hfollows hsource).1
  have hfresh := ofSource_eq_program base source (Or.inl hsource)
  refine ⟨hanswer, by rw [hanswer, hfresh], fun hviews => ?_⟩
  rw [hanswer, hfresh]
  exact program_congr base source fun text _ => view_birthScope text source _ hviews

/-- A changed definition changes the signature, so the segment that uses it is made again. -/
theorem assemble_after_changed_value :
    let steps := [Step.assemble (ascii "def X = 1\nA:\n    push X\n"), .resetTallies]
    let source := ascii "def X = 2\nA:\n    push X\n"
    (∀ other ∈ source :: past steps, ToldApart other) ∧
      (∀ earlier ∈ past steps, signatureOf earlier = signatureOf source →
        (scopeOf earlier).view = (scopeOf source).view) ∧
      ((after 0 steps).assemble source).1 = LinkedProgram.ofSource 0 source := by
  intro steps source
  have happart : ∀ other ∈ source :: past steps, ToldApart other := by decide +kernel
  have hviews : ∀ earlier ∈ past steps, signatureOf earlier = signatureOf source →
      (scopeOf earlier).view = (scopeOf source).view := by decide +kernel
  exact ⟨happart, hviews, (assemble_after 0 steps source happart).2.2 hviews⟩

/-- A label that takes the place of a value of one name, both of which are zero, leaves the
signature as it was. The jump that pushed the value is then linked behind the edit. -/
theorem stale_jump_behind_label_for_value :
    let steps := [Step.assemble (ascii "A:\n    j X\ndef X = 0\n")]
    let source := ascii "A:\n    j X\nX:\n"
    (∀ other ∈ source :: past steps, ToldApart other) ∧
      (LinkedProgram.ofSource 0 source).succeeded = true ∧
      ((after 0 steps).assemble source).1.code ≠ (LinkedProgram.ofSource 0 source).code := by
  intro steps source
  decide +kernel

end Session
end NovelAsm
