import NovelAsm.Proofs.SyntaxTree.Items

/-!
Parsed texts. Whether a text is parsed without a complaint, and the core of its tree, can be
told from its significant tokens; where the text stands makes no difference.
-/

namespace NovelAsm

namespace ParsedSource

open SyntaxTree NovelAsm.Parser

variable {source : Bytes} {place : Location}

theorem before_before (place : Location) (h : Lexed.Flawless 0 source) :
    (before source place).Before (Lexed.tokensOf source) :=
  ⟨before_sound place h, rfl, view_before source place⟩

theorem tokensOf_proper (h : Lexed.Flawless 0 source) : Proper (Lexed.tokensOf source) := by
  rw [← view_before source .origin]
  exact proper_of_fit (before_fit .origin h)

theorem diagnostics_eq_nil_iff_said {outcome : Parser.Outcome PUnit} {said : Diagnostics}
    (h : Reading source place outcome said) :
    (read source place).diagnostics = [] ↔ Lexed.Flawless 0 source ∧ said = [] := by
  rw [h.diagnostics_eq, List.append_eq_nil_iff, Lexed.read, Lexed.diagnostics_eq_nil_iff]

/-- A text is parsed without a complaint if nothing is wrong with its tokens, and they are those
of items. -/
theorem diagnostics_eq_nil_iff (source : Bytes) (place : Location) :
    (read source place).diagnostics = [] ↔
      Lexed.Flawless 0 source ∧ ∃ trees, Items (Lexed.tokensOf source) trees := by
  obtain ⟨outcome, said, hreading⟩ := exists_reading source place
  rw [diagnostics_eq_nil_iff_said hreading]
  refine and_congr_right fun hflaws => ⟨?_, ?_⟩
  · rintro rfl
    exact ⟨_, items_of_clean (before_before place hflaws) (before_fit place hflaws)
      hreading.run.ends⟩
  · rintro ⟨trees, hitems⟩
    have hbefore : (ParseState.start (Lexed.read source place)).cursor.Before
        (Lexed.tokensOf source) := before_before place hflaws
    obtain ⟨result, hends, -⟩ := hitems.run hbefore
    obtain ⟨-, -, -, hsaid⟩ := hreading.run.ends.unique hends
    exact hsaid

/-- The items of a text that is parsed without a complaint. -/
theorem items_of_diagnostics (h : (read source place).diagnostics = []) :
    Items (Lexed.tokensOf source) (coreAll (read source place).tree.children) := by
  obtain ⟨outcome, said, hreading⟩ := exists_reading source place
  obtain ⟨hflaws, rfl⟩ := (diagnostics_eq_nil_iff_said hreading).mp h
  rw [hreading.coreAll_children]
  exact items_of_clean (before_before place hflaws) (before_fit place hflaws) hreading.run.ends

/-- Whatever is reported of a text is a flaw of one of its lexemes, or a problem of its grammar. -/
theorem exists_problem_of_mem_diagnostics {diagnostic : Diagnostic}
    (h : diagnostic ∈ (read source place).diagnostics) :
    (∃ start lexeme flaw, diagnostic = Lexed.diagnose start lexeme flaw) ∨
      ∃ (problem : SyntaxProblem) (span : Span),
        diagnostic = .error problem.code (ascii problem.message) span := by
  obtain ⟨outcome, said, hreading⟩ := exists_reading source place
  rw [hreading.diagnostics_eq] at h
  rcases List.mem_append.mp h with h | h
  · exact .inl (Lexed.exists_flaw_of_mem_diagnostics h)
  · obtain ⟨problem, token, -, rfl⟩ := hreading.run.complaints diagnostic h
    exact .inr ⟨problem, token.span, rfl⟩

/-- Whatever is reported of a text is an error. -/
theorem isError_of_mem_diagnostics {diagnostic : Diagnostic}
    (h : diagnostic ∈ (read source place).diagnostics) : diagnostic.isError = true := by
  obtain ⟨start, lexeme, flaw, rfl⟩ | ⟨problem, span, rfl⟩ := exists_problem_of_mem_diagnostics h
  · rfl
  · rfl

/-- A text without errors is parsed without a complaint. -/
theorem diagnostics_eq_nil_of_hasErrors (h : (read source place).diagnostics.hasErrors = false) :
    (read source place).diagnostics = [] := by
  refine List.eq_nil_iff_forall_not_mem.mpr fun diagnostic hmem => ?_
  have hnone := List.any_eq_false.mp h diagnostic hmem
  exact hnone (isError_of_mem_diagnostics hmem)

end ParsedSource

end NovelAsm
