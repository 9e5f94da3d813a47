import NovelAsm.Proofs.Literals
import NovelAsm.Proofs.Token.Clean

/-!
Strings. A string in which the lexer found no flaw is a quoted text (`Lexeme.exists_quote`): the
lexer and the writing of literals agree on escapes and on where a string ends.
-/

namespace NovelAsm

namespace Lexeme

/-- A string without flaws is a text as it stands between quotes, with a quote behind it. -/
theorem exists_escaped (seen : Nat) (flaws : List Flaw) (rest : Bytes)
    (hclean : (stringBody seen flaws rest).flaws = []) :
    ∃ text behind, rest = Literal.escaped text ++ Literal.quoteMark :: behind ∧
      (stringBody seen flaws rest).more = seen + (Literal.escaped text).length := by
  have hnone (seen : Nat) (flaws : List Flaw) (flaw : Flaw) (rest : Bytes) :
      (stringBody seen (flaws ++ [flaw]) rest).flaws ≠ [] := fun hclean => by
    have hprefix := stringBody_flaws seen (flaws ++ [flaw]) rest
    rw [hclean, List.prefix_nil] at hprefix
    simp at hprefix
  fun_induction stringBody seen flaws rest with
  | case1 | case2 => simp [stringBody.unclosed] at hclean
  | case3 seen flaws b rest hline hquote =>
      obtain rfl := beq_iff_eq.mp hquote
      exact ⟨[], rest, rfl, rfl⟩
  | case4 seen flaws b rest hline hquote hplain ih =>
      obtain ⟨text, behind, rfl, hmore⟩ := ih hclean
      have hescape : Literal.needsEscape b = false := by
        simpa [Literal.needsEscape, Literal.escapeMark, Literal.quoteMark] using
          ⟨bne_iff_ne.mp hplain, by simpa using hquote⟩
      refine ⟨b :: text, behind, ?_, ?_⟩
      · simp [Literal.escaped_cons, hescape]
      · simp [Literal.escaped_cons, hescape, hmore]
        omega
  | case5 | case7 => exact absurd hclean (hnone _ _ _ _)
  | case6 seen flaws b hline hquote hplain escaped rest hescaped ih =>
      obtain ⟨text, behind, rfl, hmore⟩ := ih hclean
      have hneeds : Literal.needsEscape escaped = true := hescaped
      obtain rfl : b = Literal.escapeMark := by simpa [Literal.escapeMark] using hplain
      refine ⟨escaped :: text, behind, ?_, ?_⟩
      · simp [Literal.escaped_cons, hneeds]
      · simp [Literal.escaped_cons, hneeds, hmore]
        omega

/-- A string without flaws is a quoted text. -/
theorem exists_quote {rest : Bytes} (hclean : (scan (byte '"') rest).flaws = []) :
    ∃ text, byte '"' :: rest.take (scan (byte '"') rest).more = Literal.quote text := by
  rw [scan_quote] at hclean ⊢
  obtain ⟨text, behind, rfl, hmore⟩ := exists_escaped 1 [] rest hclean
  refine ⟨text, ?_⟩
  rw [hmore, List.take_append, List.take_of_length_le (by omega), Nat.add_sub_cancel,
    Literal.quote_eq]
  rfl

/-- Only a quote begins a string. -/
theorem quote_of_kind {first : UInt8} {rest : Bytes}
    (h : (scan first rest).kind = .stringLiteral) : first = byte '"' := by
  rw [scan_eq, cut] at h
  split at h
  · cases h
  split at h
  · cases h
  split at h
  · cases h
  split at h
  · simp only [word] at h
    split at h <;> cases h
  split at h
  · simp only [number] at h
    split at h
    · simp only [clean] at h
      split at h <;> cases h
    · cases h
  split at h
  · exact beq_iff_eq.mp ‹_›
  split at h
  · simp only [register] at h
    split at h <;> cases h
  split at h
  · unfold backslash at h
    split at h
    · cases h
    split at h
    · cases h
    split at h <;> cases h
  split at h
  · cases rest with
    | nil => cases h
    | cons b rest =>
        simp only [slash] at h
        split at h
        · cases h
        split at h
        · rw [blockComment_kind] at h
          cases h
        · cases h
  · simp only [mark] at h
    split at h
    · rename_i hmark
      unfold punctuation? at hmark
      split at hmark
      all_goals first
        | cases hmark; cases h
        | cases hmark
    · cases h

end Lexeme

namespace Lexed

/-- The strings of a text without flaws can be read. -/
theorem Flawless.string? {skip : Nat} {text : Bytes} (h : Flawless skip text) {token : Token}
    (hmem : token ∈ bares skip text) (hkind : token.kind = .stringLiteral) :
    (Literal.string? token.text).isSome = true := by
  obtain ⟨first, rest, hclean, rfl⟩ := flawless_iff.mp h token hmem
  obtain rfl := Lexeme.quote_of_kind hkind
  obtain ⟨text, htext⟩ := Lexeme.exists_quote hclean
  rw [htext, Literal.string?_quote]
  rfl

end Lexed

end NovelAsm
