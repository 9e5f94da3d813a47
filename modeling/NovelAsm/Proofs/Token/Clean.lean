import Mathlib
import NovelAsm.Proofs.Token.Lexing

/-!
Flaws can be told from the tokens. Only strings and block comments keep their kind when
something is wrong with them, and one that is right is cut off again from its own text,
whatever follows it. So a text whose tokens are those of flawless texts is flawless.
-/

namespace NovelAsm

namespace Lexeme

theorem stringBody_flaws (seen : Nat) (flaws : List Flaw) (rest : Bytes) :
    flaws <+: (stringBody seen flaws rest).flaws := by
  fun_induction stringBody seen flaws rest with
  | case1 | case2 => exact List.prefix_append ..
  | case3 => exact List.prefix_rfl
  | case4 _ _ _ _ _ _ _ ih | case6 _ _ _ _ _ _ _ _ _ ih => exact ih
  | case5 _ _ _ _ _ _ ih | case7 _ _ _ _ _ _ _ _ _ ih =>
      exact (List.prefix_append ..).trans ih

/-- A string without flaws is a string whatever follows its closing quote. -/
theorem exists_stringBody (seen : Nat) (flaws : List Flaw) (rest : Bytes)
    (hclean : (stringBody seen flaws rest).flaws = []) :
    ∃ body behind, rest = body ++ behind ∧
      (stringBody seen flaws rest).more + 1 = seen + body.length ∧
      ∀ other, stringBody seen flaws (body ++ other) = stringBody seen flaws rest := by
  have hnone (seen : Nat) (flaws : List Flaw) (flaw : Flaw) (rest : Bytes) :
      (stringBody seen (flaws ++ [flaw]) rest).flaws ≠ [] := fun hclean => by
    have hprefix := stringBody_flaws seen (flaws ++ [flaw]) rest
    rw [hclean, List.prefix_nil] at hprefix
    simp at hprefix
  fun_induction stringBody seen flaws rest with
  | case1 | case2 => simp [stringBody.unclosed] at hclean
  | case3 seen flaws b rest hline hquote =>
      refine ⟨[b], rest, rfl, by simp, fun other => ?_⟩
      rw [List.singleton_append, stringBody_cons, if_neg hline, if_pos hquote]
  | case4 seen flaws b rest hline hquote hplain ih =>
      obtain ⟨body, behind, rfl, hmore, hsame⟩ := ih hclean
      refine ⟨b :: body, behind, rfl, by rw [hmore, List.length_cons]; omega, fun other => ?_⟩
      rw [List.cons_append, stringBody_cons, if_neg hline, if_neg hquote, if_pos hplain]
      exact hsame other
  | case5 | case7 => exact absurd hclean (hnone _ _ _ _)
  | case6 seen flaws b hline hquote hplain escaped rest hescaped ih =>
      obtain ⟨body, behind, rfl, hmore, hsame⟩ := ih hclean
      refine ⟨b :: escaped :: body, behind, rfl, by rw [hmore]; simp only [List.length_cons]; omega,
        fun other => ?_⟩
      rw [List.cons_append, List.cons_append, stringBody_cons, if_neg hline, if_neg hquote,
        if_neg hplain]
      simp only [hescaped, if_true]
      exact hsame other

/-- A block comment that is closed is one whatever follows its end. -/
theorem exists_blockComment (seen depth : Nat) (rest : Bytes)
    (hclean : (blockComment seen depth rest).flaws = []) :
    ∃ body behind, rest = body ++ behind ∧
      (blockComment seen depth rest).more + 1 = seen + body.length ∧
      ∀ other, blockComment seen depth (body ++ other) = blockComment seen depth rest := by
  fun_induction blockComment seen depth rest with
  | case1 | case2 => simp [flawed] at hclean
  | case3 seen depth a b rest hopens ih =>
      obtain ⟨body, behind, rfl, hmore, hsame⟩ := ih hclean
      refine ⟨a :: b :: body, behind, rfl, by rw [hmore]; simp only [List.length_cons]; omega,
        fun other => ?_⟩
      simp only [List.cons_append, blockComment, if_pos hopens, hsame]
  | case4 seen a b rest hopens hcloses =>
      refine ⟨[a, b], rest, rfl, rfl, fun other => ?_⟩
      simp only [List.cons_append, blockComment, if_neg hopens, if_pos hcloses]
  | case5 seen a b rest hopens hcloses depth ih =>
      obtain ⟨body, behind, rfl, hmore, hsame⟩ := ih hclean
      refine ⟨a :: b :: body, behind, rfl, by rw [hmore]; simp only [List.length_cons]; omega,
        fun other => ?_⟩
      simp only [List.cons_append, blockComment, if_neg hopens, if_pos hcloses, hsame]
  | case6 seen depth a b rest hopens hcloses ih =>
      obtain ⟨body, behind, hbody, hmore, hsame⟩ := ih hclean
      cases body with
      | nil =>
          have htwice := hsame []
          simp only [List.nil_append, blockComment] at htwice
          rw [← htwice] at hclean
          simp [flawed] at hclean
      | cons c body =>
          obtain ⟨rfl, rfl⟩ := List.cons_eq_cons.mp hbody
          refine ⟨a :: b :: body, behind, rfl, by rw [hmore]; simp only [List.length_cons]; omega,
            fun other => ?_⟩
          simp only [List.cons_append, blockComment, if_neg hopens, if_neg hcloses]
          exact hsame other

theorem scan_quote (rest : Bytes) : scan (byte '"') rest = stringBody 1 [] rest := rfl

theorem scan_slash (rest : Bytes) : scan (byte '/') rest = slash rest := rfl

/-- A lexeme with flaws is unreadable, a string or a comment. -/
theorem scan_flawed (first : UInt8) (rest : Bytes) :
    (scan first rest).flaws = [] ∨ (scan first rest).kind = .invalid ∨
      first = byte '"' ∨ first = byte '/' := by
  rw [scan_eq, cut]
  split
  · exact .inl rfl
  split
  · exact .inl rfl
  split
  · exact .inl rfl
  split
  · simp only [word]
    split <;> exact .inl rfl
  split
  · simp only [number]
    split
    · exact .inl rfl
    · exact .inr (.inl rfl)
  split
  · exact .inr (.inr (.inl (beq_iff_eq.mp ‹_›)))
  split
  · simp only [register]
    split
    · exact .inr (.inl rfl)
    · exact .inl rfl
  split
  · unfold backslash
    split
    · exact .inr (.inl rfl)
    split
    · exact .inl rfl
    split
    · exact .inl rfl
    · exact .inr (.inl rfl)
  split
  · exact .inr (.inr (.inr (beq_iff_eq.mp ‹_›)))
  simp only [mark]
  split
  · rename_i hmark
    unfold punctuation? at hmark
    split at hmark
    all_goals first
      | cases hmark; exact .inl rfl
      | cases hmark
  · exact .inr (.inl rfl)

/-- What is cut off a text is cut off again from its own bytes, whatever follows them. -/
def SelfContained (cut : Bytes → Lexeme) (rest : Bytes) : Prop :=
  ∃ body behind, rest = body ++ behind ∧ (cut rest).more = body.length ∧
    ∀ other, cut (body ++ other) = cut rest

theorem SelfContained.same {cut : Bytes → Lexeme} {rest other : Bytes} {more : Nat}
    (h : SelfContained cut rest) (htext : other.take more = rest.take (cut rest).more) :
    cut other = cut rest := by
  obtain ⟨body, behind, hrest, hlength, hsame⟩ := h
  have hfront : other.take more = body := by rw [htext, hlength, hrest, List.take_left]
  rw [← List.take_append_drop more other, hfront, hsame]

theorem stringBody_selfContained {rest : Bytes} (hclean : (stringBody 1 [] rest).flaws = []) :
    SelfContained (stringBody 1 []) rest := by
  obtain ⟨body, behind, hrest, hmore, hsame⟩ := exists_stringBody 1 [] rest hclean
  exact ⟨body, behind, hrest, by omega, hsame⟩

theorem slash_star (rest : Bytes) : slash (byte '*' :: rest) = blockComment 2 0 rest := rfl

theorem slash_flawed (rest : Bytes) :
    (slash rest).flaws = [] ∨ ∃ comment, rest = byte '*' :: comment := by
  cases rest with
  | nil => exact .inl rfl
  | cons b rest =>
      simp only [slash]
      split
      · exact .inl rfl
      split
      · rename_i hstar
        exact .inr ⟨rest, by rw [beq_iff_eq.mp hstar]⟩
      · exact .inl rfl

theorem slash_comment {rest : Bytes} (h : (slash rest).kind = .trivia .blockComment) :
    ∃ comment, rest = byte '*' :: comment := by
  cases rest with
  | nil => cases h
  | cons b rest =>
      simp only [slash] at h
      split at h
      · cases h
      split at h
      · rename_i hstar
        exact ⟨rest, by rw [beq_iff_eq.mp hstar]⟩
      · cases h

theorem slash_selfContained {comment : Bytes}
    (hclean : (slash (byte '*' :: comment)).flaws = []) :
    SelfContained slash (byte '*' :: comment) := by
  rw [slash_star] at hclean
  obtain ⟨body, behind, hcomment, hmore, hsame⟩ := exists_blockComment 2 0 comment hclean
  refine ⟨byte '*' :: body, behind, by rw [hcomment, List.cons_append], ?_, hsame⟩
  rw [slash_star, List.length_cons]
  omega

theorem slash_kind_ne_newline (rest : Bytes) : (slash rest).kind ≠ .newline := by
  intro h
  cases rest with
  | nil => cases h
  | cons b rest =>
      simp only [slash] at h
      split at h
      · cases h
      split at h
      · rw [blockComment_kind] at h
        cases h
      · cases h

/-- Nothing is wrong with a line end. -/
theorem flaws_of_newline {first : UInt8} {rest : Bytes} (h : (scan first rest).kind = .newline) :
    (scan first rest).flaws = [] := by
  rcases scan_flawed first rest with hclean | hinvalid | rfl | rfl
  · exact hclean
  · rw [h] at hinvalid
    cases hinvalid
  · rw [scan_quote, stringBody_kind] at h
    cases h
  · exact absurd h (slash_kind_ne_newline rest)

/-- A lexeme with the kind and the text of one without flaws has none. -/
theorem flaws_of_same {first : UInt8} {rest other : Bytes} (hclean : (scan first rest).flaws = [])
    (hkind : (scan first other).kind = (scan first rest).kind)
    (htext : other.take (scan first other).more = rest.take (scan first rest).more) :
    (scan first other).flaws = [] := by
  rcases scan_flawed first other with hother | hinvalid | rfl | rfl
  · exact hother
  · exact absurd (hkind.symm.trans hinvalid) (scan_legible first rest hclean).2
  · rw [scan_quote] at hclean htext ⊢
    rwa [(stringBody_selfContained hclean).same htext]
  · rw [scan_slash] at hclean hkind htext ⊢
    rcases slash_flawed other with hother | ⟨comment, rfl⟩
    · exact hother
    -- The other text is a comment too, since its kind is that of a comment.
    rw [slash_star comment, blockComment_kind] at hkind
    obtain ⟨own, rfl⟩ := slash_comment hkind.symm
    rwa [(slash_selfContained hclean).same htext]

end Lexeme

namespace Lexed

/-- A token that is cut off somewhere without a flaw. -/
def IsClean (token : Token) : Prop :=
  ∃ first rest, (Lexeme.scan first rest).flaws = [] ∧
    token = ⟨(Lexeme.scan first rest).kind, first :: rest.take (Lexeme.scan first rest).more,
      .origin⟩

/-- Nothing is wrong with a text exactly if nothing is wrong with its tokens. -/
theorem flawless_iff {skip : Nat} {text : Bytes} :
    Flawless skip text ↔ ∀ token ∈ bares skip text, IsClean token := by
  induction text generalizing skip with
  | nil => simp [Flawless, bares]
  | cons first rest ih =>
      cases skip with
      | succ skip => exact ih
      | zero =>
          simp only [Flawless, bares, List.forall_mem_cons, ih]
          refine and_congr_left fun _ => ⟨fun hclean => ⟨first, rest, hclean, rfl⟩, ?_⟩
          rintro ⟨other, front, hclean, htoken⟩
          obtain ⟨hkind, htext, -⟩ := Token.mk.injEq .. ▸ htoken
          obtain ⟨rfl, htext⟩ := List.cons_eq_cons.mp htext
          exact Lexeme.flaws_of_same hclean hkind htext

theorem isClean_of_newline {skip : Nat} {text : Bytes} {token : Token}
    (hmem : token ∈ bares skip text) (hkind : token.kind = .newline) : IsClean token := by
  induction text generalizing skip with
  | nil => cases hmem
  | cons first rest ih =>
      cases skip with
      | succ skip => exact ih hmem
      | zero =>
          rcases List.mem_cons.mp hmem with rfl | hmem
          · exact ⟨first, rest, Lexeme.flaws_of_newline hkind, rfl⟩
          · exact ih hmem

/-- A text whose other tokens are line ends is as flawless as the one that it is made of. -/
theorem Flawless.of_mem {source wider : Bytes} (h : Flawless 0 source)
    (hmem : ∀ token ∈ bares 0 wider, token ∈ bares 0 source ∨ token.kind = .newline) :
    Flawless 0 wider := by
  rw [flawless_iff] at h ⊢
  intro token htoken
  rcases hmem token htoken with hsource | hkind
  · exact h token hsource
  · exact isClean_of_newline htoken hkind

end Lexed

namespace Lexeme

/-- The end of the text is not cut off it. -/
theorem scan_kind_ne (first : UInt8) (rest : Bytes) : (scan first rest).kind ≠ .endOfFile := by
  rcases scan_flawed first rest with hclean | hinvalid | rfl | rfl
  · exact (scan_legible first rest hclean).1
  · rw [hinvalid]
    decide
  · rw [scan_quote, stringBody_kind]
    decide
  · rcases slash_flawed rest with hclean | ⟨comment, rfl⟩
    · exact (scan_legible (byte '/') rest hclean).1
    · rw [scan_slash, slash_star, blockComment_kind]
      decide

end Lexeme

namespace Lexed

theorem kind_ne_of_mem_tokens {skip : Nat} {place : Location} {text : Bytes} {token : Token}
    (h : token ∈ (walk skip place text).tokens) : token.kind ≠ .endOfFile := by
  induction text generalizing skip place with
  | nil => cases h
  | cons first rest ih =>
      cases skip with
      | succ skip => exact ih h
      | zero =>
          rw [walk_cons_zero] at h
          rcases List.mem_cons.mp h with rfl | h
          · exact Lexeme.scan_kind_ne first rest
          · exact ih h

theorem text_ne_nil_of_mem_tokens {skip : Nat} {place : Location} {text : Bytes} {token : Token}
    (h : token ∈ (walk skip place text).tokens) : token.text ≠ [] := by
  induction text generalizing skip place with
  | nil => cases h
  | cons first rest ih =>
      cases skip with
      | succ skip => exact ih h
      | zero =>
          rw [walk_cons_zero] at h
          rcases List.mem_cons.mp h with rfl | h
          · exact List.cons_ne_nil _ _
          · exact ih h

theorem finish_kind (text : Bytes) (place : Location) :
    (read text place).finish.kind = .endOfFile := by
  rw [← Token.kind_bare, read, bare_finish]

theorem text_finish (text : Bytes) (place : Location) : (read text place).finish.text = [] := by
  rw [← Token.text_bare, read, bare_finish]

/-- Every byte of a text belongs to one token. -/
theorem flatMap_text_walk (skip : Nat) (place : Location) (text : Bytes) :
    (walk skip place text).tokens.flatMap Token.text = text.drop skip := by
  induction text generalizing skip place with
  | nil => simp [walk]
  | cons first rest ih =>
      cases skip with
      | succ skip => exact ih skip place
      | zero =>
          rw [walk_cons_zero]
          simp only [List.flatMap_cons, ih, List.cons_append, List.take_append_drop,
            List.drop_zero]

end Lexed

end NovelAsm
