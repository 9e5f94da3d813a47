import NovelAsm.Proofs.Token.Beginnings

/-!
How names are spelled. An identifier and a register of a text are made of letters, digits and
underscores, of which no digit stands first, and a register has its dollar sign in front; a line
end holds a line feed (`Lexed.spelt_of_mem`).
-/

namespace NovelAsm

namespace Lexeme

/-- Whether a kind is neither that of line ends nor that of names. -/
def isOther : TokenKind → Bool
  | .newline | .identifier | .register => false
  | _ => true

theorem number_other (first : UInt8) (rest : Bytes) : isOther (number first rest).kind = true := by
  simp only [number]
  split
  · split <;> rfl
  · rfl

theorem backslash_other (rest : Bytes) : isOther (backslash rest).kind = true := by
  unfold backslash
  split
  · rfl
  · split
    · rfl
    · split <;> rfl

theorem slash_other (rest : Bytes) : isOther (slash rest).kind = true := by
  unfold slash
  split
  · rfl
  · split
    · rfl
    · split
      · rw [blockComment_kind]
        rfl
      · rfl

theorem mark_other (first : UInt8) (rest : Bytes) : isOther (mark first rest).kind = true := by
  simp only [mark]
  split
  · rename_i lexeme hlexeme
    unfold punctuation? at hlexeme
    split at hlexeme
    all_goals first
      | cases hlexeme; rfl
      | cases hlexeme
  · rfl

/-- How the line ends and the names of a text are spelled. -/
structure Spelt (kind : TokenKind) (text : Bytes) : Prop where
  newline : kind = .newline → byte '\n' ∈ text
  identifier : kind = .identifier → isWord text = true ∧ Lexed.wordKind text = .identifier
  register : kind = .register →
    ∃ name, text = byte '$' :: name ∧ ∀ b ∈ name, Byte.isNamePart b = true

theorem spelt_of_other {kind : TokenKind} {text : Bytes} (h : isOther kind = true) :
    Spelt kind text := by
  constructor <;> (intro hkind; rw [hkind] at h; cases h)

theorem mem_take_run {b : UInt8} {rest : Bytes}
    (h : b ∈ rest.take (rest.takeWhile Byte.isNamePart).length) : Byte.isNamePart b = true := by
  rw [← List.prefix_iff_eq_take.mp (List.takeWhile_prefix _)] at h
  exact List.mem_takeWhile_imp h

theorem word_spelt {first : UInt8} (hfirst : Byte.isNameStart first = true) (rest : Bytes) :
    Spelt (word first rest).kind (first :: rest.take (word first rest).more) := by
  simp only [word]
  split
  · exact spelt_of_other rfl
  · rename_i hkeyword
    rw [List.prefix_iff_eq_take.mp (List.takeWhile_prefix _)] at hkeyword
    constructor
    · intro hkind
      cases hkind
    · intro _
      constructor
      · rw [isWord, hfirst, Bool.true_and, List.all_eq_true]
        intro b hb
        exact mem_take_run hb
      · unfold Lexed.wordKind
        simp only [clean, hkeyword]
    · intro hkind
      cases hkind

theorem register_spelt (rest : Bytes) :
    Spelt (register rest).kind (byte '$' :: rest.take (register rest).more) := by
  simp only [register]
  split
  · exact spelt_of_other rfl
  · constructor
    · intro hkind
      cases hkind
    · intro hkind
      cases hkind
    · intro _
      exact ⟨_, rfl, fun b hb => mem_take_run hb⟩

/-- The text of a lexeme is spelled as its kind says. -/
theorem scan_spelt (first : UInt8) (rest : Bytes) :
    Spelt (scan first rest).kind (first :: rest.take (scan first rest).more) := by
  have hline {text : Bytes} (htext : byte '\n' ∈ text) : Spelt .newline text := by
    constructor
    · exact fun _ => htext
    · intro hkind
      cases hkind
    · intro hkind
      cases hkind
  rw [scan_eq, cut]
  split
  · exact spelt_of_other rfl
  · rename_i hblanks
    split
    · rename_i hfeed
      rw [eq_of_beq hfeed]
      exact hline (List.mem_cons_self ..)
    split
    · rename_i hreturn
      apply hline
      rw [eq_of_beq hreturn] at hblanks
      have hnext := @lineFeed_of_blanks rest (by simpa using hblanks)
      cases rest with
      | nil => cases hnext
      | cons next rest =>
          obtain rfl := Option.some.inj hnext
          exact List.mem_cons_of_mem _ (List.mem_cons_self ..)
    split
    · rename_i hstart
      exact word_spelt hstart rest
    split
    · exact spelt_of_other (number_other _ _)
    split
    · apply spelt_of_other
      rw [stringBody_kind]
      rfl
    split
    · rename_i hdollar
      rw [eq_of_beq hdollar]
      exact register_spelt rest
    split
    · exact spelt_of_other (backslash_other _)
    split
    · exact spelt_of_other (slash_other _)
    · exact spelt_of_other (mark_other _ _)

/-- Only a letter begins an identifier. -/
theorem isNameStart_of_kind {first : UInt8} {rest : Bytes}
    (h : (scan first rest).kind = .identifier) : Byte.isNameStart first = true := by
  have hword := ((scan_spelt first rest).identifier h).1
  rw [isWord, Bool.and_eq_true] at hword
  exact hword.1

/-- Only a dollar sign begins a register. -/
theorem dollar_of_kind {first : UInt8} {rest : Bytes}
    (h : (scan first rest).kind = .register) : first = byte '$' := by
  obtain ⟨name, hname, -⟩ := (scan_spelt first rest).register h
  exact (List.cons.inj hname).1

end Lexeme

theorem Lexed.spelt_of_mem {skip : Nat} {place : Location} {text : Bytes} {token : Token}
    (h : token ∈ (walk skip place text).tokens) : Lexeme.Spelt token.kind token.text := by
  induction text generalizing skip place with
  | nil => cases h
  | cons first rest ih =>
      cases skip with
      | succ skip => exact ih h
      | zero =>
          rw [walk_cons_zero] at h
          rcases List.mem_cons.mp h with rfl | h
          · exact Lexeme.scan_spelt first rest
          · exact ih h

end NovelAsm
