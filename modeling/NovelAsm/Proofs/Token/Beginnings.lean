import NovelAsm.Segment
import NovelAsm.Proofs.Token.Lexing

/-!
Tokens of known texts: blanks, names, numbers, marks and comments at the beginning of a text
are the tokens that one takes them for, if what follows cannot be taken for a part of them.
-/

namespace NovelAsm

/-- Whether a text can be a name or a reserved word. -/
def isWord : Bytes → Bool
  | [] => false
  | first :: more => Byte.isNameStart first && more.all Byte.isNamePart

namespace Lexed

open Lexeme

/-- The bytes of a token that has been cut are passed over. -/
theorem bares_drop (skip : Nat) (text : Bytes) : bares skip text = bares 0 (text.drop skip) := by
  induction text generalizing skip with
  | nil => cases skip <;> rfl
  | cons first rest ih =>
      cases skip with
      | succ skip => exact ih skip
      | zero => rfl

theorem flawless_drop (skip : Nat) (text : Bytes) :
    Flawless skip text ↔ Flawless 0 (text.drop skip) := by
  induction text generalizing skip with
  | nil => cases skip <;> exact Iff.rfl
  | cons first rest ih =>
      cases skip with
      | succ skip => exact ih skip
      | zero => exact Iff.rfl

/-- A text that begins with a known lexeme. -/
theorem bares_of_scan {first : UInt8} {rest behind : Bytes} {kind : TokenKind}
    (h : scan first (rest ++ behind) = clean kind rest.length) :
    bares 0 (first :: rest ++ behind) = ⟨kind, first :: rest, .origin⟩ :: bares 0 behind ∧
      (Flawless 0 (first :: rest ++ behind) ↔ Flawless 0 behind) := by
  simp only [List.cons_append, bares, Flawless, h, clean]
  rw [bares_drop, flawless_drop, List.take_left, List.drop_left]
  exact ⟨rfl, by simp⟩

theorem tokensOf_of_scan {first : UInt8} {rest behind : Bytes} {kind : TokenKind}
    (h : scan first (rest ++ behind) = clean kind rest.length) :
    tokensOf (first :: rest ++ behind) =
        (if kind.isTrivia then [] else [⟨kind, first :: rest, .origin⟩]) ++ tokensOf behind ∧
      (Flawless 0 (first :: rest ++ behind) ↔ Flawless 0 behind) := by
  obtain ⟨hbares, hflawless⟩ := bares_of_scan h
  rw [tokensOf, tokensOf, hbares, List.filter_cons]
  refine ⟨?_, hflawless⟩
  cases htrivia : kind.isTrivia <;> simp [Token.isTrivia, htrivia]

/-- A text that no run of blanks goes on into. -/
def EndsBlanks (text : Bytes) : Prop := blanks text = 0

theorem endsBlanks_cons {b : UInt8} (hspace : b ≠ byte ' ') (htab : b ≠ byte '\t')
    (hreturn : b ≠ byte '\r') (rest : Bytes) : EndsBlanks (b :: rest) := by
  simp [EndsBlanks, blanks, hspace, htab, hreturn]

theorem blanks_gaps {gaps : Bytes} (hgaps : ∀ b ∈ gaps, Segment.isGap b = true) {behind : Bytes}
    (hbehind : EndsBlanks behind) : blanks (gaps ++ behind) = gaps.length := by
  induction gaps with
  | nil => exact hbehind
  | cons b rest ih =>
      have hb : (b == byte ' ' || b == byte '\t') = true := hgaps b (List.mem_cons_self ..)
      rw [List.cons_append, blanks, if_pos hb, ih fun c hc => hgaps c (List.mem_cons_of_mem _ hc)]
      rfl

/-- No parser looks at blanks. -/
theorem tokensOf_gaps {gaps : Bytes} (hgaps : ∀ b ∈ gaps, Segment.isGap b = true) {behind : Bytes}
    (hbehind : EndsBlanks behind) :
    tokensOf (gaps ++ behind) = tokensOf behind ∧
      (Flawless 0 (gaps ++ behind) ↔ Flawless 0 behind) := by
  cases gaps with
  | nil => exact ⟨rfl, Iff.rfl⟩
  | cons b rest =>
      have hblanks := blanks_gaps hgaps hbehind
      have hscan : scan b (rest ++ behind) = clean (.trivia .whitespace) rest.length := by
        rw [scan_eq, ← List.cons_append, hblanks]
        rfl
      exact tokensOf_of_scan hscan

theorem isNameStart_ne {b : UInt8} (h : Byte.isNameStart b = true) :
    b ≠ byte ' ' ∧ b ≠ byte '\t' ∧ b ≠ byte '\r' ∧ b ≠ byte '\n' := by
  refine ⟨?_, ?_, ?_, ?_⟩ <;> rintro rfl <;> revert h <;> decide

theorem endsBlanks_word {first : UInt8} (h : Byte.isNameStart first = true) (rest : Bytes) :
    EndsBlanks (first :: rest) :=
  endsBlanks_cons (isNameStart_ne h).1 (isNameStart_ne h).2.1 (isNameStart_ne h).2.2.1 rest

theorem takeWhile_eq_self {test : UInt8 → Bool} {text behind : Bytes}
    (htext : ∀ b ∈ text, test b = true) (hbehind : ∀ b ∈ behind.head?, test b = false) :
    (text ++ behind).takeWhile test = text := by
  rw [List.takeWhile_append_of_pos htext]
  cases behind with
  | nil => simp
  | cons b rest => simp [hbehind b rfl]

/-- The kind of a name or a reserved word. -/
def wordKind (text : Bytes) : TokenKind :=
  match Keyword.ofText? text with
  | some keyword => .keyword keyword
  | none => .identifier

/-- A word is a token. -/
theorem tokensOf_word {first : UInt8} {more behind : Bytes}
    (hfirst : Byte.isNameStart first = true) (hmore : ∀ b ∈ more, Byte.isNamePart b = true)
    (hbehind : ∀ b ∈ behind.head?, Byte.isNamePart b = false) :
    tokensOf (first :: more ++ behind) =
        ⟨wordKind (first :: more), first :: more, .origin⟩ :: tokensOf behind ∧
      (Flawless 0 (first :: more ++ behind) ↔ Flawless 0 behind) := by
  have hscan : scan first (more ++ behind) = clean (wordKind (first :: more)) more.length := by
    obtain ⟨-, -, hreturn, hline⟩ := isNameStart_ne hfirst
    rw [scan_eq, endsBlanks_word hfirst, if_neg (by decide), cut, if_neg (by simpa using hline),
      if_neg (by simpa using hreturn), if_pos hfirst]
    simp only [word, takeWhile_eq_self hmore hbehind, wordKind]
    cases Keyword.ofText? (first :: more) <;> rfl
  have hkind : (wordKind (first :: more)).isTrivia = false := by
    simp only [wordKind]
    split <;> rfl
  simpa [hkind] using tokensOf_of_scan hscan

/-- A colon is a token, whatever follows it. -/
theorem tokensOf_colon (behind : Bytes) :
    tokensOf (byte ':' :: behind) = ⟨.mark .colon, [byte ':'], .origin⟩ :: tokensOf behind ∧
      (Flawless 0 (byte ':' :: behind) ↔ Flawless 0 behind) := by
  have hblanks := endsBlanks_cons (b := byte ':') (by decide) (by decide) (by decide) behind
  have hscan : scan (byte ':') ([] ++ behind) = clean (.mark .colon) ([] : Bytes).length := by
    rw [List.nil_append, scan_eq, hblanks]
    rfl
  exact tokensOf_of_scan hscan

end Lexed

end NovelAsm
