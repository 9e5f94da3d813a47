import Mathlib.Data.List.TakeWhile
import NovelAsm.Token.Stream
import NovelAsm.Proofs.SyntaxTree.Core
import NovelAsm.Proofs.Token.ByteClasses

/-!
Lexing is local. A lexeme without flaws ends inside its text, and where that text ends with a
line feed, it does not depend on what follows. So the tokens of two texts behind one another
are those of the first and those of the second, if nothing is wrong with the first and it
ends with a line feed.
-/

namespace NovelAsm

namespace Lexeme

/-- A text whose last byte is a line feed. -/
def EndsLine (text : Bytes) : Prop := text.getLast? = some (byte '\n')

theorem EndsLine.exists_mem {text : Bytes} (h : EndsLine text) : byte '\n' ∈ text :=
  List.mem_of_getLast? h

theorem EndsLine.tail {b : UInt8} {rest : Bytes} (h : EndsLine (b :: rest)) (hb : b ≠ byte '\n') :
    EndsLine rest := by
  cases rest with
  | nil => simp [EndsLine] at h; exact absurd h hb
  | cons c rest => simpa [EndsLine] using h

theorem EndsLine.drop {text : Bytes} (h : EndsLine text) {n : Nat} (hn : n < text.length) :
    EndsLine (text.drop n) := by
  rw [EndsLine, List.getLast?_drop, if_neg (by omega)]
  exact h

theorem run_cons (test : UInt8 → Bool) (b : UInt8) (rest : Bytes) :
    run test (b :: rest) = if test b then run test rest + 1 else 0 := by
  simp only [run, List.takeWhile_cons]
  split <;> simp

theorem run_le (test : UInt8 → Bool) (text : Bytes) : run test text ≤ text.length :=
  (List.takeWhile_prefix test).length_le

/-- A run ends at a byte that does not satisfy the test. -/
theorem takeWhile_append (test : UInt8 → Bool) {text : Bytes} (h : ∃ b ∈ text, test b = false)
    (more : Bytes) : (text ++ more).takeWhile test = text.takeWhile test := by
  induction text with
  | nil => obtain ⟨b, hb, -⟩ := h; cases hb
  | cons b rest ih =>
      simp only [List.cons_append, List.takeWhile_cons]
      split
      · rename_i hb
        rw [ih]
        obtain ⟨c, hc, hfalse⟩ := h
        rcases List.mem_cons.mp hc with rfl | hc
        · rw [hb] at hfalse; cases hfalse
        · exact ⟨c, hc, hfalse⟩
      · rfl

theorem run_append (test : UInt8 → Bool) {text : Bytes} (h : ∃ b ∈ text, test b = false)
    (more : Bytes) : run test (text ++ more) = run test text := by
  rw [run, run, takeWhile_append test h]

theorem run_lt (test : UInt8 → Bool) {text : Bytes} (h : ∃ b ∈ text, test b = false) :
    run test text < text.length := by
  induction text with
  | nil => obtain ⟨b, hb, -⟩ := h; cases hb
  | cons b rest ih =>
      rw [run_cons]
      split
      · rename_i hb
        obtain ⟨c, hc, hfalse⟩ := h
        rcases List.mem_cons.mp hc with rfl | hc
        · rw [hb] at hfalse; cases hfalse
        · exact Nat.succ_lt_succ (ih ⟨c, hc, hfalse⟩)
      · exact Nat.zero_lt_succ _

section LineEnd

variable {text : Bytes} (h : EndsLine text) (more : Bytes)

include h

theorem EndsLine.run_append {p : UInt8 → Bool} (hp : p (byte '\n') = false) :
    run p (text ++ more) = run p text :=
  Lexeme.run_append p ⟨_, h.exists_mem, hp⟩ more

theorem EndsLine.run_lt {p : UInt8 → Bool} (hp : p (byte '\n') = false) :
    run p text < text.length :=
  Lexeme.run_lt p ⟨_, h.exists_mem, hp⟩

theorem EndsLine.head? : (text ++ more).head? = text.head? := by
  cases text with
  | nil => simp [EndsLine] at h
  | cons b rest => rfl

end LineEnd

theorem EndsLine.blanks_append {text : Bytes} (h : EndsLine text) (more : Bytes) :
    blanks (text ++ more) = blanks text := by
  induction text with
  | nil => simp [EndsLine] at h
  | cons b rest ih =>
      by_cases hb : b = byte '\n'
      · subst hb
        simp only [List.cons_append, blanks]
        rw [if_neg (by decide), if_neg (by simp [show byte '\n' ≠ byte '\r' by decide]),
          if_neg (by decide), if_neg (by simp [show byte '\n' ≠ byte '\r' by decide])]
      · have hrest := h.tail hb
        simp only [List.cons_append, blanks, ih hrest, hrest.head?]

theorem EndsLine.blanks_lt {text : Bytes} (h : EndsLine text) : blanks text < text.length := by
  induction text with
  | nil => simp [EndsLine] at h
  | cons b rest ih =>
      simp only [blanks, List.length_cons]
      by_cases hb : b = byte '\n'
      · subst hb
        rw [if_neg (by decide), if_neg (by simp [show byte '\n' ≠ byte '\r' by decide])]
        omega
      · have := ih (h.tail hb)
        split
        · omega
        · split <;> omega

theorem EndsLine.fraction_append {text : Bytes} (h : EndsLine text) (more : Bytes) :
    fraction (text ++ more) = fraction text := by
  match text with
  | [] => simp [EndsLine] at h
  | [b] =>
      obtain rfl : b = byte '\n' := by simpa [EndsLine] using h
      cases more with
      | nil => rfl
      | cons c more => simp [fraction, show byte '\n' ≠ byte '.' by decide]
  | b :: c :: rest =>
      simp only [List.cons_append, fraction]
      by_cases hc : c = byte '\n'
      · subst hc
        rw [show Byte.isDigit (byte '\n') = false by decide, Bool.and_false]
        rfl
      · by_cases hb : b = byte '\n'
        · subst hb
          rw [show (byte '\n' == byte '.') = false by decide, Bool.false_and]
          rfl
        · rw [((h.tail hb).tail hc).run_append more (by decide)]

theorem EndsLine.fraction_lt {text : Bytes} (h : EndsLine text) :
    fraction text < text.length := by
  match text with
  | [] => simp [EndsLine] at h
  | [b] => simp [fraction]
  | b :: c :: rest =>
      simp only [fraction, List.length_cons]
      split
      · rename_i hdigit
        have hb : b ≠ byte '\n' := by
          rintro rfl
          simp [show (byte '\n' == byte '.') = false by decide] at hdigit
        have hc : c ≠ byte '\n' := by
          rintro rfl
          simp [show Byte.isDigit (byte '\n') = false by decide] at hdigit
        have := ((h.tail hb).tail hc).run_lt (p := isDigitOrSeparator) (by decide)
        omega
      · omega

theorem EndsLine.exponentDigits_append {text : Bytes} (h : EndsLine text) (more : Bytes) :
    exponentDigits (text ++ more) = exponentDigits text := by
  cases text with
  | nil => simp [EndsLine] at h
  | cons b rest =>
      simp only [List.cons_append, exponentDigits]
      rw [← List.cons_append, h.run_append more (by decide)]
      by_cases hb : b = byte '\n'
      · subst hb
        rfl
      · rw [(h.tail hb).run_append more (by decide)]

theorem EndsLine.exponentDigits_lt {text : Bytes} (h : EndsLine text) :
    exponentDigits text < text.length := by
  cases text with
  | nil => simp [EndsLine] at h
  | cons b rest =>
      have hrun := h.run_lt (p := Byte.isDigit) (by decide)
      simp only [exponentDigits]
      split
      · rename_i hsign
        have hb : b ≠ byte '\n' := by rintro rfl; revert hsign; decide
        have := (h.tail hb).run_lt (p := Byte.isDigit) (by decide)
        rw [List.length_cons]
        split <;> omega
      · exact hrun

theorem EndsLine.exponent_append {text : Bytes} (h : EndsLine text) (more : Bytes) :
    exponent (text ++ more) = exponent text := by
  cases text with
  | nil => simp [EndsLine] at h
  | cons b rest =>
      simp only [List.cons_append, exponent]
      by_cases hb : b = byte '\n'
      · subst hb
        rfl
      · rw [(h.tail hb).exponentDigits_append more]

theorem EndsLine.exponent_lt {text : Bytes} (h : EndsLine text) :
    exponent text < text.length := by
  cases text with
  | nil => simp [EndsLine] at h
  | cons b rest =>
      simp only [exponent, List.length_cons]
      split
      · rename_i hletter
        have hb : b ≠ byte '\n' := by rintro rfl; revert hletter; decide
        have := (h.tail hb).exponentDigits_lt
        split <;> omega
      · omega

/-- The body of a number ends before its line. -/
theorem EndsLine.numberBody {rest : Bytes} (first : UInt8) (h : EndsLine rest) :
    (Lexeme.numberBody first rest).1 < rest.length ∧
      ∀ more, Lexeme.numberBody first (rest ++ more) = Lexeme.numberBody first rest := by
  simp only [Lexeme.numberBody]
  have hbase (more : Bytes) : (first == byte '0' && (rest ++ more).head?.any isBaseLetter) =
      (first == byte '0' && rest.head?.any isBaseLetter) := by rw [h.head? more]
  split
  · rename_i hprefix
    have hlength : 1 < rest.length := by
      cases rest with
      | nil => simp at hprefix
      | cons b rest =>
          cases rest with
          | nil =>
              obtain rfl : b = byte '\n' := by simpa [EndsLine] using h
              simp [show isBaseLetter (byte '\n') = false by decide] at hprefix
          | cons c rest => simp
    have hdrop := h.drop hlength
    have hrun := hdrop.run_lt (p := isHexDigitOrSeparator) (by decide)
    rw [List.length_drop] at hrun
    refine ⟨by simp only; omega, fun more => ?_⟩
    rw [hbase, if_pos hprefix, List.drop_append_of_le_length (by omega),
      hdrop.run_append more (by decide)]
  · rename_i hprefix
    have hwhole := h.run_lt (p := isDigitOrSeparator) (by decide)
    have hfirst := h.drop hwhole
    have hpart := hfirst.fraction_lt
    rw [List.length_drop] at hpart
    have hsecond := h.drop (n := run isDigitOrSeparator rest +
      fraction (rest.drop (run isDigitOrSeparator rest))) (by omega)
    have hpower := hsecond.exponent_lt
    rw [List.length_drop] at hpower
    refine ⟨by simp only; omega, fun more => ?_⟩
    rw [hbase, if_neg hprefix, h.run_append more (by decide),
      List.drop_append_of_le_length (by omega), hfirst.fraction_append more,
      List.drop_append_of_le_length (by omega), hsecond.exponent_append more]

/-- What is cut off the beginning of a text stays within the text, and is the same whatever
follows the text. -/
def Stays (cut : Bytes → Lexeme) (rest : Bytes) : Prop :=
  (cut rest).more ≤ rest.length ∧ ∀ more, cut (rest ++ more) = cut rest

theorem EndsLine.number {rest : Bytes} (first : UInt8) (h : EndsLine rest) :
    Stays (number first) rest := by
  obtain ⟨hbody, hsame⟩ := h.numberBody first
  have htail := h.drop hbody
  have hrun := htail.run_lt (p := Byte.isNamePart) (by decide)
  rw [List.length_drop] at hrun
  refine ⟨?_, fun more => ?_⟩
  · simp only [Lexeme.number]
    split
    · exact Nat.le_of_lt hbody
    · simp only [flawed]
      omega
  · simp only [Lexeme.number, hsame]
    rw [List.drop_append_of_le_length (Nat.le_of_lt hbody), htail.run_append more (by decide)]

theorem EndsLine.register {rest : Bytes} (h : EndsLine rest) : Stays register rest := by
  have hrun := h.run_lt (p := Byte.isNamePart) (by decide)
  refine ⟨?_, fun more => ?_⟩
  · simp only [Lexeme.register]
    split
    · exact Nat.zero_le _
    · exact Nat.le_of_lt hrun
  · simp only [Lexeme.register, h.run_append more (p := Byte.isNamePart) (by decide)]

theorem EndsLine.word {rest : Bytes} (first : UInt8) (h : EndsLine rest) :
    Stays (word first) rest := by
  have hprefix := (List.takeWhile_prefix (l := rest) Byte.isNamePart).length_le
  refine ⟨?_, fun more => ?_⟩
  · simp only [Lexeme.word]
    split <;> exact hprefix
  · simp only [Lexeme.word, takeWhile_append Byte.isNamePart ⟨_, h.exists_mem, by decide⟩]

theorem EndsLine.backslash {rest : Bytes} (h : EndsLine rest) : Stays backslash rest := by
  cases rest with
  | nil => simp [EndsLine] at h
  | cons b rest =>
      refine ⟨?_, fun more => ?_⟩
      · simp only [Lexeme.backslash, List.length_cons]
        split
        · rename_i hline
          cases rest with
          | nil => simp at hline
          | cons c rest => simp [clean]
        · split
          · simp [clean]
          · simp [Lexeme.backslash.stray, flawed]
      · simp only [List.cons_append, Lexeme.backslash]
        by_cases hb : b = byte '\n'
        · subst hb
          rfl
        · rw [(h.tail hb).head?]

theorem stringBody_cons (seen : Nat) (flaws : List Flaw) (b : UInt8) (rest : Bytes) :
    stringBody seen flaws (b :: rest) =
      if b == byte '\n' || b == byte '\r' then stringBody.unclosed seen flaws
      else if b == byte '"' then ⟨.stringLiteral, seen, flaws⟩
      else if b != byte '\\' then stringBody (seen + 1) flaws rest
      else
        match rest with
        | [] => stringBody (seen + 1) (flaws ++ [⟨.unknownEscape, seen + 1, seen + 1⟩]) []
        | escaped :: behind =>
            if escaped == byte '\\' || escaped == byte '"' then
              stringBody (seen + 2) flaws behind
            else
              stringBody (seen + 1) (flaws ++ [⟨.unknownEscape, seen + 1, seen + 1⟩])
                (escaped :: behind) := by
  rw [stringBody.eq_def]
  rfl

/-- A string is over before its line ends. -/
theorem EndsLine.stringBody {rest : Bytes} (h : EndsLine rest) (more : Bytes) (seen : Nat)
    (flaws : List Flaw) :
    (stringBody seen flaws rest).more < seen + rest.length ∧
      stringBody seen flaws (rest ++ more) = stringBody seen flaws rest := by
  induction hlength : rest.length using Nat.strongRecOn generalizing rest seen flaws with
  | ind n ih =>
  subst hlength
  cases rest with
  | nil => simp [EndsLine] at h
  | cons b rest =>
      rw [List.cons_append, stringBody_cons, stringBody_cons, List.length_cons]
      by_cases hb : b = byte '\n'
      · simp only [hb, beq_self_eq_true, Bool.true_or, if_true, stringBody.unclosed, and_true]
        omega
      · have hrest := h.tail hb
        have hnext (flaws : List Flaw) := ih rest.length (by simp) hrest (seen + 1) flaws rfl
        have hb' : (b == byte '\n') = false := by simpa using hb
        simp only [hb', Bool.false_or]
        split
        · exact ⟨by simp only [stringBody.unclosed]; omega, rfl⟩
        · split
          · exact ⟨by simp only; omega, rfl⟩
          · split
            · exact ⟨by have := (hnext flaws).1; omega, (hnext flaws).2⟩
            · cases rest with
              | nil => simp [EndsLine] at hrest
              | cons escaped behind =>
                  simp only [List.cons_append]
                  split
                  · rename_i hescaped
                    have hline : escaped ≠ byte '\n' := by rintro rfl; revert hescaped; decide
                    have hbehind := ih behind.length (by simp only [List.length_cons]; omega)
                      (hrest.tail hline) (seen + 2) flaws rfl
                    exact ⟨by have := hbehind.1; rw [List.length_cons]; omega, hbehind.2⟩
                  · obtain ⟨hle, hsame⟩ := hnext (flaws ++ [⟨.unknownEscape, seen + 1, seen + 1⟩])
                    exact ⟨by omega, hsame⟩

/-- A block comment that is closed ends inside its text, and is closed whatever follows. -/
theorem blockComment_stays (seen depth : Nat) (rest : Bytes)
    (hclosed : (blockComment seen depth rest).flaws = []) :
    (blockComment seen depth rest).more < seen + rest.length ∧
      ∀ more, blockComment seen depth (rest ++ more) = blockComment seen depth rest := by
  fun_induction blockComment seen depth rest with
  | case1 | case2 => simp [flawed] at hclosed
  | case3 seen depth a b rest hopens ih =>
      obtain ⟨hle, hsame⟩ := ih hclosed
      refine ⟨by simp only [List.length_cons]; omega, fun more => ?_⟩
      simp only [List.cons_append, blockComment, if_pos hopens, hsame]
  | case4 seen a b rest hopens hcloses =>
      refine ⟨by simp only [clean, List.length_cons]; omega, fun more => ?_⟩
      simp only [List.cons_append, blockComment, if_neg hopens, if_pos hcloses]
  | case5 seen a b rest hopens hcloses depth ih =>
      obtain ⟨hle, hsame⟩ := ih hclosed
      refine ⟨by simp only [List.length_cons]; omega, fun more => ?_⟩
      simp only [List.cons_append, blockComment, if_neg hopens, if_pos hcloses, hsame]
  | case6 seen depth a b rest hopens hcloses ih =>
      obtain ⟨hle, hsame⟩ := ih hclosed
      refine ⟨by simp only [List.length_cons] at hle ⊢; omega, fun more => ?_⟩
      simp only [List.cons_append, blockComment, if_neg hopens, if_neg hcloses]
      exact hsame more

theorem EndsLine.slash {rest : Bytes} (h : EndsLine rest) (hflaws : (slash rest).flaws = []) :
    Stays slash rest := by
  cases rest with
  | nil => simp [EndsLine] at h
  | cons b rest =>
      simp only [Stays, List.cons_append, Lexeme.slash] at hflaws ⊢
      split
      · rename_i hslash
        have hb : b ≠ byte '\n' := by rintro rfl; revert hslash; decide
        have hrun := (h.tail hb).run_lt (p := notLineEnd) (by decide)
        refine ⟨by simp only [clean, List.length_cons]; omega, fun more => ?_⟩
        rw [(h.tail hb).run_append more (by decide)]
      · rename_i hslash
        rw [if_neg hslash] at hflaws
        split
        · rename_i hstar
          rw [if_pos hstar] at hflaws
          obtain ⟨hle, hsame⟩ := blockComment_stays 2 0 rest hflaws
          exact ⟨by rw [List.length_cons]; omega, hsame⟩
        · exact ⟨Nat.zero_le _, fun _ => rfl⟩

/-- A mark, if there is one. -/
def mark (first : UInt8) (rest : Bytes) : Lexeme :=
  match punctuation? (Char.ofNat first.toNat) (rest.head?.map (Char.ofNat ·.toNat)) with
  | some lexeme => lexeme
  | none => unexpected rest

/-- What a byte that is no blank begins. -/
def cut (first : UInt8) (rest : Bytes) : Lexeme :=
  if first == byte '\n' then clean .newline 0
  else if first == byte '\r' then clean .newline 1
  else if Byte.isNameStart first then word first rest
  else if Byte.isDigit first then number first rest
  else if first == byte '"' then stringBody 1 [] rest
  else if first == byte '$' then register rest
  else if first == byte '\\' then backslash rest
  else if first == byte '/' then slash rest
  else mark first rest

/-- Only a line feed makes a carriage return a line end. -/
theorem lineFeed_of_blanks {rest : Bytes} (h : blanks (byte '\r' :: rest) = 0) :
    rest.head? = some (byte '\n') := by
  by_contra hne
  simp [blanks, hne] at h

theorem scan_eq (first : UInt8) (rest : Bytes) :
    scan first rest =
      if blanks (first :: rest) != 0 then
        clean (.trivia .whitespace) (blanks (first :: rest) - 1)
      else cut first rest := rfl

theorem punctuation?_more {first : Char} {second : Option Char} {lexeme : Lexeme}
    (h : punctuation? first second = some lexeme) : lexeme.more ≤ 1 := by
  unfold punctuation? at h
  split at h
  all_goals first
    | cases h; decide
    | cases h

theorem EndsLine.mark {rest : Bytes} (first : UInt8) (h : EndsLine rest)
    (hflaws : (mark first rest).flaws = []) : Stays (mark first) rest := by
  have hne : 1 ≤ rest.length := by
    cases rest with
    | nil => simp [EndsLine] at h
    | cons b rest => simp
  simp only [Lexeme.mark, Stays, h.head?] at hflaws ⊢
  cases hmark : punctuation? (Char.ofNat first.toNat) (rest.head?.map (Char.ofNat ·.toNat)) with
  | some lexeme => exact ⟨(punctuation?_more hmark).trans hne, fun _ => rfl⟩
  | none => simp [hmark, unexpected, flawed] at hflaws

theorem EndsLine.cut {first : UInt8} {rest : Bytes} (h : EndsLine (first :: rest))
    (hflaws : (cut first rest).flaws = []) : Stays (cut first) rest := by
  by_cases hline : first = byte '\n'
  · subst hline
    exact ⟨Nat.zero_le _, fun _ => rfl⟩
  have hrest : EndsLine rest := h.tail hline
  have hne : rest ≠ [] := by
    rintro rfl
    simp [EndsLine] at hrest
  have hcut (other : Bytes) : Lexeme.cut first other = _ := if_neg (by simpa using hline)
  simp only [Stays, hcut] at hflaws ⊢
  by_cases hreturn : (first == byte '\r') = true
  · simp only [if_pos hreturn]
    exact ⟨List.length_pos_iff.mpr hne, fun _ => trivial⟩
  simp only [if_neg hreturn] at hflaws ⊢
  by_cases hword : Byte.isNameStart first = true
  · simp only [if_pos hword]
    exact hrest.word first
  simp only [if_neg hword] at hflaws ⊢
  by_cases hdigit : Byte.isDigit first = true
  · simp only [if_pos hdigit]
    exact hrest.number first
  simp only [if_neg hdigit] at hflaws ⊢
  by_cases hquote : (first == byte '"') = true
  · simp only [if_pos hquote]
    have hbody := (hrest.stringBody [] 1 []).1
    exact ⟨by omega, fun more => (hrest.stringBody more 1 []).2⟩
  simp only [if_neg hquote] at hflaws ⊢
  by_cases hdollar : (first == byte '$') = true
  · simp only [if_pos hdollar]
    exact hrest.register
  simp only [if_neg hdollar] at hflaws ⊢
  by_cases hbackslash : (first == byte '\\') = true
  · simp only [if_pos hbackslash]
    exact hrest.backslash
  simp only [if_neg hbackslash] at hflaws ⊢
  by_cases hslash : (first == byte '/') = true
  · simp only [if_pos hslash] at hflaws ⊢
    exact hrest.slash hflaws
  simp only [if_neg hslash] at hflaws ⊢
  exact hrest.mark first hflaws

/-- A lexeme without flaws of a text that ends with a line feed stays within the text. -/
theorem scan_stays {first : UInt8} {rest : Bytes} (h : EndsLine (first :: rest))
    (hflaws : (scan first rest).flaws = []) : Stays (scan first) rest := by
  have hblanks (more : Bytes) : blanks (first :: (rest ++ more)) = blanks (first :: rest) :=
    h.blanks_append more
  have hlt := h.blanks_lt
  rw [List.length_cons] at hlt
  simp only [Stays, scan_eq, hblanks] at hflaws ⊢
  split
  · exact ⟨by simp only [clean]; omega, fun _ => rfl⟩
  · rename_i hgap
    rw [if_neg hgap] at hflaws
    exact h.cut hflaws

/-- Lexemes without flaws are neither unreadable nor the end of the text. -/
def Legible (lexeme : Lexeme) : Prop :=
  lexeme.flaws = [] → lexeme.kind ≠ .endOfFile ∧ lexeme.kind ≠ .invalid

theorem clean_legible {kind : TokenKind} (more : Nat)
    (h : kind ≠ .endOfFile ∧ kind ≠ .invalid) : Legible (clean kind more) := fun _ => h

theorem flawed_legible (kind : TokenKind) (more : Nat) (problem : LexicalProblem) :
    Legible (flawed kind more problem) := nofun

theorem word_legible (first : UInt8) (rest : Bytes) : Legible (word first rest) := by
  simp only [word]
  split <;> exact clean_legible _ ⟨nofun, nofun⟩

theorem number_legible (first : UInt8) (rest : Bytes) : Legible (number first rest) := by
  simp only [number]
  split
  · apply clean_legible
    split <;> exact ⟨nofun, nofun⟩
  · exact flawed_legible _ _ _

theorem stringBody_kind (seen : Nat) (flaws : List Flaw) (rest : Bytes) :
    (stringBody seen flaws rest).kind = .stringLiteral := by
  fun_induction stringBody seen flaws rest with
  | case1 | case2 | case3 => rfl
  | case4 _ _ _ _ _ _ _ ih | case5 _ _ _ _ _ _ ih | case6 _ _ _ _ _ _ _ _ _ ih
  | case7 _ _ _ _ _ _ _ _ _ ih => exact ih

theorem blockComment_kind (seen depth : Nat) (rest : Bytes) :
    (blockComment seen depth rest).kind = .trivia .blockComment := by
  fun_induction blockComment seen depth rest with
  | case1 | case2 | case4 => rfl
  | case3 _ _ _ _ _ _ ih | case5 _ _ _ _ _ _ _ ih | case6 _ _ _ _ _ _ _ ih => exact ih

theorem register_legible (rest : Bytes) : Legible (register rest) := by
  simp only [register]
  split
  · exact flawed_legible _ _ _
  · exact clean_legible _ ⟨nofun, nofun⟩

theorem backslash_legible (rest : Bytes) : Legible (backslash rest) := by
  unfold backslash
  split
  · exact flawed_legible _ _ _
  · split
    · exact clean_legible _ ⟨nofun, nofun⟩
    · split
      · exact clean_legible _ ⟨nofun, nofun⟩
      · exact flawed_legible _ _ _

theorem slash_legible (rest : Bytes) : Legible (slash rest) := by
  unfold slash
  split
  · exact clean_legible _ ⟨nofun, nofun⟩
  · split
    · exact clean_legible _ ⟨nofun, nofun⟩
    · split
      · intro _
        rw [blockComment_kind]
        exact ⟨nofun, nofun⟩
      · exact clean_legible _ ⟨nofun, nofun⟩

theorem punctuation?_legible {first : Char} {second : Option Char} {lexeme : Lexeme}
    (h : punctuation? first second = some lexeme) : Legible lexeme := by
  unfold punctuation? at h
  split at h
  all_goals first
    | cases h; exact clean_legible _ ⟨nofun, nofun⟩
    | cases h

theorem scan_legible (first : UInt8) (rest : Bytes) : Legible (scan first rest) := by
  rw [scan_eq, cut]
  split
  · exact clean_legible _ ⟨nofun, nofun⟩
  split
  · exact clean_legible _ ⟨nofun, nofun⟩
  split
  · exact clean_legible _ ⟨nofun, nofun⟩
  split
  · exact word_legible _ _
  split
  · exact number_legible _ _
  split
  · intro _
    rw [stringBody_kind]
    exact ⟨nofun, nofun⟩
  split
  · exact register_legible _
  split
  · exact backslash_legible _
  split
  · exact slash_legible _
  simp only [mark]
  split
  · exact punctuation?_legible ‹_›
  · exact flawed_legible _ _ _

end Lexeme

namespace Lexed

theorem walk_cons_zero (place : Location) (first : UInt8) (rest : Bytes) :
    walk 0 place (first :: rest) =
      let lexeme := Lexeme.scan first rest
      let text := first :: rest.take lexeme.more
      let span := Span.covering place text
      let behind := walk lexeme.more span.stop rest
      { tokens := ⟨lexeme.kind, text, span⟩ :: behind.tokens
        finish := behind.finish
        diagnostics := lexeme.flaws.map (diagnose place text) ++ behind.diagnostics } := rfl

/-- The tokens of a text without places. They do not depend on where the text stands. -/
def bares (skip : Nat) : Bytes → List Token
  | [] => []
  | first :: rest =>
      match skip with
      | skip + 1 => bares skip rest
      | 0 =>
          let lexeme := Lexeme.scan first rest
          ⟨lexeme.kind, first :: rest.take lexeme.more, .origin⟩ :: bares lexeme.more rest

/-- No token of a text has a flaw. -/
def Flawless (skip : Nat) : Bytes → Prop
  | [] => True
  | first :: rest =>
      match skip with
      | skip + 1 => Flawless skip rest
      | 0 => (Lexeme.scan first rest).flaws = [] ∧ Flawless (Lexeme.scan first rest).more rest

theorem map_bare_tokens (skip : Nat) (place : Location) (text : Bytes) :
    (walk skip place text).tokens.map Token.bare = bares skip text := by
  induction text generalizing skip place with
  | nil => rfl
  | cons first rest ih =>
      cases skip with
      | succ skip => exact ih skip place
      | zero =>
          simp only [walk_cons_zero, List.map_cons, bares, ih]
          rfl

theorem diagnostics_eq_nil_iff (skip : Nat) (place : Location) (text : Bytes) :
    (walk skip place text).diagnostics = [] ↔ Flawless skip text := by
  induction text generalizing skip place with
  | nil => exact ⟨fun _ => trivial, fun _ => rfl⟩
  | cons first rest ih =>
      cases skip with
      | succ skip => exact ih skip place
      | zero =>
          simp only [walk_cons_zero, List.append_eq_nil_iff, List.map_eq_nil_iff, ih, Flawless]

/-- Whatever is reported of a text is a flaw of one of its lexemes. -/
theorem exists_flaw_of_mem_diagnostics {skip : Nat} {place : Location} {text : Bytes}
    {diagnostic : Diagnostic} (h : diagnostic ∈ (walk skip place text).diagnostics) :
    ∃ start lexeme flaw, diagnostic = diagnose start lexeme flaw := by
  induction text generalizing skip place with
  | nil => cases h
  | cons first rest ih =>
      cases skip with
      | succ skip => exact ih h
      | zero =>
          rw [walk_cons_zero] at h
          rcases List.mem_append.mp h with hflaw | h
          · obtain ⟨flaw, -, rfl⟩ := List.mem_map.mp hflaw
            exact ⟨_, _, flaw, rfl⟩
          · exact ih h

theorem bare_finish (skip : Nat) (place : Location) (text : Bytes) :
    (walk skip place text).finish.bare = ⟨.endOfFile, [], .origin⟩ := by
  induction text generalizing skip place with
  | nil => rfl
  | cons first rest ih =>
      cases skip with
      | succ skip => exact ih skip place
      | zero => exact ih _ _

theorem bares_readable {skip : Nat} {text : Bytes} (h : Flawless skip text) :
    ∀ token ∈ bares skip text, token.kind ≠ .endOfFile ∧ token.kind ≠ .invalid := by
  induction text generalizing skip with
  | nil => nofun
  | cons first rest ih =>
      cases skip with
      | succ skip => exact ih h
      | zero =>
          intro token htoken
          rcases List.mem_cons.mp htoken with rfl | htoken
          · exact Lexeme.scan_legible first rest h.1
          · exact ih h.2 token htoken

/-- The tokens of two texts behind one another, of which the first ends with a line feed and has
no flaw. -/
theorem bares_append {skip : Nat} {text : Bytes} (hskip : skip ≤ text.length)
    (hend : text = [] ∨ Lexeme.EndsLine text) (hflaws : Flawless skip text) (more : Bytes) :
    bares skip (text ++ more) = bares skip text ++ bares 0 more ∧
      (Flawless skip (text ++ more) ↔ Flawless 0 more) := by
  induction text generalizing skip with
  | nil =>
      obtain rfl := Nat.le_zero.mp hskip
      exact ⟨rfl, Iff.rfl⟩
  | cons first rest ih =>
      have hend : Lexeme.EndsLine (first :: rest) := hend.resolve_left (List.cons_ne_nil _ _)
      have htail : rest = [] ∨ Lexeme.EndsLine rest := by
        cases rest with
        | nil => exact Or.inl rfl
        | cons b rest => exact Or.inr (by simpa [Lexeme.EndsLine] using hend)
      cases skip with
      | succ skip => exact ih (Nat.le_of_succ_le_succ hskip) htail hflaws
      | zero =>
          obtain ⟨hmore, hsame⟩ := Lexeme.scan_stays hend hflaws.1
          obtain ⟨htokens, hflawless⟩ := ih hmore htail hflaws.2
          simp only [List.cons_append, bares, Flawless, hsame, htokens, hflawless,
            List.take_append_of_le_length hmore, hflaws.1, true_and]

/-- The tokens of a text that a parser looks at, without places. -/
def tokensOf (text : Bytes) : List Token := (bares 0 text).filter fun token => !token.isTrivia

theorem tokensOf_append {text : Bytes} (hend : text = [] ∨ Lexeme.EndsLine text)
    (hflaws : Flawless 0 text) (more : Bytes) :
    tokensOf (text ++ more) = tokensOf text ++ tokensOf more := by
  rw [tokensOf, (bares_append (Nat.zero_le _) hend hflaws more).1, List.filter_append]
  rfl

theorem flawless_append {text : Bytes} (hend : text = [] ∨ Lexeme.EndsLine text)
    (hflaws : Flawless 0 text) (more : Bytes) :
    Flawless 0 (text ++ more) ↔ Flawless 0 more :=
  (bares_append (Nat.zero_le _) hend hflaws more).2

end Lexed

end NovelAsm
