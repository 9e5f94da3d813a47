import NovelAsm.Proofs.SyntaxTree.Lossless

/-!
Where tokens stand. A lexeme never reaches behind the end of the text that it is cut off, flawed
or not, and the flaws found in it lie inside it. So the tokens of a text tile it: each is the
lexeme at the place where the one before it ended, and its location counts the bytes and the line
feeds in front of it, modulo `2 ^ 32`.
-/

namespace NovelAsm

namespace Location

/-- The bytes behind the last line feed of a text. -/
def lastLine (text : Bytes) : Bytes := text.reverse.takeWhile (· != byte '\n')

/-- The location behind a text, counted at once: every byte counts for the offset and every line
feed for the line; the column starts again behind the last line feed. -/
def behind (place : Location) (text : Bytes) : Location where
  line := place.line + (text.count (byte '\n')).toUInt32
  column :=
    if byte '\n' ∈ text then 1 + (lastLine text).length.toUInt32
    else place.column + text.length.toUInt32
  offset := place.offset + text.length.toUInt32

theorem toUInt32_succ (n : Nat) : (n + 1).toUInt32 = n.toUInt32 + 1 := UInt32.ofNat_add n 1

theorem behind_nil (place : Location) : place.behind [] = place := by
  cases place
  simp [behind]

/-- Counting at once goes on like counting byte by byte. -/
theorem behind_concat (place : Location) (text : Bytes) (b : UInt8) :
    place.behind (text ++ [b]) = (place.behind text).step b := by
  by_cases hb : b = byte '\n'
  · subst hb
    simp [behind, step, lastLine, toUInt32_succ, ← UInt32.add_assoc]
  · by_cases hmem : byte '\n' ∈ text
    · simp [behind, step, lastLine, hb, Ne.symm hb, hmem, toUInt32_succ,
        ← UInt32.add_assoc]
    · simp [behind, step, hb, Ne.symm hb, hmem, toUInt32_succ,
        ← UInt32.add_assoc]

theorem advance_eq_behind (place : Location) (text : Bytes) :
    place.advance text = place.behind text := by
  induction text using List.reverseRecOn with
  | nil => exact (behind_nil place).symm
  | append_singleton text b ih =>
      rw [behind_concat, ← ih, advance, advance, List.foldl_append, List.foldl_cons,
        List.foldl_nil]

theorem behind_append (place : Location) (text more : Bytes) :
    (place.behind text).behind more = place.behind (text ++ more) := by
  simp only [← advance_eq_behind, advance, List.foldl_append]

/-- Numbers that begin with one, counted on from another beginning. -/
theorem one_add_sub_one (count first : UInt32) : 1 + count + first - 1 = first + count := by
  rw [UInt32.add_comm 1, UInt32.add_assoc, UInt32.add_comm 1, ← UInt32.add_assoc,
    UInt32.add_sub_cancel, UInt32.add_comm]

/-- Wherever a text begins, moving a place of it moves the line to that of the same byte. -/
theorem behind_origin_line_add (base : Location) (text : Bytes) :
    (origin.behind text).line + base.line - 1 = (base.behind text).line :=
  one_add_sub_one _ _

theorem behind_origin_offset_add (base : Location) (text : Bytes) :
    (origin.behind text).offset + base.offset = (base.behind text).offset := by
  simp only [behind, origin]
  rw [UInt32.zero_add, UInt32.add_comm]

end Location

namespace Lexeme

/-- Flaws that lie in the first bytes of a text. -/
def UpTo (limit : Nat) (flaws : List Flaw) : Prop :=
  ∀ flaw ∈ flaws, flaw.start ≤ flaw.stop ∧ flaw.stop ≤ limit

theorem UpTo.append {limit : Nat} {flaws more : List Flaw} (h : UpTo limit flaws)
    (hmore : UpTo limit more) : UpTo limit (flaws ++ more) := fun flaw hflaw =>
  (List.mem_append.mp hflaw).elim (h flaw) (hmore flaw)

theorem UpTo.mono {limit more : Nat} {flaws : List Flaw} (h : UpTo limit flaws)
    (hle : limit ≤ more) : UpTo more flaws := fun flaw hflaw =>
  ⟨(h flaw hflaw).1, (h flaw hflaw).2.trans hle⟩

theorem upTo_singleton {limit : Nat} {flaw : Flaw} (hle : flaw.start ≤ flaw.stop)
    (hlimit : flaw.stop ≤ limit) : UpTo limit [flaw] := fun _ hflaw =>
  List.mem_singleton.mp hflaw ▸ ⟨hle, hlimit⟩

/-- A lexeme that ends inside the bytes there are behind its first one, with its flaws inside
of it. -/
structure Within (lexeme : Lexeme) (available : Nat) : Prop where
  more : lexeme.more ≤ available
  flaws : UpTo lexeme.size lexeme.flaws

variable {available : Nat}

theorem clean_within (kind : TokenKind) {more : Nat} (h : more ≤ available) :
    (clean kind more).Within available := ⟨h, nofun⟩

theorem flawed_within (kind : TokenKind) {more : Nat} (problem : LexicalProblem)
    (h : more ≤ available) : (flawed kind more problem).Within available :=
  ⟨h, upTo_singleton (Nat.zero_le _) le_rfl⟩

theorem blanks_le (text : Bytes) : blanks text ≤ text.length := by
  induction text with
  | nil => exact le_rfl
  | cons b rest ih =>
      rw [blanks]
      split
      · exact Nat.succ_le_succ ih
      · split
        · exact Nat.succ_le_succ ih
        · exact Nat.zero_le _

theorem fraction_le (text : Bytes) : fraction text ≤ text.length := by
  unfold fraction
  split
  · split
    · exact Nat.add_le_add_right (run_le _ _) 2
    · exact Nat.zero_le _
  · exact Nat.zero_le _

theorem exponentDigits_le (text : Bytes) : exponentDigits text ≤ text.length := by
  cases text with
  | nil => exact le_rfl
  | cons b rest =>
      have hrun := run_le Byte.isDigit rest
      simp only [exponentDigits]
      split
      · split
        · exact Nat.zero_le _
        · simp only [List.length_cons]
          omega
      · exact run_le _ _

theorem exponent_le (text : Bytes) : exponent text ≤ text.length := by
  cases text with
  | nil => exact le_rfl
  | cons letter rest =>
      have hdigits := exponentDigits_le rest
      simp only [exponent]
      split
      · split
        · exact Nat.zero_le _
        · simp only [List.length_cons]
          omega
      · exact Nat.zero_le _

theorem numberBody_le (first : UInt8) (rest : Bytes) :
    (numberBody first rest).1 ≤ rest.length := by
  unfold numberBody
  split
  · cases rest with
    | nil => simp at *
    | cons letter digits => exact Nat.succ_le_succ (run_le _ digits)
  · have hwhole := run_le isDigitOrSeparator rest
    have hpart := fraction_le (rest.drop (run isDigitOrSeparator rest))
    have hpower := exponent_le (rest.drop (run isDigitOrSeparator rest +
      fraction (rest.drop (run isDigitOrSeparator rest))))
    simp only [List.length_drop] at hpart hpower ⊢
    omega

theorem number_within (first : UInt8) (rest : Bytes) :
    (number first rest).Within rest.length := by
  have hbody := numberBody_le first rest
  have htail := run_le Byte.isNamePart (rest.drop (numberBody first rest).1)
  rw [List.length_drop] at htail
  simp only [number]
  split
  · exact clean_within _ hbody
  · exact flawed_within _ _ (by omega)

theorem unclosed_within {seen : Nat} {flaws : List Flaw} (hseen : 0 < seen)
    (hflaws : UpTo seen flaws) (count : Nat) :
    (stringBody.unclosed seen flaws).Within (seen - 1 + count) := by
  have hsize : (stringBody.unclosed seen flaws).size = seen := Nat.sub_add_cancel hseen
  refine ⟨Nat.le_add_right _ _, ?_⟩
  rw [hsize]
  exact hflaws.append (upTo_singleton (Nat.zero_le _) le_rfl)

/-- A string literal of which `seen` bytes have been read ends among those that are left. -/
theorem stringBody_within (seen : Nat) (flaws : List Flaw) (rest : Bytes) (hseen : 0 < seen)
    (hflaws : UpTo seen flaws) :
    (stringBody seen flaws rest).Within (seen - 1 + rest.length) := by
  have hescape {seen : Nat} {flaws : List Flaw} (hflaws : UpTo seen flaws) :
      UpTo (seen + 1) (flaws ++ [⟨.unknownEscape, seen + 1, seen + 1⟩]) :=
    (hflaws.mono (Nat.le_succ _)).append (upTo_singleton le_rfl le_rfl)
  fun_induction stringBody seen flaws rest with
  | case1 => exact unclosed_within hseen hflaws 0
  | case2 => exact unclosed_within hseen hflaws _
  | case3 seen flaws b rest =>
      refine ⟨by simp only [List.length_cons]; omega, hflaws.mono (Nat.le_succ seen)⟩
  | case4 seen flaws b rest _ _ _ ih =>
      have hbehind := ih (Nat.succ_pos _) (hflaws.mono (Nat.le_succ _))
      exact ⟨by have := hbehind.more; simp only [List.length_cons]; omega, hbehind.flaws⟩
  | case5 seen flaws b _ _ _ ih =>
      have hbehind := ih (Nat.succ_pos _) (hescape hflaws)
      have hmore := hbehind.more
      simp only [List.length_cons, List.length_nil] at hmore ⊢
      exact ⟨by omega, hbehind.flaws⟩
  | case6 seen flaws b _ _ _ escaped behind _ ih =>
      have hbehind := ih (Nat.succ_pos _) (hflaws.mono (Nat.le_add_right _ 2))
      exact ⟨by have := hbehind.more; simp only [List.length_cons]; omega, hbehind.flaws⟩
  | case7 seen flaws b _ _ _ escaped behind _ ih =>
      have hbehind := ih (Nat.succ_pos _) (hescape hflaws)
      exact ⟨by have := hbehind.more; simp only [List.length_cons] at this ⊢; omega, hbehind.flaws⟩

theorem blockComment_within (seen depth : Nat) (rest : Bytes) (hseen : 0 < seen) :
    (blockComment seen depth rest).Within (seen - 1 + rest.length) := by
  fun_induction blockComment seen depth rest with
  | case1 => exact flawed_within _ _ (Nat.le_add_right _ _)
  | case2 => exact flawed_within _ _ (by simp only [List.length_singleton]; omega)
  | case3 seen depth a b rest hopens ih =>
      have hrest := ih (by omega)
      exact ⟨by have := hrest.more; simp only [List.length_cons]; omega, hrest.flaws⟩
  | case4 seen a b rest hopens hcloses =>
      exact clean_within _ (by simp only [List.length_cons]; omega)
  | case5 seen a b rest hopens hcloses depth ih =>
      have hrest := ih (by omega)
      exact ⟨by have := hrest.more; simp only [List.length_cons]; omega, hrest.flaws⟩
  | case6 seen depth a b rest hopens hcloses ih =>
      have hrest := ih (by omega)
      exact ⟨by have := hrest.more; simp only [List.length_cons] at this ⊢; omega, hrest.flaws⟩

theorem slash_within (rest : Bytes) : (slash rest).Within rest.length := by
  cases rest with
  | nil => exact clean_within _ le_rfl
  | cons b rest =>
      simp only [slash]
      split
      · exact clean_within _ (Nat.succ_le_succ (run_le _ rest))
      · split
        · have hcomment := blockComment_within 2 0 rest (by decide)
          rw [Nat.add_comm] at hcomment
          exact hcomment
        · exact clean_within _ (Nat.zero_le _)

theorem backslash_within (rest : Bytes) : (backslash rest).Within rest.length := by
  cases rest with
  | nil => exact flawed_within _ _ le_rfl
  | cons b rest =>
      simp only [backslash]
      split
      · rename_i hreturn
        cases rest with
        | nil => simp at hreturn
        | cons => exact clean_within _ (by simp only [List.length_cons]; omega)
      · split
        · exact clean_within _ (Nat.succ_le_succ (Nat.zero_le _))
        · exact flawed_within _ _ (Nat.zero_le _)

theorem register_within (rest : Bytes) : (register rest).Within rest.length := by
  simp only [register]
  split
  · exact flawed_within _ _ (Nat.zero_le _)
  · exact clean_within _ (run_le _ rest)

theorem word_within (first : UInt8) (rest : Bytes) : (word first rest).Within rest.length := by
  have hmore : (rest.takeWhile Byte.isNamePart).length ≤ rest.length := run_le _ rest
  simp only [word]
  split
  · exact clean_within _ hmore
  · exact clean_within _ hmore

theorem punctuation?_within {first : Char} {second : Option Char} {lexeme : Lexeme}
    (h : punctuation? first second = some lexeme) : lexeme.Within second.toList.length := by
  unfold punctuation? at h
  split at h
  all_goals first
    | cases h; exact clean_within _ (Nat.zero_le _)
    | cases h; exact clean_within _ le_rfl
    | cases h

theorem mark_within (first : UInt8) (rest : Bytes) : (mark first rest).Within rest.length := by
  simp only [mark]
  split
  · rename_i hmark
    have hwithin := punctuation?_within hmark
    refine ⟨hwithin.more.trans ?_, hwithin.flaws⟩
    cases rest with
    | nil => exact le_rfl
    | cons => exact Nat.succ_le_succ (Nat.zero_le _)
  · exact flawed_within _ _ (run_le _ rest)

/-- No lexeme reaches behind the end of the text that it is cut off. -/
theorem scan_within (first : UInt8) (rest : Bytes) : (scan first rest).Within rest.length := by
  rw [scan_eq]
  split
  · have hblanks := blanks_le (first :: rest)
    exact clean_within _ (by rw [List.length_cons] at hblanks; omega)
  rename_i hblanks
  unfold cut
  split
  · exact clean_within _ (Nat.zero_le _)
  split
  · rename_i hreturn
    cases eq_of_beq hreturn
    have hline := lineFeed_of_blanks (by simpa using hblanks)
    cases rest with
    | nil => cases hline
    | cons => exact clean_within _ (Nat.succ_le_succ (Nat.zero_le _))
  split
  · exact word_within first rest
  split
  · exact number_within first rest
  split
  · exact Nat.zero_add rest.length ▸ stringBody_within 1 [] rest Nat.one_pos nofun
  split
  · exact register_within rest
  split
  · exact backslash_within rest
  split
  · exact slash_within rest
  · exact mark_within first rest

end Lexeme

namespace Lexed

/-- A token as the lexeme that a text begins with, at a place. -/
structure IsCutAt (place : Location) (token : Token) (text : Bytes) : Prop where
  starts : token.span = ⟨place, place.behind token.text⟩
  lexeme : ∃ first rest, text = first :: rest ∧ token.kind = (Lexeme.scan first rest).kind ∧
    token.text = first :: rest.take (Lexeme.scan first rest).more

/-- Each token is cut off what is left behind the tokens before it. The first `skip` bytes
belong to a token that has been cut, and `place` is the location behind them. -/
theorem walk_isCutAt {skip : Nat} {place : Location} {text : Bytes} (hskip : skip ≤ text.length)
    {front back : List Token} {token : Token}
    (htokens : (walk skip place text).tokens = front ++ token :: back) :
    IsCutAt (place.behind (front.flatMap Token.text)) token
      ((token :: back).flatMap Token.text) := by
  induction text generalizing skip place front with
  | nil => simp [walk] at htokens
  | cons first rest ih =>
      cases skip with
      | succ skip => exact ih (Nat.le_of_succ_le_succ hskip) htokens
      | zero =>
          have hmore := (Lexeme.scan_within first rest).more
          have htext := flatMap_text_walk 0 place (first :: rest)
          rw [walk_cons_zero] at htokens htext
          cases front with
          | nil =>
              obtain ⟨rfl, rfl⟩ := List.cons_eq_cons.mp htokens
              refine ⟨?_, first, rest, htext, rfl, rfl⟩
              simp [Location.behind_nil, Span.covering, Location.advance_eq_behind]
          | cons cut front =>
              simp only [List.cons_append, List.cons.injEq] at htokens
              obtain ⟨rfl, htokens⟩ := htokens
              have hbehind := ih hmore htokens
              simpa only [List.flatMap_cons, Span.covering, Location.advance_eq_behind,
                Location.behind_append] using hbehind

theorem walk_finish {skip : Nat} {place : Location} {text : Bytes} (hskip : skip ≤ text.length) :
    (walk skip place text).finish = finishAt (place.behind (text.drop skip)) := by
  induction text generalizing skip place with
  | nil => rw [List.drop_nil, Location.behind_nil]; rfl
  | cons first rest ih =>
      cases skip with
      | succ skip => exact ih (Nat.le_of_succ_le_succ hskip)
      | zero =>
          rw [walk_cons_zero]
          simp only [ih (Lexeme.scan_within first rest).more, Span.covering,
            Location.advance_eq_behind, Location.behind_append, List.cons_append,
            List.take_append_drop, List.drop_zero]

theorem finish_read (source : Bytes) (origin : Location) :
    (read source origin).finish = finishAt (origin.behind source) :=
  walk_finish (Nat.zero_le _)

theorem flatMap_text_read (source : Bytes) (origin : Location) :
    (read source origin).all.flatMap Token.text = source := by
  have htext : (read source origin).tokens.flatMap Token.text = source :=
    flatMap_text_walk 0 origin source
  rw [all, List.flatMap_append, htext, List.flatMap_singleton, finish_read]
  exact List.append_nil source

/-- A token of a text spans its own bytes, behind those of the tokens in front of it. -/
theorem span_of_split {source : Bytes} {origin : Location} {front back : List Token} {token : Token}
    (htokens : (read source origin).tokens = front ++ token :: back) :
    token.span = ⟨origin.behind (front.flatMap Token.text),
      origin.behind ((front ++ [token]).flatMap Token.text)⟩ := by
  rw [(walk_isCutAt (Nat.zero_le _) htokens).starts, Location.behind_append, List.flatMap_append,
    List.flatMap_singleton]

/-- The tokens of a text tile it, whatever the text and wherever it stands: each is the lexeme
that the rest of the text begins with, begins where the one before it ended, and is at the
location that counts the bytes in front of it. The token at the end is the only one of its kind
and the only empty one. -/
theorem read_contiguous (source : Bytes) (origin : Location) :
    (read source origin).all.flatMap Token.text = source ∧
      (read source origin).finish = finishAt (origin.behind source) ∧
      (∀ front token next back, (read source origin).all = front ++ token :: next :: back →
        next.span.start = token.span.stop) ∧
      ∀ front token back, (read source origin).tokens = front ++ token :: back →
        token.kind ≠ .endOfFile ∧ token.text ≠ [] ∧
        token.span = ⟨origin.behind (front.flatMap Token.text),
          origin.behind ((front ++ [token]).flatMap Token.text)⟩ ∧
        ∃ first rest, (token :: back).flatMap Token.text = first :: rest ∧
          (Lexeme.scan first rest).Within rest.length ∧
          token.kind = (Lexeme.scan first rest).kind ∧
          token.text = first :: rest.take (Lexeme.scan first rest).more := by
  have htext : (read source origin).tokens.flatMap Token.text = source :=
    flatMap_text_walk 0 origin source
  refine ⟨flatMap_text_read source origin, finish_read source origin, ?_, ?_⟩
  · intro front token next back hall
    rcases List.eq_nil_or_concat back with rfl | ⟨back, last, rfl⟩
    · have hall : (read source origin).tokens ++ [(read source origin).finish] =
          (front ++ [token]) ++ [next] := by simpa [all] using hall
      obtain ⟨htokens, hlast⟩ := List.append_inj' hall rfl
      cases List.singleton_inj.mp hlast
      rw [span_of_split htokens, finish_read, ← htokens, htext]
      rfl
    · have hall : (read source origin).tokens ++ [(read source origin).finish] =
          (front ++ token :: next :: back) ++ [last] := by simpa [all] using hall
      have htokens := (List.append_inj' hall rfl).1
      rw [span_of_split htokens, span_of_split (htokens.trans (List.append_cons front token _))]
  · intro front token back htokens
    have hmem : token ∈ (read source origin).tokens := htokens ▸ by simp
    obtain ⟨first, rest, hbehind, hkind, htext⟩ :=
      (walk_isCutAt (Nat.zero_le _) htokens).lexeme
    exact ⟨kind_ne_of_mem_tokens hmem, text_ne_nil_of_mem_tokens hmem, span_of_split htokens, first,
      rest, hbehind, Lexeme.scan_within first rest, hkind, htext⟩

end Lexed

end NovelAsm
