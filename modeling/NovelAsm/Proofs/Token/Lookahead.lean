import Mathlib
import NovelAsm.Proofs.Token.Clean

/-!
How far a lexeme looks ahead. Where a lexeme without flaws ends can be told from its own bytes and
from what can be seen behind it: the next byte and the one behind that, of a name no more than that
it begins there. So names may be replaced by others in a text without flaws; all other lexemes are
cut off as before (`Lexed.bares_retexted`).
-/

namespace NovelAsm

namespace Lexeme

/-- A byte, or a letter if it may open a name. -/
def letter (b : UInt8) : UInt8 := if Byte.isNameStart b then byte 'a' else b

/-- What a lexeme sees of the text behind it. -/
def ahead : Bytes → Bytes
  | [] => []
  | first :: rest =>
      if Byte.isNameStart first then [letter first]
      else if first == byte '$' then [first]
      else first :: (rest.head?.map letter).toList

/-- A test that does not tell names apart. -/
def Blind (test : UInt8 → Bool) : Prop := ∀ b, test (letter b) = test b

theorem blind_namePart : Blind Byte.isNamePart := by
  intro b
  rw [letter]
  split
  · rename_i hstart
    rw [Byte.isNamePart, Byte.isNamePart, hstart]
    rfl
  · rfl

theorem blind_beq {c : UInt8} (h : Byte.isNameStart c = false) : Blind (· == c) := by
  have hstart {b : UInt8} (hb : Byte.isNameStart b = true) : (b == c) = false :=
    beq_eq_false_iff_ne.mpr (Byte.ne_of_test hb h)
  intro b
  simp only [letter]
  split
  · rename_i hb
    rw [hstart hb, hstart (b := byte 'a') (by decide)]
  · rfl

theorem blind_notLineEnd : Blind notLineEnd := by
  intro b
  have hfeed : (letter b == byte '\n') = (b == byte '\n') := blind_beq (by decide) b
  have hreturn : (letter b == byte '\r') = (b == byte '\r') := blind_beq (by decide) b
  rw [notLineEnd, notLineEnd, bne, bne, bne, bne, hfeed, hreturn]

section Ahead

variable {behind other : Bytes}

theorem head?_ahead (text : Bytes) : (ahead text).head? = text.head?.map letter := by
  cases text with
  | nil => rfl
  | cons first rest =>
      simp only [ahead]
      split
      · rfl
      · rename_i hstart
        split <;> simp [letter, hstart]

theorem head?_letter (h : ahead behind = ahead other) :
    behind.head?.map letter = other.head?.map letter := by
  rw [← head?_ahead, ← head?_ahead, h]

theorem any_head? (h : ahead behind = ahead other) {test : UInt8 → Bool} (htest : Blind test) :
    behind.head?.any test = other.head?.any test := by
  have hblind (text : Bytes) : text.head?.any test = (text.head?.map letter).any test := by
    cases text with
    | nil => rfl
    | cons b rest => exact (htest b).symm
  rw [hblind, hblind, head?_letter h]

/-- A byte that opens no name is seen, with the one behind it. -/
theorem exists_cons (h : ahead behind = ahead other) {first : UInt8} {rest : Bytes}
    (hbehind : behind = first :: rest) (hstart : Byte.isNameStart first = false)
    (hdollar : first ≠ byte '$') :
    ∃ more, other = first :: more ∧ rest.head?.map letter = more.head?.map letter := by
  subst hbehind
  have hletter := head?_letter h
  cases other with
  | nil => cases hletter
  | cons b more =>
      have hsame : first = letter b := by
        simpa [letter, hstart] using hletter
      have hb : Byte.isNameStart b = false := by
        by_contra hb
        rw [letter, if_pos (by simpa using hb)] at hsame
        rw [hsame] at hstart
        exact absurd hstart (by decide)
      rw [letter, if_neg (by simp [hb])] at hsame
      subst hsame
      refine ⟨more, rfl, ?_⟩
      simp only [ahead, hstart, Bool.false_eq_true, if_false, beq_eq_false_iff_ne.mpr hdollar] at h
      have htail := List.cons.inj h
      have hsame := congrArg List.head? htail.2
      simpa using hsame

end Ahead

/-- A run that ends with a text is the same before any other text that it cannot enter. -/
theorem takeWhile_ahead {behind other : Bytes} (h : ahead behind = ahead other)
    {test : UInt8 → Bool} (htest : Blind test) {body : Bytes}
    (hbody : ((body ++ behind).takeWhile test).length = body.length) :
    (body ++ behind).takeWhile test = body ∧ (body ++ other).takeWhile test = body := by
  rw [List.takeWhile_append] at hbody ⊢
  split at hbody
  · rename_i hall
    have hwhole : body.takeWhile test = body := (List.takeWhile_prefix test).eq_of_length hall
    have hnone : behind.takeWhile test = [] := by
      rw [List.length_append] at hbody
      exact List.length_eq_zero_iff.mp (by omega)
    have hhead (text : Bytes) : text.takeWhile test = [] ↔ text.head?.any test = false := by
      cases text with
      | nil => simp
      | cons b rest => simp [List.takeWhile_cons]
    have hother : other.takeWhile test = [] := by
      rw [hhead, ← any_head? h htest, ← hhead, hnone]
    rw [if_pos hall, List.takeWhile_append, if_pos hall, hnone, hother, List.append_nil]
    exact ⟨rfl, rfl⟩
  · rename_i hpart
    exact absurd hbody hpart

/-- What is cut off a text can be told from what is seen behind it. -/
def SeesAhead (cut : Bytes → Lexeme) : Prop :=
  ∀ body behind other, ahead behind = ahead other → (cut (body ++ behind)).flaws = [] →
    (cut (body ++ behind)).more = body.length → cut (body ++ other) = cut (body ++ behind)

theorem word_seesAhead (first : UInt8) : SeesAhead (word first) := by
  intro body behind other hahead _ hmore
  have hlength : ((body ++ behind).takeWhile Byte.isNamePart).length = body.length := by
    rw [← hmore]
    simp only [word]
    split <;> rfl
  obtain ⟨hbehind, hother⟩ := takeWhile_ahead hahead blind_namePart hlength
  simp only [word, hbehind, hother]

theorem register_seesAhead : SeesAhead register := by
  intro body behind other hahead hflaws hmore
  have hlength : run Byte.isNamePart (body ++ behind) = body.length := by
    rw [← hmore]
    simp only [register] at hflaws ⊢
    split
    · rename_i hnone
      rw [hnone] at hflaws
      cases hflaws
    · rfl
  obtain ⟨hbehind, hother⟩ := takeWhile_ahead hahead blind_namePart hlength
  simp only [register, run, hbehind, hother]

theorem backslash_seesAhead : SeesAhead backslash := by
  intro body behind other hahead hflaws hmore
  have hfeed := any_head? hahead (blind_beq (show Byte.isNameStart (byte '\n') = false by decide))
  have hany (text : Bytes) : text.head?.any (· == byte '\n') =
      (text.head? == some (byte '\n')) := by
    cases text <;> rfl
  rw [hany, hany] at hfeed
  match body with
  | [] =>
      cases behind with
      | nil => cases hflaws
      | cons b rest =>
          simp only [List.nil_append, backslash] at hflaws hmore
          split at hmore
          · cases hmore
          · split at hmore
            · cases hmore
            · rename_i hfirst hsecond
              rw [if_neg hfirst, if_neg hsecond] at hflaws
              cases hflaws
  | [b] => simp only [List.singleton_append, backslash, hfeed]
  | b :: c :: rest => rfl

/-- Whether a byte makes a comment of the slash in front of it. -/
def opensComment (b : UInt8) : Bool := b == byte '/' || b == byte '*'

theorem blind_opensComment : Blind opensComment := by
  intro b
  have hslash : (letter b == byte '/') = (b == byte '/') := blind_beq (by decide) b
  have hstar : (letter b == byte '*') = (b == byte '*') := blind_beq (by decide) b
  rw [opensComment, opensComment, hslash, hstar]

theorem slash_eq_mark {text : Bytes} (h : text.head?.any opensComment = false) :
    slash text = clean (.mark .slash) 0 := by
  cases text with
  | nil => rfl
  | cons b rest =>
      simp only [List.head?_cons, Option.any_some, opensComment, Bool.or_eq_false_iff] at h
      simp only [slash, h.1, h.2, Bool.false_eq_true, if_false]

/-- A slash that is a lexeme by itself opens no comment. -/
theorem head?_opensComment {text : Bytes} (hflaws : (slash text).flaws = [])
    (hmore : (slash text).more = 0) : text.head?.any opensComment = false := by
  cases text with
  | nil => rfl
  | cons b rest =>
      simp only [slash] at hflaws hmore
      rw [List.head?_cons, Option.any_some, opensComment, Bool.or_eq_false_iff]
      split at hmore
      · cases hmore
      · rename_i hslash
        rw [if_neg hslash] at hflaws
        split at hmore
        · rename_i hstar
          rw [if_pos hstar] at hflaws
          obtain ⟨comment, _, _, hlength, _⟩ := exists_blockComment 2 0 rest hflaws
          omega
        · rename_i hstar
          exact ⟨Bool.not_eq_true _ ▸ hslash, Bool.not_eq_true _ ▸ hstar⟩

theorem slash_seesAhead : SeesAhead slash := by
  intro body behind other hahead hflaws hmore
  cases body with
  | nil =>
      have hbehind := head?_opensComment hflaws hmore
      rw [List.nil_append] at hbehind ⊢
      have hother := (any_head? hahead blind_opensComment).symm.trans hbehind
      rw [List.nil_append, slash_eq_mark hbehind, slash_eq_mark hother]
  | cons b body =>
      simp only [List.cons_append, slash, List.length_cons] at hflaws hmore ⊢
      split
      · rename_i hslash
        rw [if_pos hslash] at hmore
        have hlength : ((body ++ behind).takeWhile notLineEnd).length = body.length :=
          Nat.succ.inj hmore
        obtain ⟨hbehind, hother⟩ := takeWhile_ahead hahead blind_notLineEnd hlength
        simp only [run, hbehind, hother]
      · rename_i hslash
        rw [if_neg hslash] at hflaws hmore
        split
        · rename_i hstar
          rw [if_pos hstar] at hflaws hmore
          obtain ⟨comment, rest, hcomment, hlength, hsame⟩ :=
            exists_blockComment 2 0 (body ++ behind) hflaws
          obtain ⟨rfl, rfl⟩ := List.append_inj hcomment (by omega)
          rw [hsame, hsame]
        · rfl

/-! ## Numbers -/

section Number

variable {behind other : Bytes} (h : ahead behind = ahead other)
  (hpart : behind.head?.any Byte.isNamePart = false)

include hpart in
/-- No run of name characters goes on behind a text. -/
theorem run_before {test : UInt8 → Bool} (htest : ∀ b, test b = true → Byte.isNamePart b = true)
    (text : Bytes) : run test (text ++ behind) = run test text := by
  have hnone : behind.takeWhile test = [] := by
    cases behind with
    | nil => rfl
    | cons b rest =>
        rw [List.takeWhile_cons, if_neg]
        intro hb
        simp only [List.head?_cons, Option.any_some] at hpart
        rw [htest b hb] at hpart
        cases hpart
  rw [run, run, List.takeWhile_append, hnone]
  split
  · rename_i hall
    rw [List.append_nil, hall]
  · rfl

theorem blind_digit : Blind Byte.isDigit := by
  intro b
  rw [letter]
  split
  · rename_i hstart
    rw [Byte.isDigit_of_isNameStart hstart]
    rfl
  · rfl

/-- Whether a text goes on with a fraction. -/
def opensFraction : Bytes → Bool
  | point :: rest => point == byte '.' && rest.head?.any Byte.isDigit
  | [] => false

theorem fraction_eq_zero_iff (text : Bytes) : fraction text = 0 ↔ opensFraction text = false := by
  match text with
  | [] => simp [fraction, opensFraction]
  | [b] => simp [fraction, opensFraction]
  | b :: c :: rest =>
      simp only [fraction, opensFraction, List.head?_cons, Option.any_some]
      split
      · rename_i hopens
        simp [hopens]
      · rename_i hopens
        simp [hopens]

include h in
/-- The byte behind a point or a sign is seen. -/
theorem head_any_second {mark : UInt8} (hstart : Byte.isNameStart mark = false)
    (hdollar : mark ≠ byte '$') {test : UInt8 → Bool} (htest : Blind test) {rest : Bytes}
    (hbehind : behind = mark :: rest) :
    ∃ more, other = mark :: more ∧ more.head?.any test = rest.head?.any test := by
  obtain ⟨more, hmore, hsecond⟩ := exists_cons h hbehind hstart hdollar
  have hblind (text : Bytes) : text.head?.any test = (text.head?.map letter).any test := by
    cases text with
    | nil => rfl
    | cons b rest => exact (htest b).symm
  exact ⟨more, hmore, by rw [hblind, hblind, hsecond]⟩

include h in
theorem opensFraction_ahead : opensFraction other = opensFraction behind := by
  have hpoint := any_head? h (blind_beq (show Byte.isNameStart (byte '.') = false by decide))
  cases behind with
  | nil =>
      cases other with
      | nil => rfl
      | cons b rest => cases head?_letter h
  | cons b rest =>
      by_cases hb : b = byte '.'
      · subst hb
        obtain ⟨more, rfl, hsecond⟩ := head_any_second h (by decide) (by decide) blind_digit rfl
        simp only [opensFraction, hsecond]
      · cases other with
        | nil => cases head?_letter h
        | cons c more =>
            simp only [List.head?_cons, Option.any_some] at hpoint
            simp only [opensFraction, ← hpoint, beq_eq_false_iff_ne.mpr hb, Bool.false_and]

include h hpart

theorem other_part : other.head?.any Byte.isNamePart = false := by
  rw [← any_head? h blind_namePart, hpart]

theorem run_ahead {test : UInt8 → Bool} (htest : ∀ b, test b = true → Byte.isNamePart b = true)
    (text : Bytes) : run test (text ++ other) = run test (text ++ behind) := by
  rw [run_before hpart htest, run_before (other_part h hpart) htest]

theorem fraction_ahead {text : Bytes} (hwithin : fraction (text ++ behind) ≤ text.length) :
    fraction (text ++ other) = fraction (text ++ behind) := by
  have hother := other_part h hpart
  match text with
  | [] =>
      have hnone : fraction behind = 0 := Nat.le_zero.mp hwithin
      rw [List.nil_append, List.nil_append, hnone, fraction_eq_zero_iff, opensFraction_ahead h,
        ← fraction_eq_zero_iff, hnone]
  | [point] =>
      have hnone {text : Bytes} (htext : text.head?.any Byte.isNamePart = false) :
          fraction (point :: text) = 0 := by
        rw [fraction_eq_zero_iff, opensFraction]
        cases text with
        | nil => simp
        | cons b rest =>
            simp only [List.head?_cons, Option.any_some] at htext ⊢
            have hdigit : Byte.isDigit b = false := by
              by_contra hdigit
              rw [Byte.isNamePart_of_isDigit (b := b) (by simpa using hdigit)] at htext
              cases htext
            rw [hdigit, Bool.and_false]
      rw [List.singleton_append, List.singleton_append, hnone hpart, hnone hother]
  | point :: digit :: rest =>
      have hrun := run_ahead h hpart (fun _ => isNamePart_of_isDigitOrSeparator) rest
      simp only [List.cons_append, fraction, hrun]

theorem exponentDigits_ahead {text : Bytes}
    (hwithin : exponentDigits (text ++ behind) ≤ text.length) :
    exponentDigits (text ++ other) = exponentDigits (text ++ behind) := by
  have hother := other_part h hpart
  have hsign (b : UInt8) (rest : Bytes) (hb : (b == byte '+' || b == byte '-') = true) :
      exponentDigits (b :: rest) = 0 ↔ rest.head?.any Byte.isDigit = false := by
    simp only [exponentDigits, if_pos hb]
    cases rest with
    | nil => simp [run]
    | cons c rest =>
        rw [run_cons, List.head?_cons, Option.any_some]
        cases Byte.isDigit c <;> simp
  cases text with
  | nil =>
      have hnone : exponentDigits behind = 0 := Nat.le_zero.mp hwithin
      rw [List.nil_append, List.nil_append, hnone]
      cases behind with
      | nil =>
          cases other with
          | nil => rfl
          | cons b rest => cases head?_letter h
      | cons b rest =>
          by_cases hb : (b == byte '+' || b == byte '-') = true
          · have hstart : Byte.isNameStart b = false ∧ b ≠ byte '$' := by
              rcases (Bool.or_eq_true _ _).mp hb with hb | hb <;> rw [beq_iff_eq.mp hb] <;> decide
            obtain ⟨more, rfl, hsecond⟩ := head_any_second h hstart.1 hstart.2 blind_digit rfl
            rw [hsign b more hb, hsecond, ← hsign b rest hb, hnone]
          · cases other with
            | nil => rfl
            | cons c more =>
                have hplus :=
                  any_head? h (blind_beq (show Byte.isNameStart (byte '+') = false by decide))
                have hminus :=
                  any_head? h (blind_beq (show Byte.isNameStart (byte '-') = false by decide))
                simp only [List.head?_cons, Option.any_some] at hplus hminus
                rw [hplus, hminus] at hb
                have hrun := run_before hother (fun _ => Byte.isNamePart_of_isDigit) []
                rw [exponentDigits, if_neg hb]
                exact hrun
  | cons b rest =>
      have hdigits := @Byte.isNamePart_of_isDigit
      simp only [List.cons_append, exponentDigits, run_ahead h hpart (fun _ => hdigits)]
      rw [← List.cons_append, ← List.cons_append, run_ahead h hpart (fun _ => hdigits)]

theorem exponent_ahead {text : Bytes} (hwithin : exponent (text ++ behind) ≤ text.length) :
    exponent (text ++ other) = exponent (text ++ behind) := by
  have hother := other_part h hpart
  cases text with
  | nil =>
      have hnone {text : Bytes} (htext : text.head?.any Byte.isNamePart = false) :
          exponent text = 0 := by
        cases text with
        | nil => rfl
        | cons b rest =>
            rw [exponent, if_neg]
            intro hletter
            simp only [List.head?_cons, Option.any_some] at htext
            rcases (Bool.or_eq_true _ _).mp hletter with hb | hb
            · rw [beq_iff_eq.mp hb] at htext
              exact absurd htext (by decide)
            · rw [beq_iff_eq.mp hb] at htext
              exact absurd htext (by decide)
      rw [List.nil_append, List.nil_append, hnone hpart, hnone hother]
  | cons letter rest =>
      simp only [List.cons_append, exponent, List.length_cons] at hwithin ⊢
      split
      · rename_i hletter
        rw [if_pos hletter] at hwithin
        have hdigits : exponentDigits (rest ++ behind) ≤ rest.length := by
          split at hwithin <;> omega
        rw [exponentDigits_ahead h hpart hdigits]
      · rfl

theorem numberBody_ahead (first : UInt8) {body : Bytes}
    (hbody : (numberBody first (body ++ behind)).1 = body.length) :
    numberBody first (body ++ other) = numberBody first (body ++ behind) := by
  have hother := other_part h hpart
  have hbase : (first == byte '0' && (body ++ other).head?.any isBaseLetter) =
      (first == byte '0' && (body ++ behind).head?.any isBaseLetter) := by
    have hnone {text : Bytes} (htext : text.head?.any Byte.isNamePart = false) :
        text.head?.any isBaseLetter = false := by
      cases text with
      | nil => rfl
      | cons b rest =>
          simp only [List.head?_cons, Option.any_some] at htext ⊢
          by_contra hb
          have hstart := isNameStart_of_isBaseLetter (b := b) (by simpa using hb)
          rw [Byte.isNamePart_iff.mpr (.inl hstart)] at htext
          cases htext
    cases body with
    | nil => rw [List.nil_append, List.nil_append, hnone hpart, hnone hother]
    | cons b rest => rfl
  simp only [numberBody, hbase] at hbody ⊢
  split
  · rename_i hprefix
    cases body with
    | nil =>
        rw [if_pos hprefix] at hbody
        cases hbody
    | cons b rest =>
        simp only [List.cons_append, List.drop_succ_cons, List.drop_zero,
          run_ahead h hpart (fun _ => isNamePart_of_isHexDigitOrSeparator)]
  · rename_i hprefix
    rw [if_neg hprefix] at hbody
    have hwhole := run_ahead h hpart (fun _ => isNamePart_of_isDigitOrSeparator) body
    have hdrop (count : Nat) (hcount : count ≤ body.length) (text : Bytes) :
        (body ++ text).drop count = body.drop count ++ text :=
      List.drop_append_of_le_length hcount
    simp only [hwhole] at hbody ⊢
    generalize run isDigitOrSeparator (body ++ behind) = whole at hbody ⊢
    rw [hdrop whole (by omega)] at hbody ⊢
    have hpartWithin : fraction (body.drop whole ++ behind) ≤ (body.drop whole).length := by
      rw [List.length_drop]
      omega
    rw [hdrop whole (by omega), fraction_ahead h hpart hpartWithin]
    generalize fraction (body.drop whole ++ behind) = part at hbody ⊢
    rw [hdrop (whole + part) (by omega)] at hbody ⊢
    have hpowerWithin : exponent (body.drop (whole + part) ++ behind) ≤
        (body.drop (whole + part)).length := by
      rw [List.length_drop]
      omega
    rw [hdrop (whole + part) (by omega), exponent_ahead h hpart hpowerWithin]

end Number

/-- A number ends with its body if no name character stands behind it. -/
theorem number_of_end {first : UInt8} {rest : Bytes}
    (h : run Byte.isNamePart (rest.drop (numberBody first rest).1) = 0) :
    number first rest =
      clean (if (numberBody first rest).2 then .realLiteral else .integerLiteral)
        (numberBody first rest).1 := by
  simp only [number, h]

theorem number_flaws {first : UInt8} {rest : Bytes} {tail : Nat}
    (h : run Byte.isNamePart (rest.drop (numberBody first rest).1) = tail + 1) :
    (number first rest).flaws ≠ [] := by
  simp only [number, h]
  exact List.cons_ne_nil _ _

theorem number_seesAhead (first : UInt8) : SeesAhead (number first) := by
  intro body behind other hahead hflaws hmore
  cases htail : run Byte.isNamePart
    ((body ++ behind).drop (numberBody first (body ++ behind)).1) with
  | succ tail => exact absurd hflaws (number_flaws htail)
  | zero =>
      rw [number_of_end htail] at hmore ⊢
      have hbody : (numberBody first (body ++ behind)).1 = body.length := hmore
      rw [hbody, List.drop_left] at htail
      have hpart : behind.head?.any Byte.isNamePart = false := by
        cases behind with
        | nil => rfl
        | cons b rest =>
            rw [run_cons] at htail
            simp only [List.head?_cons, Option.any_some]
            cases hb : Byte.isNamePart b with
            | false => rfl
            | true => simp [hb] at htail
      have hother : run Byte.isNamePart other = 0 :=
        run_before (other_part hahead hpart) (fun _ hb => hb) []
      have hsame := numberBody_ahead hahead hpart first hbody
      have hend : run Byte.isNamePart
          ((body ++ other).drop (numberBody first (body ++ other)).1) = 0 := by
        rw [hsame, hbody, List.drop_left, hother]
      rw [number_of_end hend, hsame]

/-! ## Lexemes -/

theorem selfContained_seesAhead {cut : Bytes → Lexeme}
    (h : ∀ rest, (cut rest).flaws = [] → SelfContained cut rest) : SeesAhead cut := by
  intro body behind other _ hflaws hmore
  obtain ⟨own, rest, hown, hlength, hsame⟩ := h _ hflaws
  obtain ⟨rfl, rfl⟩ := List.append_inj hown (by omega)
  rw [hsame, hsame]

theorem punctuation?_letter (first : Char) (b : UInt8) (hb : Byte.isNameStart b = true) :
    punctuation? first (some (Char.ofNat b.toNat)) = punctuation? first none := by
  have hmarks : ['*', '/', '=', '>', '<', '&', '|'].all
      (fun mark => !Byte.isNameStart (byte mark)) = true := rfl
  have hne : Char.ofNat b.toNat ∉ ['*', '/', '=', '>', '<', '&', '|'] := by
    intro hmem
    have hmark := List.all_eq_true.mp hmarks _ hmem
    rw [← Byte.eq_byte_of_ofNat rfl, hb] at hmark
    cases hmark
  generalize Char.ofNat b.toNat = second at hne
  simp only [List.mem_cons, List.not_mem_nil, or_false, not_or] at hne
  unfold punctuation?
  split <;> simp_all

theorem mark_seesAhead (first : UInt8) : SeesAhead (mark first) := by
  intro body behind other hahead hflaws hmore
  have hseen (hsame : punctuation? (Char.ofNat first.toNat)
        ((body ++ other).head?.map (Char.ofNat ·.toNat)) =
      punctuation? (Char.ofNat first.toNat) ((body ++ behind).head?.map (Char.ofNat ·.toNat))) :
      mark first (body ++ other) = mark first (body ++ behind) := by
    simp only [mark] at hflaws ⊢
    rw [hsame]
    cases hmark : punctuation? (Char.ofNat first.toNat)
        ((body ++ behind).head?.map (Char.ofNat ·.toNat)) with
    | some lexeme => rfl
    | none =>
        rw [hmark] at hflaws
        cases hflaws
  refine hseen ?_
  cases body with
  | cons b body => rfl
  | nil =>
      have hletter := head?_letter hahead
      rw [List.nil_append, List.nil_append]
      cases behind with
      | nil =>
          cases other with
          | nil => rfl
          | cons c more => cases hletter
      | cons b rest =>
          cases other with
          | nil => cases hletter
          | cons c more =>
              simp only [List.head?_cons, Option.map_some, Option.some.injEq, letter] at hletter ⊢
              split at hletter
              · rename_i hb
                split at hletter
                · rename_i hc
                  rw [punctuation?_letter _ b hb, punctuation?_letter _ c hc]
                · rename_i hc
                  rw [← hletter] at hc
                  exact absurd (by decide) hc
              · rename_i hb
                split at hletter
                · rw [hletter] at hb
                  exact absurd (by decide) hb
                · rw [hletter]

/-- Whether a text begins with a blank: with a space, a tab, or a carriage return that no line feed
follows. -/
def opensBlanks : Bytes → Bool
  | [] => false
  | b :: rest =>
      b == byte ' ' || b == byte '\t' || b == byte '\r' && rest.head? != some (byte '\n')

theorem blanks_cons (b : UInt8) (rest : Bytes) :
    blanks (b :: rest) = if opensBlanks (b :: rest) then blanks rest + 1 else 0 := by
  by_cases hblank : (b == byte ' ' || b == byte '\t') = true
  · have hopens : opensBlanks (b :: rest) = true := by
      rw [opensBlanks, hblank, Bool.true_or]
    rw [blanks, if_pos hblank, if_pos hopens]
  · have hopens : opensBlanks (b :: rest) =
        (b == byte '\r' && rest.head? != some (byte '\n')) := by
      rw [opensBlanks, Bool.eq_false_of_not_eq_true hblank, Bool.false_or]
    rw [blanks, if_neg hblank, hopens]

theorem opensBlanks_of_blanks {text : Bytes} (h : blanks text = 0) : opensBlanks text = false := by
  cases text with
  | nil => rfl
  | cons b rest =>
      rw [blanks_cons] at h
      split at h
      · cases h
      · rename_i hopens
        simpa using hopens

/-- A byte that opens no name is told from all others by what is seen of it. -/
theorem head?_beq_of_letter {text more : Bytes}
    (hletter : text.head?.map letter = more.head?.map letter) {c : UInt8}
    (hc : Byte.isNameStart c = false) : (text.head? == some c) = (more.head? == some c) := by
  have hhead (text : Bytes) : (text.head? == some c) =
      (text.head?.map letter).any (· == c) := by
    cases text with
    | nil => rfl
    | cons b rest => exact (blind_beq hc b).symm
  rw [hhead, hhead, hletter]

theorem opensBlanks_ahead {behind other : Bytes} (h : ahead behind = ahead other) :
    opensBlanks other = opensBlanks behind := by
  cases other with
  | nil =>
      cases behind with
      | nil => rfl
      | cons b rest => cases head?_letter h
  | cons c more =>
      cases behind with
      | nil => cases head?_letter h
      | cons b rest =>
          have hsame {m : UInt8} (hmark : Byte.isNameStart m = false) :
              (b == m) = (c == m) := by
            have hany := any_head? h (blind_beq hmark)
            simpa only [List.head?_cons, Option.any_some] using hany
          simp only [opensBlanks, hsame (m := byte ' ') (by decide),
            hsame (m := byte '\t') (by decide), hsame (m := byte '\r') (by decide)]
          cases hreturn : c == byte '\r' with
          | false => rfl
          | true =>
              have hb : b = byte '\r' := beq_iff_eq.mp ((hsame (by decide)).trans hreturn)
              obtain ⟨_, hmore, hsecond⟩ :=
                exists_cons h (congrArg (· :: rest) hb) (by decide) (by decide)
              obtain ⟨-, rfl⟩ := List.cons.inj hmore
              have hfeed := head?_beq_of_letter hsecond (c := byte '\n') (by decide)
              rw [bne, bne, hfeed]

theorem blanks_ahead {behind other : Bytes} (h : ahead behind = ahead other) (text : Bytes)
    (hwithin : blanks (text ++ behind) ≤ text.length) :
    blanks (text ++ other) = blanks (text ++ behind) := by
  induction text with
  | nil =>
      have hnone : blanks behind = 0 := Nat.le_zero.mp hwithin
      have hopens := (opensBlanks_ahead h).trans (opensBlanks_of_blanks hnone)
      rw [List.nil_append, List.nil_append, hnone]
      cases other with
      | nil => rfl
      | cons c more => rw [blanks_cons, hopens, if_neg Bool.false_ne_true]
  | cons b rest ih =>
      have hhead : ((rest ++ other).head? == some (byte '\n')) =
          ((rest ++ behind).head? == some (byte '\n')) := by
        cases rest with
        | nil => exact (head?_beq_of_letter (head?_letter h) (by decide)).symm
        | cons c rest => rfl
      have hopens : opensBlanks (b :: (rest ++ other)) = opensBlanks (b :: (rest ++ behind)) := by
        simp only [opensBlanks, bne, hhead]
      rw [List.cons_append, blanks_cons, List.length_cons] at hwithin
      rw [List.cons_append, List.cons_append, blanks_cons, blanks_cons, hopens]
      split
      · rename_i hblank
        rw [if_pos hblank] at hwithin
        rw [ih (Nat.le_of_succ_le_succ hwithin)]
      · rfl

theorem cut_seesAhead (first : UInt8) : SeesAhead (cut first) := by
  have hconst (lexeme : Lexeme) : SeesAhead fun _ => lexeme := fun _ _ _ _ _ _ => rfl
  have hcut (rest : Bytes) : cut first rest =
      if first == byte '\n' then clean .newline 0
      else if first == byte '\r' then clean .newline 1
      else if Byte.isNameStart first then word first rest
      else if Byte.isDigit first then number first rest
      else if first == byte '"' then stringBody 1 [] rest
      else if first == byte '$' then register rest
      else if first == byte '\\' then backslash rest
      else if first == byte '/' then slash rest
      else mark first rest := rfl
  rw [show cut first = _ from funext hcut]
  split
  · exact hconst _
  split
  · exact hconst _
  split
  · exact word_seesAhead first
  split
  · exact number_seesAhead first
  split
  · exact selfContained_seesAhead fun rest => stringBody_selfContained
  split
  · exact register_seesAhead
  split
  · exact backslash_seesAhead
  split
  · exact slash_seesAhead
  · exact mark_seesAhead first

/-- A lexeme without flaws is cut off again before any text of which the same is seen. -/
theorem scan_seesAhead (first : UInt8) : SeesAhead (scan first) := by
  intro body behind other hahead hflaws hmore
  have hblanks : blanks (first :: body ++ behind) ≤ (first :: body).length →
      blanks (first :: body ++ other) = blanks (first :: body ++ behind) :=
    blanks_ahead hahead (first :: body)
  rw [scan_eq] at hflaws hmore
  rw [scan_eq, scan_eq]
  simp only [List.cons_append, List.length_cons] at hblanks
  split at hmore
  · rename_i hgap
    have hcount : blanks (first :: (body ++ behind)) - 1 = body.length := hmore
    rw [hblanks (by omega)]
    rw [if_pos hgap, if_pos hgap]
  · rename_i hgap
    have hnone : blanks (first :: (body ++ behind)) = 0 := by simpa using hgap
    rw [if_neg hgap] at hflaws
    rw [hblanks (by omega), if_neg hgap, if_neg hgap]
    exact cut_seesAhead first body behind other hahead hflaws hmore

end Lexeme

end NovelAsm
