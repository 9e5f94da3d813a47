import Mathlib
import NovelAsm.Proofs.Token.Lookahead
import NovelAsm.Proofs.Token.Places
import NovelAsm.Proofs.Token.Spelled

/-!
Other names in a text. In a text without flaws any identifiers and registers may be replaced by
others; the text that is put together from the tokens is cut into these again
(`Lexed.bares_retexted`). What stands behind a name ends it, whatever the name is, and what stands
in front of one sees no more of it than that it begins there.
-/

namespace NovelAsm

/-- Whether a text is a name of a kind: an identifier, or a register with its dollar sign. -/
def TokenKind.spells : TokenKind → Bytes → Bool
  | .identifier, text => isWord text && (Keyword.ofText? text).isNone
  | .register, dollar :: first :: more => dollar == byte '$' && (first :: more).all Byte.isNamePart
  | _, _ => false

theorem TokenKind.kind_of_spells {kind : TokenKind} {text : Bytes} (h : kind.spells text = true) :
    kind = .identifier ∨ kind = .register := by
  simp only [spells] at h
  split at h
  · exact .inl rfl
  · exact .inr rfl
  · cases h

namespace Lexeme

theorem scan_of_isNameStart {first : UInt8} (h : Byte.isNameStart first = true) (rest : Bytes) :
    scan first rest = word first rest := by
  obtain ⟨-, -, hreturn, hline⟩ := Lexed.isNameStart_ne h
  rw [scan_eq, Lexed.endsBlanks_word h, if_neg (by decide), cut, if_neg (by simpa using hline),
    if_neg (by simpa using hreturn), if_pos h]

theorem scan_dollar (rest : Bytes) : scan (byte '$') rest = register rest := rfl

/-- What is seen of a text that begins with a name of a kind. -/
def aheadOf (kind : TokenKind) : Bytes :=
  if kind == .identifier then [byte 'a'] else [byte '$']

/-- Behind a name stands no name character. -/
theorem ended_of_takeWhile {rest : Bytes} {more : Nat}
    (hmore : more = (rest.takeWhile Byte.isNamePart).length) :
    ∀ b ∈ (rest.drop more).head?, Byte.isNamePart b = false := by
  intro b hb
  have hdrop : rest.drop more = rest.dropWhile Byte.isNamePart := by
    subst hmore
    have hsplit := @List.takeWhile_append_dropWhile _ Byte.isNamePart rest
    generalize rest.takeWhile Byte.isNamePart = run at hsplit ⊢
    rw [← hsplit, List.drop_left, hsplit]
  rw [hdrop] at hb
  have hhead := List.head?_dropWhile_not Byte.isNamePart rest
  rw [hb] at hhead
  simpa using hhead

/-- A name in a text without flaws. -/
theorem scan_name {first : UInt8} {rest : Bytes} (hclean : (scan first rest).flaws = [])
    (hname : (scan first rest).kind = .identifier ∨ (scan first rest).kind = .register) :
    (∀ b ∈ (rest.drop (scan first rest).more).head?, Byte.isNamePart b = false) ∧
      ahead (first :: rest) = aheadOf (scan first rest).kind := by
  rcases hname with hkind | hkind
  · have hstart := isNameStart_of_kind hkind
    rw [hkind, scan_of_isNameStart hstart, ahead, if_pos hstart, letter, if_pos hstart]
    refine ⟨ended_of_takeWhile ?_, rfl⟩
    simp only [word]
    split <;> rfl
  · obtain rfl := dollar_of_kind hkind
    rw [hkind, scan_dollar]
    refine ⟨ended_of_takeWhile ?_, rfl⟩
    rw [scan_dollar] at hclean
    simp only [register] at hclean ⊢
    split
    · rename_i hnone
      rw [hnone] at hclean
      cases hclean
    · rfl

/-- A name is cut off any text behind which no name character stands. -/
theorem scan_spelled {kind : TokenKind} {text behind : Bytes} (h : kind.spells text = true)
    (hbehind : ∀ b ∈ behind.head?, Byte.isNamePart b = false) :
    ∃ first more, text = first :: more ∧ scan first (more ++ behind) = clean kind more.length ∧
      ahead (text ++ behind) = aheadOf kind := by
  cases text with
  | nil => cases kind <;> exact absurd h Bool.false_ne_true
  | cons first more =>
  refine ⟨first, more, rfl, ?_⟩
  by_cases hidentifier : kind = .identifier
  · subst hidentifier
    obtain ⟨hword, hkeyword⟩ := (Bool.and_eq_true _ _).mp h
    obtain ⟨hstart, hmore⟩ := (Bool.and_eq_true _ _).mp hword
    have hrun := Lexed.takeWhile_eq_self (List.all_eq_true.mp hmore) hbehind
    refine ⟨?_, ?_⟩
    · simp only [scan_of_isNameStart hstart, word, hrun, Option.isNone_iff_eq_none.mp hkeyword]
    · simp only [List.cons_append, ahead, if_pos hstart, letter]
      rfl
  by_cases hregister : kind = .register
  · subst hregister
    cases more with
    | nil => exact absurd h Bool.false_ne_true
    | cons second more =>
    obtain ⟨hdollar, hmore⟩ := (Bool.and_eq_true _ _).mp h
    obtain rfl := beq_iff_eq.mp hdollar
    have hrun := Lexed.takeWhile_eq_self (List.all_eq_true.mp hmore) hbehind
    refine ⟨?_, rfl⟩
    rw [scan_dollar, register, run, hrun]
    rfl
  · cases kind <;> first
      | exact absurd rfl hidentifier
      | exact absurd rfl hregister
      | exact absurd h Bool.false_ne_true

/-- The names of a kind are the lexemes that are spelled like one. -/
theorem spells_iff {kind : TokenKind} (hkind : kind = .identifier ∨ kind = .register)
    (first : UInt8)
    (rest : Bytes) : kind.spells (first :: rest.take (scan first rest).more) = true ↔
      (scan first rest).kind = kind := by
  rcases hkind with rfl | rfl
  · cases hstart : Byte.isNameStart first with
    | false =>
        have hother : (scan first rest).kind ≠ .identifier := fun hkind =>
          Bool.false_ne_true (hstart.symm.trans (isNameStart_of_kind hkind))
        simp [TokenKind.spells, isWord, hstart, hother]
    | true =>
        have hall := List.all_takeWhile (p := Byte.isNamePart) (l := rest)
        rw [scan_of_isNameStart hstart]
        simp only [word]
        split
        · rename_i hkeyword
          rw [List.prefix_iff_eq_take.mp (List.takeWhile_prefix _)] at hkeyword
          simp [TokenKind.spells, clean, hkeyword]
        · rename_i hkeyword
          rw [List.prefix_iff_eq_take.mp (List.takeWhile_prefix _)] at hkeyword hall
          simp [TokenKind.spells, isWord, clean, hkeyword, hstart, hall]
  · by_cases hdollar : first = byte '$'
    · subst hdollar
      have hall := List.all_takeWhile (p := Byte.isNamePart) (l := rest)
      rw [scan_dollar, register, run]
      split
      · simp [TokenKind.spells, flawed]
      · rename_i hmore
        rw [List.prefix_iff_eq_take.mp (List.takeWhile_prefix Byte.isNamePart)] at hall
        cases htext : rest.take (rest.takeWhile Byte.isNamePart).length with
        | nil =>
            rw [← List.prefix_iff_eq_take.mp (List.takeWhile_prefix _)] at htext
            exact absurd (congrArg List.length htext) hmore
        | cons second more =>
            rw [htext] at hall
            simpa [TokenKind.spells, clean, htext] using hall
    · have hother : (scan first rest).kind ≠ .register := fun hkind =>
        hdollar (dollar_of_kind hkind)
      cases rest.take (scan first rest).more <;> simp [TokenKind.spells, hdollar, hother]

end Lexeme

/-- A token with another name, or as it was. -/
def Token.Retexted (token other : Token) : Prop :=
  other = token ∨ token.kind.spells other.text = true ∧ other = { token with text := other.text }

namespace Lexed

open Lexeme

theorem spells_iff {kind : TokenKind} (hkind : kind = .identifier ∨ kind = .register) {skip : Nat}
    {place : Location} {text : Bytes} {token : Token} (h : token ∈ (walk skip place text).tokens) :
    kind.spells token.text = true ↔ token.kind = kind := by
  induction text generalizing skip place with
  | nil => cases h
  | cons first rest ih =>
      cases skip with
      | succ skip => exact ih h
      | zero =>
          rw [walk_cons_zero] at h
          rcases List.mem_cons.mp h with rfl | h
          · exact Lexeme.spells_iff hkind first rest
          · exact ih h

/-- A text is the lexeme it begins with and what is left behind it. -/
theorem bares_cons (first : UInt8) (rest : Bytes) : bares 0 (first :: rest) =
    ⟨(scan first rest).kind, first :: rest.take (scan first rest).more, .origin⟩ ::
      bares 0 (rest.drop (scan first rest).more) := by
  rw [← bares_drop]
  rfl

/-- No name goes on into a text that looks like one into which it does not go on. -/
theorem ended_of_ahead {behind after : Bytes} (h : ahead behind = ahead after)
    (hended : ∀ b ∈ after.head?, Byte.isNamePart b = false) :
    ∀ b ∈ behind.head?, Byte.isNamePart b = false := by
  have hany := any_head? h blind_namePart
  intro b hb
  rw [Option.mem_def.mp hb, Option.any_some] at hany
  cases hafter : after.head? with
  | none =>
      rw [hafter] at hany
      exact hany
  | some c =>
      rw [hafter, Option.any_some, hended c hafter] at hany
      exact hany

theorem ahead_append {behind after : Bytes} (h : ahead behind = ahead after) (first : UInt8)
    (body : Bytes) : ahead (first :: body ++ behind) = ahead (first :: body ++ after) := by
  simp only [List.cons_append, ahead]
  cases body with
  | nil => simp only [List.nil_append, head?_letter h]
  | cons b body => rfl

/-- A lexeme without flaws is cut off again in front of a text that looks like the one behind it. -/
theorem scan_kept {first : UInt8} {rest behind : Bytes} (hclean : (scan first rest).flaws = [])
    (hahead : ahead behind = ahead (rest.drop (scan first rest).more)) :
    scan first (rest.take (scan first rest).more ++ behind) =
        clean (scan first rest).kind (rest.take (scan first rest).more).length ∧
      ahead (first :: rest.take (scan first rest).more ++ behind) = ahead (first :: rest) := by
  have hsplit := List.take_append_drop (scan first rest).more rest
  have hlength : (rest.take (scan first rest).more).length = (scan first rest).more :=
    List.length_take_of_le (scan_within first rest).more
  generalize rest.take (scan first rest).more = body at hsplit hlength ⊢
  generalize rest.drop (scan first rest).more = after at hsplit hahead
  subst hsplit
  refine ⟨?_, ahead_append hahead first body⟩
  rw [scan_seesAhead first body after behind hahead.symm hclean hlength.symm, hlength, clean,
    ← hclean]

/-- In a text without flaws a name is cut off in the place of one of its kind. -/
theorem scan_replaced {first : UInt8} {rest behind text : Bytes}
    (hclean : (scan first rest).flaws = [])
    (hahead : ahead behind = ahead (rest.drop (scan first rest).more))
    (hspells : (scan first rest).kind.spells text = true) :
    ∃ start more, text = start :: more ∧
      scan start (more ++ behind) = clean (scan first rest).kind more.length ∧
      ahead (text ++ behind) = ahead (first :: rest) := by
  obtain ⟨hended, hseen⟩ := scan_name hclean (TokenKind.kind_of_spells hspells)
  obtain ⟨start, more, htext, hscan, hstart⟩ := scan_spelled hspells (ended_of_ahead hahead hended)
  exact ⟨start, more, htext, hscan, hstart.trans hseen.symm⟩

/-- A text with other names is cut into the tokens with these names, and what is seen of it is
the same. -/
theorem bares_retexted {source : Bytes} (h : Flawless 0 source) {others : List Token}
    (hothers : List.Forall₂ Token.Retexted (bares 0 source) others) :
    bares 0 (others.flatMap Token.text) = others ∧ Flawless 0 (others.flatMap Token.text) ∧
      ahead (others.flatMap Token.text) = ahead source := by
  induction hlength : source.length using Nat.strongRecOn generalizing source others with
  | ind length ih =>
  subst hlength
  cases source with
  | nil =>
      cases hothers
      exact ⟨rfl, trivial, rfl⟩
  | cons first rest =>
      obtain ⟨hclean, hrest⟩ := h
      rw [flawless_drop] at hrest
      rw [bares_cons] at hothers
      cases hothers with
      | @cons _ other _ others hother hothers =>
      obtain ⟨hbares, hflawless, hahead⟩ := ih _ (by simp) hrest hothers rfl
      rw [List.flatMap_cons]
      generalize others.flatMap Token.text = behind at hbares hflawless hahead ⊢
      rcases hother with rfl | ⟨hspells, hother⟩
      · obtain ⟨hscan, hseen⟩ := scan_kept hclean hahead
        obtain ⟨hcut, hwhole⟩ := bares_of_scan hscan
        exact ⟨hcut.trans (by rw [hbares]), hwhole.mpr hflawless, hseen⟩
      · obtain ⟨kind, text, span⟩ := other
        injection hother with hkind _ hspan
        subst hkind hspan
        obtain ⟨start, more, rfl, hscan, hseen⟩ := scan_replaced hclean hahead hspells
        obtain ⟨hcut, hwhole⟩ := bares_of_scan hscan
        exact ⟨hcut.trans (by rw [hbares]), hwhole.mpr hflawless, hseen⟩

end Lexed

end NovelAsm
