import NovelAsm.Proofs.Disassembly.Reading

/-!
Printed texts are told apart. Names, numbers and registers are words, which end where the next
blank, comma or bracket stands, so of two texts that begin alike behind the same mnemonic each
operand can be read off in turn. `Told` says this of one kind of text; it is handed on from words
to lists of them, and to the operands of an instruction.
-/

namespace NovelAsm

open Lexed

/-- A byte of a word: of a name, a number or a register. -/
def isWordByte (b : UInt8) : Bool := Byte.isNamePart b || b == byte '-' || b == byte '$'

/-- A text that goes on behind a word. -/
def Breaks (text : Bytes) : Prop := Heads (fun b => !isWordByte b) text

theorem breaks_cons {first : UInt8} (h : isWordByte first = false) (rest : Bytes) :
    Breaks (first :: rest) := heads_cons (by rw [h]; rfl) rest

/-- A word is cut off at the first byte that is none of a word. -/
theorem takeWhile_word {word rest : Bytes} (hword : ∀ b ∈ word, isWordByte b = true)
    (hrest : Breaks rest) : (word ++ rest).takeWhile isWordByte = word := by
  obtain ⟨first, more, rfl, hfirst⟩ := hrest
  rw [List.takeWhile_append_of_pos hword, List.takeWhile_cons_of_neg (by simpa using hfirst),
    List.append_nil]

/-- Texts that can be told apart at their beginnings, before anything that does not go on with
them. -/
structure Told {α : Type} (P : α → Prop) (shown : α → Bytes) : Prop where
  heads : ∀ x, P x → Heads isWordByte (shown x)
  told : ∀ x y rest others, P x → P y → Breaks rest → Breaks others →
    shown x ++ rest = shown y ++ others → x = y

namespace Told

variable {α : Type} {P : α → Prop} {shown : α → Bytes} {rest others : Bytes}

/-- Different words are told apart. -/
theorem of_words (hne : ∀ x, P x → shown x ≠ [])
    (hword : ∀ x, P x → ∀ b ∈ shown x, isWordByte b = true)
    (hinj : ∀ x y, P x → P y → shown x = shown y → x = y) : Told P shown where
  heads x hx := by
    obtain ⟨first, more, hshown⟩ := List.exists_cons_of_ne_nil (hne x hx)
    exact ⟨first, more, hshown, hword x hx first (hshown ▸ List.mem_cons_self ..)⟩
  told x y rest others hx hy hrest hothers h := by
    apply hinj x y hx hy
    rw [← takeWhile_word (hword x hx) hrest, h, takeWhile_word (hword y hy) hothers]

/-- What is behind a text that was told is the same as well. -/
theorem rest_eq (h : Told P shown) {x y : α} (hx : P x) (hy : P y) (hrest : Breaks rest)
    (hothers : Breaks others) (heq : shown x ++ rest = shown y ++ others) :
    x = y ∧ rest = others := by
  obtain rfl := h.told x y rest others hx hy hrest hothers heq
  exact ⟨rfl, List.append_cancel_left heq⟩

end Told

/-- The elements of a list behind its first one. -/
def behindCommas (texts : List Bytes) : Bytes := texts.flatMap (ascii ", " ++ ·)

theorem commaJoin_eq (first : Bytes) (rest : List Bytes) :
    commaJoin (first :: rest) = first ++ behindCommas rest := by
  induction rest generalizing first with
  | nil => exact (List.append_nil first).symm
  | cons second rest ih =>
      rw [commaJoin_cons first (List.cons_ne_nil _ _), ih, behindCommas, behindCommas,
        List.flatMap_cons, List.append_assoc, List.append_assoc]

/-- A text that ends a list: it goes on neither with a word nor with a comma. -/
def Closes (text : Bytes) : Prop := Heads (fun b => !isWordByte b && b != byte ',') text

theorem Closes.breaks {text : Bytes} (h : Closes text) : Breaks text :=
  h.mono fun _ hb => (Bool.and_eq_true_iff.mp hb).1

theorem closes_cons {first : UInt8} (h : (!isWordByte first && first != byte ',') = true)
    (rest : Bytes) : Closes (first :: rest) := heads_cons h rest

theorem behindCommas_append (texts others : List Bytes) :
    behindCommas (texts ++ others) = behindCommas texts ++ behindCommas others :=
  List.flatMap_append

theorem behindCommas_heads {test : UInt8 → Bool} (hcomma : test (byte ',') = true)
    (texts : List Bytes) {rest : Bytes} (h : Heads test rest) :
    Heads test (behindCommas texts ++ rest) := by
  cases texts with
  | nil => exact h
  | cons first more => exact heads_cons hcomma _

theorem behindCommas_breaks (texts : List Bytes) {rest : Bytes} (h : Breaks rest) :
    Breaks (behindCommas texts ++ rest) := behindCommas_heads (by decide) texts h

theorem Closes.ne_comma {text : Bytes} (h : Closes text) (rest : Bytes) :
    text ≠ ascii ", " ++ rest := by
  rintro rfl
  obtain ⟨first, more, hcons, hfirst⟩ := h
  obtain ⟨rfl, -⟩ := List.cons.inj hcons
  revert hfirst
  decide

namespace Told

variable {α : Type} {P : α → Prop} {shown : α → Bytes} {rest others : Bytes}

theorem behindCommas (h : Told P shown) {xs ys : List α} (hxs : ∀ x ∈ xs, P x)
    (hys : ∀ y ∈ ys, P y) (hrest : Closes rest) (hothers : Closes others)
    (heq : NovelAsm.behindCommas (xs.map shown) ++ rest =
      NovelAsm.behindCommas (ys.map shown) ++ others) : xs = ys ∧ rest = others := by
  induction xs generalizing ys with
  | nil =>
      cases ys with
      | nil => exact ⟨rfl, heq⟩
      | cons y ys =>
          rw [List.map_cons, NovelAsm.behindCommas, NovelAsm.behindCommas, List.flatMap_cons,
            List.append_assoc, List.append_assoc] at heq
          exact absurd heq (hrest.ne_comma _)
  | cons x xs ih =>
      obtain ⟨hx, hxs⟩ := List.forall_mem_cons.mp hxs
      cases ys with
      | nil =>
          rw [List.map_cons, NovelAsm.behindCommas, NovelAsm.behindCommas, List.flatMap_cons,
            List.append_assoc, List.append_assoc] at heq
          exact absurd heq.symm (hothers.ne_comma _)
      | cons y ys =>
          obtain ⟨hy, hrestYs⟩ := List.forall_mem_cons.mp hys
          simp only [List.map_cons, NovelAsm.behindCommas, List.flatMap_cons,
            List.append_assoc] at heq
          obtain ⟨rfl, hbehind⟩ := h.rest_eq hx hy (behindCommas_breaks _ hrest.breaks)
            (behindCommas_breaks _ hothers.breaks) (List.append_cancel_left heq)
          obtain ⟨rfl, hall⟩ := ih hxs hrestYs hbehind
          exact ⟨rfl, hall⟩

/-- Lists of texts that are told apart are told apart at their ends. -/
theorem commaJoin (h : Told P shown) {xs ys : List α} (hxs : ∀ x ∈ xs, P x)
    (hys : ∀ y ∈ ys, P y) (hrest : Closes rest) (hothers : Closes others)
    (heq : NovelAsm.commaJoin (xs.map shown) ++ rest =
      NovelAsm.commaJoin (ys.map shown) ++ others) : xs = ys ∧ rest = others := by
  have hword {text : Bytes} (htext : Closes text) {x : α} (hx : P x) (more : Bytes) :
      text ≠ shown x ++ more := by
    rintro rfl
    obtain ⟨first, behind, hcons, hfirst⟩ := (h.heads x hx).append more
    obtain ⟨other, tail, hother, hbreaks⟩ := htext.breaks
    rw [hcons] at hother
    obtain ⟨rfl, -⟩ := List.cons.inj hother
    simp [hfirst] at hbreaks
  cases xs with
  | nil =>
      cases ys with
      | nil => exact ⟨rfl, heq⟩
      | cons y ys =>
          rw [List.map_cons, commaJoin_eq, List.append_assoc] at heq
          exact absurd heq (hword hrest (hys y (List.mem_cons_self ..)) _)
  | cons x xs =>
      obtain ⟨hx, hxs⟩ := List.forall_mem_cons.mp hxs
      cases ys with
      | nil =>
          rw [List.map_cons, commaJoin_eq, List.append_assoc] at heq
          exact absurd heq.symm (hword hothers hx _)
      | cons y ys =>
          obtain ⟨hy, hrestYs⟩ := List.forall_mem_cons.mp hys
          simp only [List.map_cons, commaJoin_eq, List.append_assoc] at heq
          obtain ⟨rfl, hbehind⟩ := h.rest_eq hx hy (behindCommas_breaks _ hrest.breaks)
            (behindCommas_breaks _ hothers.breaks) heq
          obtain ⟨rfl, hall⟩ := h.behindCommas hxs hrestYs hrest hothers hbehind
          exact ⟨rfl, hall⟩

end Told


theorem wordByte_of_namePart {b : UInt8} (h : Byte.isNamePart b = true) : isWordByte b = true := by
  rw [isWordByte, h]
  rfl

theorem decimal_inj {n m : Nat} (h : decimal n = decimal m) : n = m := by
  rw [← digitsValue_decimal n, h, digitsValue_decimal]

theorem decimal_word (n : Nat) : ∀ b ∈ decimal n, isWordByte b = true := fun b hb =>
  wordByte_of_namePart (Byte.isNamePart_of_isDigit (isDigit_of_mem_decimal b hb))

theorem told_decimal : Told (fun _ => True) decimal :=
  .of_words (fun n _ => decimal_ne_nil n) (fun n _ => decimal_word n) fun _ _ _ _ => decimal_inj

/-- A number without a sign begins with a digit. -/
theorem decimal_ne_cons {first : UInt8} (h : Byte.isDigit first = false) (n : Nat) (rest : Bytes) :
    decimal n ≠ first :: rest := by
  intro hdecimal
  have hdigit := @isDigit_of_mem_decimal n first (hdecimal ▸ List.mem_cons_self ..)
  rw [h] at hdigit
  cases hdigit

theorem signedDecimal_inj {a b : Int} (h : signedDecimal a = signedDecimal b) : a = b := by
  cases a with
  | ofNat n =>
      cases b with
      | ofNat m => exact congrArg Int.ofNat (decimal_inj h)
      | negSucc m => exact absurd h (decimal_ne_cons (by decide) n _)
  | negSucc n =>
      cases b with
      | ofNat m => exact absurd h.symm (decimal_ne_cons (by decide) m _)
      | negSucc m =>
          have hnumber := decimal_inj (List.cons.inj h).2
          rw [Nat.succ.inj hnumber]

theorem signedDecimal_word (value : Int) : ∀ b ∈ signedDecimal value, isWordByte b = true := by
  cases value with
  | ofNat n => exact decimal_word n
  | negSucc n => exact List.forall_mem_cons.mpr ⟨by decide, decimal_word (n + 1)⟩

theorem signedDecimal_ne_nil (value : Int) : signedDecimal value ≠ [] := by
  cases value with
  | ofNat n => exact decimal_ne_nil n
  | negSucc n => exact List.cons_ne_nil _ _

theorem told_signedDecimal : Told (fun _ => True) signedDecimal :=
  .of_words (fun value _ => signedDecimal_ne_nil value) (fun value _ => signedDecimal_word value)
    fun _ _ _ _ => signedDecimal_inj

theorem Register.name_inj {source other : Register} (h : source.name = other.name) :
    source = other := by
  have hparsed := congrArg Register.parse? h
  rw [Register.parse?_name, Register.parse?_name] at hparsed
  exact Option.some.inj hparsed

theorem Register.name_word (source : Register) : ∀ b ∈ source.name, isWordByte b = true := by
  have hletters (letters : Bytes) (hall : letters.all isWordByte = true) (n : Nat) :
      ∀ b ∈ letters ++ decimal n, isWordByte b = true :=
    List.forall_mem_append.mpr ⟨List.all_eq_true.mp hall, decimal_word n⟩
  cases source with
  | value index => exact hletters (ascii "$v") rfl index.val
  | argument index => exact hletters (ascii "$a") rfl index.val

theorem Register.exists_name (source : Register) : ∃ rest, source.name = byte '$' :: rest := by
  cases source <;> exact ⟨_, rfl⟩

theorem told_register : Told (fun _ => True) Register.name := by
  refine .of_words (fun source _ => ?_) (fun source _ => source.name_word) fun _ _ _ _ =>
    Register.name_inj
  obtain ⟨rest, hname⟩ := source.exists_name
  rw [hname]
  exact List.cons_ne_nil _ _

theorem Number.text_inj {value other : Number} (h : value.text = other.text) : value = other := by
  have hsign (number : Int32) (source : Register) :
      signedDecimal number.toInt ≠ source.name := by
    obtain ⟨rest, hname⟩ := source.exists_name
    rw [hname]
    intro hsame
    cases hnumber : number.toInt with
    | ofNat n =>
        rw [hnumber] at hsame
        exact decimal_ne_cons (by decide) n _ hsame
    | negSucc n =>
        rw [hnumber] at hsame
        have hfirst := (List.cons.inj hsame).1
        revert hfirst
        decide
  cases value with
  | constant value =>
      cases other with
      | constant other => exact congrArg _ (Int32.toInt_inj.mp (signedDecimal_inj h))
      | register source => exact absurd h (hsign value source)
  | register source =>
      cases other with
      | constant other => exact absurd h.symm (hsign other source)
      | register other => exact congrArg _ (Register.name_inj h)

theorem told_number : Told (fun _ => True) Number.text := by
  refine .of_words (fun value _ => ?_) (fun value _ => ?_) fun _ _ _ _ => Number.text_inj
  · cases value with
    | constant value => exact signedDecimal_ne_nil value.toInt
    | register source =>
        obtain ⟨first, more, hname, -⟩ := told_register.heads source trivial
        exact fun h => List.cons_ne_nil first more (hname.symm.trans h)
  · cases value with
    | constant value => exact signedDecimal_word value.toInt
    | register source => exact source.name_word

theorem hex_word (width n : Nat) : ∀ b ∈ ascii "0x" ++ hex width n, isWordByte b = true := by
  have hfront : (ascii "0x").all isWordByte = true := rfl
  exact List.forall_mem_append.mpr
    ⟨List.all_eq_true.mp hfront, fun b hb =>
      wordByte_of_namePart (Byte.isNamePart_of_isHexDigit (isHexDigit_of_mem_hex b hb))⟩

theorem told_hexByte : Told (fun _ => True) hexByte := by
  refine .of_words (fun value _ => List.cons_ne_nil _ _) (fun value _ => hex_word 2 _) ?_
  intro value other _ _ h
  exact UInt8.toNat_inj.mp (hex_inj (List.append_cancel_left h))

/-- Whether a text is a name as texts spell it, with a dollar sign in front or without. -/
def isName : Bytes → Bool
  | [] => false
  | first :: more => (Byte.isNameStart first || first == byte '$') && more.all Byte.isNamePart

/-- A name is a word that begins with no digit. -/
theorem exists_of_isName {name : Bytes} (h : isName name = true) :
    ∃ first more, name = first :: more ∧ Byte.isDigit first = false ∧
      ∀ b ∈ name, isWordByte b = true := by
  cases name with
  | nil => cases h
  | cons first more =>
      rw [isName, Bool.and_eq_true, List.all_eq_true, Bool.or_eq_true, beq_iff_eq] at h
      obtain ⟨hdigit, hfirst⟩ : Byte.isDigit first = false ∧ isWordByte first = true := by
        rcases h.1 with hstart | rfl
        · exact ⟨Byte.isDigit_of_isNameStart hstart,
            wordByte_of_namePart (Byte.isNamePart_iff.mpr (.inl hstart))⟩
        · exact ⟨by decide, by decide⟩
      exact ⟨first, more, rfl, hdigit,
        List.forall_mem_cons.mpr ⟨hfirst, fun b hb => wordByte_of_namePart (h.2 b hb)⟩⟩

theorem isName_of_isWord {name : Bytes} (h : isWord name = true) : isName name = true := by
  cases name with
  | nil => cases h
  | cons first more =>
      rw [isWord, Bool.and_eq_true] at h
      rw [isName, h.1, h.2]
      rfl

/-- A place whose name, if it has one, is spelled as such. -/
def Place.IsSpelled (place : Place) : Prop := ∀ name, place = .symbol name → isName name = true

/-- Names and addresses are told apart: an address begins with a digit. -/
theorem told_place : Told Place.IsSpelled Place.text := by
  have haddress {name : Bytes} (hname : isName name = true) (value : UInt32) :
      name ≠ ascii "0x" ++ hex 0 value.toNat := by
    rintro rfl
    obtain ⟨first, more, hcons, hdigit, -⟩ := exists_of_isName hname
    obtain ⟨rfl, -⟩ := List.cons.inj hcons
    revert hdigit
    decide
  refine .of_words (fun place hplace => ?_) (fun place hplace => ?_) ?_
  · cases place with
    | symbol name =>
        obtain ⟨first, more, hname, -⟩ := exists_of_isName (hplace name rfl)
        exact fun h => List.cons_ne_nil first more (hname.symm.trans h)
    | address value => exact List.cons_ne_nil _ _
  · cases place with
    | symbol name =>
        obtain ⟨-, -, -, -, hword⟩ := exists_of_isName (hplace name rfl)
        exact hword
    | address value => exact hex_word 0 value.toNat
  · intro place other hplace hother h
    cases place with
    | symbol name =>
        cases other with
        | symbol twin => exact congrArg Place.symbol h
        | address value => exact absurd h (haddress (hplace name rfl) value)
    | address value =>
        cases other with
        | symbol twin => exact absurd h.symm (haddress (hother twin rfl) value)
        | address twin =>
            exact congrArg Place.address (UInt32.toNat_inj.mp (hex_inj (List.append_cancel_left h)))

theorem told_case : Told
    (fun entry : Int × Place => entry.2.IsSpelled) PrintedOperand.caseText where
  heads entry _ := by
    rw [PrintedOperand.caseText, List.append_assoc]
    exact (told_signedDecimal.heads entry.1 trivial).append _
  told entry other rest others hentry hother hrest hothers h := by
    have harrow (text : Bytes) : Breaks (ascii " => " ++ text) := breaks_cons (by decide) _
    simp only [PrintedOperand.caseText, List.append_assoc] at h
    obtain ⟨hkey, hbehind⟩ := told_signedDecimal.rest_eq trivial trivial (harrow _) (harrow _) h
    have hplace := told_place.told entry.2 other.2 rest others hentry hother hrest hothers
      (List.append_cancel_left hbehind)
    exact Prod.ext hkey hplace

/-- A byte as it is written between quotes. -/
def escaped (b : UInt8) : Bytes :=
  if Literal.needsEscape b then [Literal.escapeMark, b] else [b]

theorem escaped_told {a b : UInt8} {rest others : Bytes}
    (h : escaped a ++ rest = escaped b ++ others) : a = b ∧ rest = others := by
  have hmark : Literal.needsEscape Literal.escapeMark = true := rfl
  simp only [escaped] at h
  split at h <;> split at h
  · obtain ⟨rfl, hrest⟩ := List.cons.inj (List.cons.inj h).2
    exact ⟨rfl, hrest⟩
  · rename_i hb
    obtain rfl := (List.cons.inj h).1
    exact absurd hmark hb
  · rename_i ha _
    obtain rfl := (List.cons.inj h).1
    exact absurd hmark ha
  · exact List.cons.inj h

theorem escaped_ne_quote (b : UInt8) (rest others : Bytes) :
    escaped b ++ rest ≠ Literal.quoteMark :: others := by
  have hmark : Literal.needsEscape Literal.quoteMark = true := rfl
  intro h
  simp only [escaped] at h
  split at h
  · have hfirst := (List.cons.inj h).1
    revert hfirst
    decide
  · rename_i hb
    obtain rfl := (List.cons.inj h).1
    exact absurd hmark hb

/-- A text in quotes ends at its last quote. -/
theorem quote_told {text other rest others : Bytes}
    (h : Literal.quote text ++ rest = Literal.quote other ++ others) : text = other := by
  have hbehind : text.flatMap escaped ++ Literal.quoteMark :: rest =
      other.flatMap escaped ++ Literal.quoteMark :: others := by
    simp only [Literal.quote, List.cons_append, List.append_assoc, List.nil_append] at h
    exact (List.cons.inj h).2
  clear h
  induction text generalizing other with
  | nil =>
      cases other with
      | nil => rfl
      | cons b more =>
          rw [List.flatMap_cons, List.append_assoc] at hbehind
          exact absurd hbehind.symm (escaped_ne_quote b _ _)
  | cons a text ih =>
      rw [List.flatMap_cons, List.append_assoc] at hbehind
      cases other with
      | nil => exact absurd hbehind (escaped_ne_quote a _ _)
      | cons b more =>
          rw [List.flatMap_cons, List.append_assoc] at hbehind
          obtain ⟨rfl, hrest⟩ := escaped_told hbehind
          rw [ih hrest]

end NovelAsm
