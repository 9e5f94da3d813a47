import NovelAsm.Instruction.Printer
import NovelAsm.Proofs.Literals
import NovelAsm.Proofs.Token.Beginnings

/-!
The tokens of printed texts. What a printer writes is cut again where it was put together: the
printer leaves a blank, a comma or a bracket behind each name and number, and nothing that a
blank or an operator could run on into. `Cuts` says this of a text for what may follow it, and
is closed under putting texts behind one another.
-/

namespace NovelAsm

namespace Lexed

open Lexeme

/-- A text whose first byte passes a test. -/
def Heads (test : UInt8 → Bool) (text : Bytes) : Prop :=
  ∃ first rest, text = first :: rest ∧ test first = true

theorem Heads.append {test : UInt8 → Bool} {text : Bytes} (h : Heads test text) (more : Bytes) :
    Heads test (text ++ more) := by
  obtain ⟨first, rest, rfl, hfirst⟩ := h
  exact ⟨first, rest ++ more, rfl, hfirst⟩

theorem Heads.mono {test other : UInt8 → Bool} {text : Bytes} (h : Heads test text)
    (hle : ∀ b, test b = true → other b = true) : Heads other text := by
  obtain ⟨first, rest, rfl, hfirst⟩ := h
  exact ⟨first, rest, rfl, hle first hfirst⟩

/-- The bytes that end the name or number before them. -/
def stops : List UInt8 := [byte ' ', byte ',', byte '(', byte ')', byte ']', byte '\n']

def isStop (b : UInt8) : Bool := stops.contains b

/-- A byte that blanks do not run on into. -/
def isInk (b : UInt8) : Bool := !([byte ' ', byte '\t', byte '\r'].contains b)

/-- A byte that neither blanks nor an exclamation mark run on into. -/
def isSolid (b : UInt8) : Bool := isInk b && b != byte '='

theorem ink_of_solid {b : UInt8} (h : isSolid b = true) : isInk b = true := by
  simp only [isSolid, Bool.and_eq_true] at h
  exact h.1

theorem stop_ends (b : UInt8) (h : isStop b = true) :
    Byte.isNamePart b = false ∧ isDigitOrSeparator b = false ∧ isHexDigitOrSeparator b = false ∧
      isBaseLetter b = false ∧ b ≠ byte '.' ∧ b ≠ byte 'e' ∧ b ≠ byte 'E' := by
  have hall : ∀ b ∈ stops, Byte.isNamePart b = false ∧ isDigitOrSeparator b = false ∧
      isHexDigitOrSeparator b = false ∧ isBaseLetter b = false ∧
      b ≠ byte '.' ∧ b ≠ byte 'e' ∧ b ≠ byte 'E' := by
    simp only [stops, List.forall_mem_cons]
    exact ⟨by decide, by decide, by decide, by decide, by decide, by decide, List.forall_mem_nil _⟩
  exact hall b (List.contains_iff_mem.mp h)

theorem ink_endsBlanks {text : Bytes} (h : Heads isInk text) : EndsBlanks text := by
  obtain ⟨first, rest, rfl, hfirst⟩ := h
  have hne : first ≠ byte ' ' ∧ first ≠ byte '\t' ∧ first ≠ byte '\r' := by
    refine ⟨?_, ?_, ?_⟩ <;> rintro rfl <;> exact absurd hfirst (by decide)
  exact endsBlanks_cons hne.1 hne.2.1 hne.2.2 rest

/-- The tokens of a text, before anything whose first byte passes a test. -/
def Cuts (next : UInt8 → Bool) (text : Bytes) (tokens : List Token) : Prop :=
  ∀ behind, Heads next behind →
    tokensOf (text ++ behind) = tokens ++ tokensOf behind ∧
      (Flawless 0 (text ++ behind) ↔ Flawless 0 behind)

theorem Cuts.append {next last : UInt8 → Bool} {text more : Bytes} {tokens others : List Token}
    (h : Cuts next text tokens) (hmore : Cuts last more others) (hheads : Heads next more) :
    Cuts last (text ++ more) (tokens ++ others) := by
  intro behind hbehind
  obtain ⟨htokens, hflaws⟩ := h (more ++ behind) (hheads.append behind)
  obtain ⟨hothers, hrest⟩ := hmore behind hbehind
  rw [List.append_assoc, List.append_assoc, htokens, hothers, hflaws, hrest]
  exact ⟨rfl, Iff.rfl⟩

theorem Cuts.mono {next last : UInt8 → Bool} {text : Bytes} {tokens : List Token}
    (h : Cuts next text tokens) (hle : ∀ b, last b = true → next b = true) :
    Cuts last text tokens := fun behind hbehind => h behind (hbehind.mono hle)

/-- A token of a text. -/
def leaf (kind : TokenKind) (text : Bytes) : Token := ⟨kind, text, .origin⟩

theorem cuts_of_scan {next : UInt8 → Bool} {first : UInt8} {rest : Bytes} {kind : TokenKind}
    (hkind : kind.isTrivia = false)
    (h : ∀ behind, Heads next behind → scan first (rest ++ behind) = clean kind rest.length) :
    Cuts next (first :: rest) [leaf kind (first :: rest)] := by
  intro behind hbehind
  have htokens := tokensOf_of_scan (h behind hbehind)
  rw [if_neg (by rw [hkind]; exact Bool.false_ne_true)] at htokens
  exact htokens

/-- A blank, which is no token. -/
theorem cuts_blank : Cuts isInk (ascii " ") [] := by
  intro behind hbehind
  have hgap : ∀ b ∈ [byte ' '], Segment.isGap b = true := by
    intro b hb
    obtain rfl := List.mem_singleton.mp hb
    rfl
  exact tokensOf_gaps hgap (ink_endsBlanks hbehind)

/-- A mark that is a token whatever follows. -/
theorem cuts_mark {text : Bytes} {kind : TokenKind} (hkind : kind.isTrivia = false)
    {first : UInt8} {rest : Bytes} (htext : text = first :: rest)
    (h : ∀ behind, scan first (rest ++ behind) = clean kind rest.length)
    (next : UInt8 → Bool) : Cuts next text [leaf kind text] := by
  subst htext
  exact cuts_of_scan hkind fun behind _ => h behind

theorem cuts_word {first : UInt8} {more : Bytes} (hfirst : Byte.isNameStart first = true)
    (hmore : ∀ b ∈ more, Byte.isNamePart b = true) :
    Cuts isStop (first :: more) [leaf (wordKind (first :: more)) (first :: more)] := by
  rintro _ ⟨stop, behind, rfl, hstop⟩
  have hends := (stop_ends stop hstop).1
  exact tokensOf_word hfirst hmore (by simpa using hends)

theorem run_append_stop {test : UInt8 → Bool} {text behind : Bytes} {stop : UInt8}
    (htext : ∀ b ∈ text, test b = true) (hstop : test stop = false) :
    run test (text ++ stop :: behind) = text.length := by
  rw [run, takeWhile_eq_self htext (by simpa using hstop)]

/-- A digit begins a number. -/
theorem scan_digit {first : UInt8} (h : Byte.isDigit first = true) (rest : Bytes) :
    scan first rest = number first rest := by
  have hne {c : UInt8} (hc : Byte.isDigit c = false) : first ≠ c := Byte.ne_of_test h hc
  have hspace : first ≠ byte ' ' := hne (by decide)
  have htab : first ≠ byte '\t' := hne (by decide)
  have hreturn : first ≠ byte '\r' := hne (by decide)
  have hline : first ≠ byte '\n' := hne (by decide)
  have hname := Byte.isNameStart_of_isDigit h
  rw [scan_eq, endsBlanks_cons hspace htab hreturn, if_neg (by decide), cut,
    if_neg (by simpa using hline), if_neg (by simpa using hreturn), if_neg (by simp [hname]),
    if_pos h]

theorem number_of_body {first : UInt8} {rest behind : Bytes} {stop : UInt8}
    (hstop : isStop stop = true)
    (h : numberBody first (rest ++ stop :: behind) = (rest.length, false)) :
    number first (rest ++ stop :: behind) = clean .integerLiteral rest.length := by
  have hend : run Byte.isNamePart (stop :: behind) = 0 := by
    rw [run_cons, if_neg (by simp [(stop_ends stop hstop).1])]
  simp only [number, h, List.drop_left, hend, Bool.false_eq_true, if_false]

/-- An integer in decimal is one token. -/
theorem cuts_digits {first : UInt8} {rest : Bytes} (hfirst : Byte.isDigit first = true)
    (hrest : ∀ b ∈ rest, Byte.isDigit b = true) :
    Cuts isStop (first :: rest) [leaf .integerLiteral (first :: rest)] := by
  refine cuts_of_scan rfl ?_
  rintro _ ⟨stop, behind, rfl, hstop⟩
  obtain ⟨-, hseparator, -, hletter, hpoint, he, hE⟩ := stop_ends stop hstop
  rw [scan_digit hfirst]
  apply number_of_body hstop
  have hbase : (first == byte '0' && (rest ++ stop :: behind).head?.any isBaseLetter) = false := by
    cases rest with
    | nil => simp [hletter]
    | cons b rest => simp [isBaseLetter_of_isDigit (hrest b (List.mem_cons_self ..))]
  have hwhole : run isDigitOrSeparator (rest ++ stop :: behind) = rest.length :=
    run_append_stop (fun b hb => by rw [isDigitOrSeparator, hrest b hb, Bool.true_or]) hseparator
  have hpart : fraction (stop :: behind) = 0 := by
    cases behind <;> simp [fraction, hpoint]
  have hpower : exponent (stop :: behind) = 0 := by simp [exponent, he, hE]
  rw [numberBody, hbase, if_neg Bool.false_ne_true]
  simp [hwhole, hpart, hpower]

/-- A number in hexadecimal is one token. -/
theorem cuts_hex {digits : Bytes} (hdigits : ∀ b ∈ digits, Byte.isHexDigit b = true) :
    Cuts isStop (ascii "0x" ++ digits) [leaf .integerLiteral (ascii "0x" ++ digits)] := by
  refine @cuts_of_scan _ _ (byte 'x' :: digits) _ rfl ?_
  rintro _ ⟨stop, behind, rfl, hstop⟩
  rw [scan_digit (by decide)]
  apply number_of_body hstop
  have hrun : run isHexDigitOrSeparator (digits ++ stop :: behind) = digits.length :=
    run_append_stop (fun b hb => by simp [isHexDigitOrSeparator, hdigits b hb])
      (stop_ends stop hstop).2.2.1
  have hletter : isBaseLetter (byte 'x') = true := by decide
  have hbase (more : Bytes) : numberBody (byte '0') (byte 'x' :: more) =
      (run isHexDigitOrSeparator more + 1, false) := by
    rw [numberBody, List.head?_cons, Option.any_some, hletter]
    rfl
  rw [List.cons_append]
  refine (hbase _).trans ?_
  rw [hrun]
  rfl

/-- The name of a register is one token. -/
theorem cuts_register {rest : Bytes} (hne : rest ≠ [])
    (hrest : ∀ b ∈ rest, Byte.isNamePart b = true) :
    Cuts isStop (byte '$' :: rest) [leaf .register (byte '$' :: rest)] := by
  refine cuts_of_scan rfl ?_
  rintro _ ⟨stop, behind, rfl, hstop⟩
  have hrun := @run_append_stop _ _ behind _ hrest (stop_ends stop hstop).1
  have hlength : rest.length ≠ 0 := fun h => hne (List.length_eq_zero_iff.mp h)
  have hscan (text : Bytes) : scan (byte '$') text = register text := rfl
  rw [hscan, register, hrun]
  split
  · rename_i hzero
    exact absurd hzero hlength
  · rfl

/-- A byte of a literal is passed over with its escape. -/
theorem stringBody_escape {b : UInt8} (hline : notLineEnd b = true) (seen : Nat) (behind : Bytes) :
    stringBody seen [] ((if Literal.needsEscape b then [Literal.escapeMark, b] else [b]) ++
      behind) =
      stringBody
        (seen + (if Literal.needsEscape b then [Literal.escapeMark, b] else [b]).length) []
        behind := by
  simp only [notLineEnd, Bool.and_eq_true, bne_iff_ne] at hline
  by_cases hescape : Literal.needsEscape b = true
  · have hquoted : (b == byte '\\' || b == byte '"') = true := hescape
    rw [if_pos hescape, List.cons_append, List.cons_append, List.nil_append, stringBody_cons,
      if_neg (by decide), if_neg (by decide), if_neg (by decide)]
    dsimp only
    rw [if_pos hquoted]
    rfl
  · have hquoted : b ≠ byte '\\' ∧ b ≠ byte '"' := by
      simpa [Literal.needsEscape, Literal.escapeMark, Literal.quoteMark] using hescape
    rw [if_neg hescape, List.singleton_append, stringBody_cons,
      if_neg (by simpa using hline), if_neg (by simpa using hquoted.2),
      if_pos (by simpa using hquoted.1)]
    rfl

theorem stringBody_escaped {text : Bytes} (htext : byte '\n' ∉ text ∧ byte '\r' ∉ text)
    (seen : Nat) (behind : Bytes) :
    stringBody seen [] ((text.flatMap fun b =>
        if Literal.needsEscape b then [Literal.escapeMark, b] else [b]) ++ byte '"' :: behind) =
      ⟨.stringLiteral, seen + (text.flatMap fun b =>
        if Literal.needsEscape b then [Literal.escapeMark, b] else [b]).length, []⟩ := by
  induction text generalizing seen with
  | nil => rw [List.flatMap_nil, List.nil_append, stringBody_cons]; rfl
  | cons b rest ih =>
      simp only [List.mem_cons, not_or] at htext
      have hline : notLineEnd b = true := by
        simpa [notLineEnd] using ⟨Ne.symm htext.1.1, Ne.symm htext.2.1⟩
      rw [List.flatMap_cons, List.append_assoc, stringBody_escape hline,
        ih ⟨htext.1.2, htext.2.2⟩, List.length_append, Nat.add_assoc]

/-- A text between quotes is one token, if it does not leave its line. -/
theorem cuts_quote {text : Bytes} (htext : byte '\n' ∉ text ∧ byte '\r' ∉ text)
    (next : UInt8 → Bool) :
    Cuts next (Literal.quote text) [leaf .stringLiteral (Literal.quote text)] := by
  refine @cuts_of_scan _ (byte '"') _ _ rfl fun behind _ => ?_
  have hscan (rest : Bytes) : scan (byte '"') rest = stringBody 1 [] rest := rfl
  refine (hscan _).trans ?_
  rw [List.append_eq, List.append_assoc, List.singleton_append, List.length_append]
  refine (stringBody_escaped htext 1 behind).trans ?_
  rw [Nat.add_comm]
  rfl

/-- A text that can stand behind a blank or a sign, with its tokens in front of what ends it. -/
structure Prints (text : Bytes) (tokens : List Token) : Prop where
  heads : Heads isSolid text
  cuts : Cuts isStop text tokens

theorem heads_cons {test : UInt8 → Bool} {first : UInt8} (h : test first = true) (rest : Bytes) :
    Heads test (first :: rest) := ⟨first, rest, rfl, h⟩

theorem solid_of_namePart {b : UInt8} (h : Byte.isNamePart b = true) : isSolid b = true := by
  have hgap : b ∉ [byte ' ', byte '\t', byte '\r'] := Byte.not_mem_of_test h rfl
  have hequals : b ≠ byte '=' := Byte.ne_of_test h (by decide)
  simp only [isSolid, isInk, Bool.and_eq_true, Bool.not_eq_true', List.contains_eq_mem,
    decide_eq_false_iff_not, bne_iff_ne]
  exact ⟨hgap, hequals⟩

theorem prints_word {first : UInt8} {more : Bytes} (hfirst : Byte.isNameStart first = true)
    (hmore : ∀ b ∈ more, Byte.isNamePart b = true) :
    Prints (first :: more) [leaf (wordKind (first :: more)) (first :: more)] where
  heads := heads_cons (solid_of_namePart (Byte.isNamePart_iff.mpr (.inl hfirst))) more
  cuts := cuts_word hfirst hmore

theorem prints_decimal (n : Nat) : Prints (decimal n) [leaf .integerLiteral (decimal n)] := by
  have hdigits := @isDigit_of_mem_decimal n
  cases hdecimal : decimal n with
  | nil => exact absurd hdecimal (decimal_ne_nil n)
  | cons first rest =>
      rw [hdecimal] at hdigits
      have hfirst := hdigits first (List.mem_cons_self ..)
      have hrest : ∀ b ∈ rest, Byte.isDigit b = true :=
        fun b hb => hdigits b (List.mem_cons_of_mem _ hb)
      exact ⟨heads_cons (solid_of_namePart (Byte.isNamePart_of_isDigit hfirst)) rest,
        cuts_digits hfirst hrest⟩

theorem prints_hex (width n : Nat) :
    Prints (ascii "0x" ++ hex width n) [leaf .integerLiteral (ascii "0x" ++ hex width n)] where
  heads := heads_cons (by decide) _
  cuts := cuts_hex fun b hb => isHexDigit_of_mem_hex b hb

theorem prints_register (source : Register) :
    Prints source.name [leaf .register source.name] := by
  have hname (kind : UInt8) (hkind : Byte.isNamePart kind = true) (n : Nat) :
      Prints (byte '$' :: kind :: decimal n)
        [leaf .register (byte '$' :: kind :: decimal n)] := by
    refine ⟨heads_cons (by decide) _, cuts_register (List.cons_ne_nil _ _) ?_⟩
    intro b hb
    rcases List.mem_cons.mp hb with rfl | hb
    · exact hkind
    · exact Byte.isNamePart_of_isDigit (isDigit_of_mem_decimal b hb)
  cases source with
  | value index => exact hname (byte 'v') (by decide) index.val
  | argument index => exact hname (byte 'a') (by decide) index.val

theorem prints_quote {text : Bytes} (htext : byte '\n' ∉ text ∧ byte '\r' ∉ text) :
    Prints (Literal.quote text) [leaf .stringLiteral (Literal.quote text)] where
  heads := heads_cons (by decide) _
  cuts := cuts_quote htext isStop

/-- A mark in front of what it stands before. -/
structure Prefixes (text : Bytes) (kind : TokenKind) : Prop where
  heads : Heads isSolid text
  cuts : Cuts isSolid text [leaf kind text]

/-- A sign stands right before its operand. -/
theorem Prefixes.prints {sign text : Bytes} {kind : TokenKind} {tokens : List Token}
    (hsign : Prefixes sign kind) (h : Prints text tokens) :
    Prints (sign ++ text) (leaf kind sign :: tokens) where
  heads := hsign.heads.append text
  cuts := hsign.cuts.append h.cuts h.heads

theorem blank_stops : Heads isStop (ascii " ") := heads_cons (by decide) []

/-- A mark or word with blanks around it. -/
structure Separates (text : Bytes) (kind : TokenKind) : Prop where
  heads : Heads isInk text
  cuts : Cuts isStop text [leaf kind text]

/-- Two texts with a mark or word between them. -/
theorem Separates.prints {sign left right : Bytes} {kind : TokenKind} {front back : List Token}
    (hsign : Separates sign kind) (hleft : Prints left front) (hright : Prints right back) :
    Prints (left ++ (ascii " " ++ sign ++ ascii " ") ++ right)
      (front ++ leaf kind sign :: back) := by
  have hblank : Cuts isStop (ascii " " ++ right) back :=
    cuts_blank.append hright.cuts (hright.heads.mono fun _ => ink_of_solid)
  have hbehind : Cuts isStop (sign ++ (ascii " " ++ right)) (leaf kind sign :: back) :=
    hsign.cuts.append hblank (blank_stops.append right)
  have hwhole : Cuts isStop (ascii " " ++ (sign ++ (ascii " " ++ right)))
      (leaf kind sign :: back) :=
    cuts_blank.append hbehind (hsign.heads.append _)
  refine ⟨(hleft.heads.append _).append _, ?_⟩
  have hall := hleft.cuts.append hwhole (blank_stops.append _)
  simpa only [List.append_assoc] using hall

/-- A text between brackets. -/
theorem Prints.enclosed {opener text closer : Bytes} {first last : Token} {tokens : List Token}
    (hopener : Heads isSolid opener) (hfirst : Cuts isSolid opener [first])
    (hcloser : Heads isStop closer) (hlast : Cuts isStop closer [last]) (h : Prints text tokens) :
    Prints (opener ++ text ++ closer) (first :: (tokens ++ [last])) := by
  refine ⟨(hopener.append text).append closer, ?_⟩
  have hinside := h.cuts.append hlast hcloser
  have hall := hfirst.append hinside (h.heads.append closer)
  rw [List.append_assoc]
  exact hall

/-- A mark that nothing can run on into. -/
theorem cuts_closed {first : UInt8} {kind : TokenKind} (hkind : kind.isTrivia = false)
    (h : ∀ behind, scan first behind = clean kind 0) (next : UInt8 → Bool) :
    Cuts next [first] [leaf kind [first]] :=
  cuts_mark hkind rfl h next

/-- The comma of a list. -/
def commaToken : Token := leaf (.mark .comma) (ascii ",")

/-- Tokens of the elements of a list with its commas. -/
def commaTokens (pieces : List (List Token)) : List Token := [commaToken].intercalate pieces

theorem commaTokens_cons_cons (first second : List Token) (rest : List (List Token)) :
    commaTokens (first :: second :: rest) =
      first ++ commaToken :: commaTokens (second :: rest) := by
  simp [commaTokens, List.intercalate]

/-- A list with a comma and a blank between its elements. -/
theorem prints_commaJoin {texts : List Bytes} {pieces : List (List Token)}
    (h : List.Forall₂ Prints texts pieces) (hne : texts ≠ []) :
    Prints (commaJoin texts) (commaTokens pieces) := by
  induction h with
  | nil => exact absurd rfl hne
  | @cons text tokens texts pieces hfirst hrest ih =>
      cases hrest with
      | nil => simpa [commaJoin, Bytes.join, commaTokens, List.intercalate] using hfirst
      | @cons second others texts pieces hsecond hrest =>
          have hbehind := ih (List.cons_ne_nil _ _)
          have hcomma : Cuts isStop (byte ',' :: (ascii " " ++ commaJoin (second :: texts)))
              (commaToken :: commaTokens (others :: pieces)) :=
            (cuts_closed rfl (fun _ => rfl) isStop).append
              (cuts_blank.append hbehind.cuts (hbehind.heads.mono fun _ => ink_of_solid))
                (blank_stops.append _)
          have hall := hfirst.cuts.append hcomma (heads_cons (by decide) _)
          rw [commaTokens_cons_cons]
          refine ⟨(hfirst.heads.append _).append _, ?_⟩
          have htext : commaJoin (text :: second :: texts) =
              text ++ byte ',' :: (ascii " " ++ commaJoin (second :: texts)) := by
            simp only [commaJoin, Bytes.join, List.append_assoc]
            rfl
          rw [htext]
          exact hall

end Lexed

end NovelAsm
