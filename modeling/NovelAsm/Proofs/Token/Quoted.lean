import NovelAsm.Proofs.Token.Printed
import NovelAsm.Proofs.Token.Strings

/-!
Quoted texts. A text between quotes is one token exactly if it does not leave its line, and a string
of which nothing is said is a quoted text. So literals and the texts that they stand for are one to
one, as far as they fit on a line (`Lexed.read_quote`).
-/

namespace NovelAsm

namespace Lexed

open Lexeme

/-- The tokens of a text, each with what is said of it. -/
def withReports (skip : Nat) (place : Location) : Bytes → List (Token × Diagnostics)
  | [] => []
  | first :: rest =>
      match skip with
      | skip + 1 => withReports skip place rest
      | 0 =>
          let lexeme := Lexeme.scan first rest
          let text := first :: rest.take lexeme.more
          let span := Span.covering place text
          (⟨lexeme.kind, text, span⟩, lexeme.flaws.map (diagnose place text)) ::
            withReports lexeme.more span.stop rest

theorem map_fst_withReports (skip : Nat) (place : Location) (text : Bytes) :
    (withReports skip place text).map Prod.fst = (walk skip place text).tokens := by
  induction text generalizing skip place with
  | nil => rfl
  | cons first rest ih =>
      cases skip with
      | succ skip => exact ih skip place
      | zero => exact congrArg (_ :: ·) (ih _ _)

theorem flatMap_snd_withReports (skip : Nat) (place : Location) (text : Bytes) :
    (withReports skip place text).flatMap Prod.snd = (walk skip place text).diagnostics := by
  induction text generalizing skip place with
  | nil => rfl
  | cons first rest ih =>
      cases skip with
      | succ skip => exact ih skip place
      | zero => exact congrArg (_ ++ ·) (ih _ _)

/-- A token of which nothing is said is cut off without a flaw. -/
theorem isClean_of_mem_withReports {skip : Nat} {place : Location} {text : Bytes} {token : Token}
    (h : (token, []) ∈ withReports skip place text) : IsClean token.bare := by
  induction text generalizing skip place with
  | nil => cases h
  | cons first rest ih =>
      cases skip with
      | succ skip => exact ih h
      | zero =>
          rcases List.mem_cons.mp h with h | h
          · obtain ⟨rfl, hsaid⟩ := Prod.mk.inj h
            exact ⟨first, rest, List.map_eq_nil_iff.mp hsaid.symm, rfl⟩
          · exact ih h

theorem walk_length (place : Location) (text : Bytes) :
    walk text.length place text = ⟨[], finishAt place, []⟩ := by
  induction text with
  | nil => rfl
  | cons first rest ih => exact ih

/-- A quoted text that stays on its line is one token. -/
theorem read_quote_of_line {value : Bytes} (h : byte '\n' ∉ value ∧ byte '\r' ∉ value)
    (place : Location) :
    read (Literal.quote value) place =
      ⟨[⟨.stringLiteral, Literal.quote value, .covering place (Literal.quote value)⟩],
        finishAt (place.advance (Literal.quote value)), []⟩ := by
  have hscan : scan (byte '"') (Literal.escaped value ++ [byte '"']) =
      ⟨.stringLiteral, (Literal.escaped value ++ [byte '"']).length, []⟩ := by
    rw [scan_quote, List.length_append, Nat.add_comm]
    exact stringBody_escaped h 1 []
  rw [Literal.quote_eq, read, Literal.quoteMark, walk_cons_zero]
  simp only [hscan, List.take_length, walk_length, List.map_nil, List.append_nil]
  rfl

/-- A text with a line end is no string. -/
theorem stringBody_lineEnd {value : Bytes} (h : byte '\n' ∈ value ∨ byte '\r' ∈ value) (seen : Nat)
    (behind : Bytes) : (stringBody seen [] (Literal.escaped value ++ behind)).flaws ≠ [] := by
  induction value generalizing seen with
  | nil => rcases h with h | h <;> cases h
  | cons b rest ih =>
      cases hline : notLineEnd b with
      | true =>
          have hrest : byte '\n' ∈ rest ∨ byte '\r' ∈ rest := by
            refine h.imp (fun hmem => ?_) fun hmem => ?_
            all_goals
              refine (List.mem_cons.mp hmem).resolve_left ?_
              rintro rfl
              cases hline
          rw [Literal.escaped_cons, List.append_assoc, stringBody_escape hline]
          exact ih hrest _
      | false =>
          have hends : (b == byte '\n' || b == byte '\r') = true := by
            simpa [notLineEnd, bne, ← Bool.not_or] using hline
          have hplain : Literal.needsEscape b = false := by
            rcases Bool.or_eq_true _ _ ▸ hends with hb | hb <;> rw [beq_iff_eq.mp hb] <;> decide
          rw [Literal.escaped_cons, hplain, if_neg Bool.false_ne_true, List.singleton_append,
            List.cons_append, stringBody_cons, if_pos hends]
          simp [stringBody.unclosed]

/-- A string of which nothing is said is a quoted text. -/
theorem exists_quote_of_mem {source : Bytes} {place : Location} {token : Token}
    (h : (token, []) ∈ withReports 0 place source) (hkind : token.kind = .stringLiteral) :
    ∃ value, token.text = Literal.quote value := by
  obtain ⟨first, rest, hclean, htoken⟩ := isClean_of_mem_withReports h
  have htext : token.text = first :: rest.take (scan first rest).more :=
    congrArg Token.text htoken
  obtain rfl := quote_of_kind ((congrArg Token.kind htoken).symm.trans hkind)
  rw [htext]
  exact exists_quote hclean

/-- Literals survive their text exactly if they fit on a line. A text is what its literal stands
for. The literal is read as one token, without a complaint, if the text holds no line end, and
otherwise there is a complaint. In any source, a string of which nothing is said is the literal of
what it stands for. -/
theorem read_quote (value : Bytes) :
    Literal.string? (Literal.quote value) = some value ∧
      (∀ place, byte '\n' ∉ value ∧ byte '\r' ∉ value →
        read (Literal.quote value) place =
          ⟨[⟨.stringLiteral, Literal.quote value, .covering place (Literal.quote value)⟩],
            finishAt (place.advance (Literal.quote value)), []⟩) ∧
      (∀ place, byte '\n' ∈ value ∨ byte '\r' ∈ value →
        (read (Literal.quote value) place).diagnostics ≠ []) ∧
      ∀ source place,
        (withReports 0 place source).map Prod.fst = (read source place).tokens ∧
        (withReports 0 place source).flatMap Prod.snd = (read source place).diagnostics ∧
        ∀ token, (token, []) ∈ withReports 0 place source → token.kind = .stringLiteral →
          ∃ text, Literal.string? token.text = some text ∧ Literal.quote text = token.text := by
  refine ⟨Literal.string?_quote value, fun place h => read_quote_of_line h place,
    fun place h hnone => ?_, fun source place => ⟨map_fst_withReports 0 place source,
      flatMap_snd_withReports 0 place source, fun token hmem hkind => ?_⟩⟩
  · obtain ⟨hclean, -⟩ := (diagnostics_eq_nil_iff 0 place _).mp hnone
    exact stringBody_lineEnd h 1 [Literal.quoteMark] hclean
  · obtain ⟨text, htext⟩ := exists_quote_of_mem hmem hkind
    exact ⟨text, by rw [htext, Literal.string?_quote], htext.symm⟩

/-- A text that ends in a backslash, and one that is cut by a line end. -/
theorem read_quote_backslash :
    let value := ascii "say \"hi\"\\"
    let broken := ascii "one\rtwo"
    (byte '\n' ∉ value ∧ byte '\r' ∉ value) ∧
      (read (Literal.quote value) .origin).diagnostics = [] ∧
      (read (Literal.quote value) .origin).tokens.map Token.text =
        [ascii "\"say \\\"hi\\\"\\\\\""] ∧
      byte '\r' ∈ broken ∧ (read (Literal.quote broken) .origin).diagnostics ≠ [] := by
  intro value broken
  have hvalue : byte '\n' ∉ value ∧ byte '\r' ∉ value := by decide
  have hbroken : byte '\r' ∈ broken := by decide
  have hread := (read_quote value).2.1 .origin hvalue
  refine ⟨hvalue, ?_, ?_, hbroken, (read_quote broken).2.2.1 .origin (.inr hbroken)⟩
  · rw [hread]
  · rw [hread]
    decide

end Lexed

end NovelAsm
