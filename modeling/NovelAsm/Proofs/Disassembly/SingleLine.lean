import NovelAsm.Proofs.Disassembly.Placeholders
import NovelAsm.Proofs.Disassembly.Trial
import NovelAsm.Proofs.Session.WholeFile

/-!
Printed instructions and line ends. A line that can be read holds no line end, so the lines of a
text of scripts are the lines that they are printed as. A literal whose text leaves its line spoils
what it is printed in, so an instruction that holds such a text is not reproduced.
-/

namespace NovelAsm

open Lexed

/-- A text that does not leave its line. -/
def InLine (text : Bytes) : Prop := byte '\n' ∉ text ∧ byte '\r' ∉ text

instance (text : Bytes) : Decidable (InLine text) := inferInstanceAs (Decidable (_ ∧ _))

namespace InLine

variable {text other : Bytes}

theorem iff_forall : InLine text ↔ ∀ b ∈ text, Lexeme.notLineEnd b = true := by
  simp only [InLine, Lexeme.notLineEnd, Bool.and_eq_true, bne_iff_ne]
  exact ⟨fun h b hb => ⟨ne_of_mem_of_not_mem hb h.1, ne_of_mem_of_not_mem hb h.2⟩,
    fun h => ⟨fun hb => (h _ hb).1 rfl, fun hb => (h _ hb).2 rfl⟩⟩

theorem append (h : InLine text) (hother : InLine other) : InLine (text ++ other) := by
  rw [iff_forall] at h hother ⊢
  exact List.forall_mem_append.mpr ⟨h, hother⟩

theorem of_tidy (h : isTidy text = true) : InLine text := iff_forall.mpr (Tidy.notLineEnd h)

theorem quote (h : InLine text) : InLine (Literal.quote text) := by
  have hescaped : InLine (text.flatMap fun b =>
      if Literal.needsEscape b then [Literal.escapeMark, b] else [b]) := by
    rw [iff_forall] at h ⊢
    refine List.forall_mem_flatMap.mpr fun b hb => ?_
    split
    · exact List.forall_mem_cons.mpr ⟨by decide, List.forall_mem_singleton.mpr (h b hb)⟩
    · exact List.forall_mem_singleton.mpr (h b hb)
  have hmark : InLine [Literal.quoteMark] := by decide
  exact (hmark.append hescaped).append hmark

/-- What is in its line outside of its literals is so if its literals are. -/
theorem of_outside {values : List Bytes} (h : OutsideLiterals (isTidy · = true) text values)
    (hvalues : ∀ value ∈ values, InLine value) : InLine text := by
  induction h with
  | plain h => exact of_tidy h
  | literal value h _ ih =>
      obtain ⟨hvalue, hvalues⟩ := List.forall_mem_cons.mp hvalues
      exact ((of_tidy h).append hvalue.quote).append (ih hvalues)

end InLine

theorem Place.IsNamed.isSpelled {place : Place} (h : place.IsNamed) : place.IsSpelled :=
  fun name hname => isName_of_isWord (h name hname).word

namespace PrintedOperand

/-- The names in an operand are such of labels. -/
def IsNamed : PrintedOperand → Prop
  | .place value => value.IsNamed
  | .table cases => ∀ entry ∈ cases, entry.2.IsNamed
  | _ => True

variable {operand : PrintedOperand}

/-- An operand can be read if its names are such of labels and its text stays in its line. -/
theorem isLegible_iff : operand.IsLegible ↔
    operand.IsNamed ∧ ∀ value ∈ operand.literal?, InLine value := by
  cases operand <;> simp [IsLegible, IsNamed, literal?, InLine]

theorem IsNamed.isSpelled (h : operand.IsNamed) : operand.IsSpelled := by
  cases operand with
  | place value => exact Place.IsNamed.isSpelled h
  | table cases => exact fun entry hentry => (h entry hentry).isSpelled
  | _ => trivial

end PrintedOperand

/-- A line that can be read holds no line end. -/
theorem PrintedLine.IsLegible.inLine {line : PrintedLine} (h : line.IsLegible) :
    InLine line.shown := by
  have hoperands := fun operand hoperand =>
    PrintedOperand.isLegible_iff.mp (h.operands operand hoperand)
  refine InLine.of_outside (PrintedLine.shown_outside h.row fun operand hoperand =>
    (hoperands operand hoperand).1.isSpelled) fun value hvalue => ?_
  obtain ⟨operand, hoperand, hliteral⟩ := List.mem_filterMap.mp hvalue
  exact (hoperands operand hoperand).2 value hliteral

/-- A line end in the text of a literal spoils the literal. -/
theorem Lexeme.stringBody_spoiled {text : Bytes} (h : ¬ InLine text) (seen : Nat)
    (behind : Bytes) :
    (stringBody seen [] ((text.flatMap fun b =>
      if Literal.needsEscape b then [Literal.escapeMark, b] else [b]) ++ behind)).flaws ≠ [] := by
  induction text generalizing seen with
  | nil => exact absurd (by decide) h
  | cons b rest ih =>
      rw [List.flatMap_cons, List.append_assoc]
      by_cases hline : notLineEnd b = true
      · rw [stringBody_escape hline]
        refine ih (fun hrest => h ?_) _
        rw [InLine.iff_forall] at hrest ⊢
        exact List.forall_mem_cons.mpr ⟨hline, hrest⟩
      · have hend : (b == byte '\n' || b == byte '\r') = true := by
          simpa [notLineEnd, Classical.or_iff_not_imp_left] using hline
        have hescape : Literal.needsEscape b = false := by
          rcases Bool.or_eq_true_iff.mp hend with heq | heq <;> rw [beq_iff_eq.mp heq] <;> rfl
        rw [hescape, if_neg Bool.false_ne_true, List.singleton_append, stringBody_cons, if_pos hend]
        exact List.cons_ne_nil _ _

theorem not_flawless_quote {text : Bytes} (h : ¬ InLine text) (behind : Bytes) :
    ¬ Flawless 0 (Literal.quote text ++ behind) := by
  rintro ⟨hclean, -⟩
  rw [List.append_eq, List.append_eq, List.append_assoc] at hclean
  exact Lexeme.stringBody_spoiled h 1 _ hclean

namespace PrintedOperand

/-- An operand that names labels and cannot be read is a text that leaves its line. -/
theorem IsNamed.exists_text {operand : PrintedOperand} (h : operand.IsNamed)
    (hspoiled : ¬ operand.IsLegible) : ∃ value, operand = .text value ∧ ¬ InLine value := by
  cases operand <;> first
    | exact ⟨_, rfl, hspoiled⟩
    | exact absurd h hspoiled

theorem exists_commaJoin (first : Bytes) (rest : List Bytes) :
    ∃ more, commaJoin (first :: rest) = first ++ more := by
  cases rest with
  | nil => exact ⟨[], (List.append_nil first).symm⟩
  | cons second rest => exact ⟨_, List.append_assoc ..⟩

/-- One of them spoils all operands that it is printed among. -/
theorem not_flawless_commaJoin {operands : List PrintedOperand}
    (h : ∀ operand ∈ operands, operand.IsNamed)
    (hspoiled : ∃ operand ∈ operands, ¬ operand.IsLegible) (behind : Bytes) :
    Heads isSolid (commaJoin (operands.map shown)) ∧
      ¬ Flawless 0 (commaJoin (operands.map shown) ++ behind) := by
  induction operands with
  | nil => simp at hspoiled
  | cons first rest ih =>
      obtain ⟨hfirst, hrest⟩ := List.forall_mem_cons.mp h
      by_cases hlegible : first.IsLegible
      · have hlater : ∃ operand ∈ rest, ¬ operand.IsLegible := by
          obtain ⟨operand, hoperand, hbad⟩ := hspoiled
          rcases List.mem_cons.mp hoperand with rfl | hoperand
          · exact absurd hlegible hbad
          · exact ⟨operand, hoperand, hbad⟩
        obtain ⟨hheads, hflawed⟩ := ih hrest hlater
        obtain ⟨second, others, rfl⟩ : ∃ second others, rest = second :: others := by
          obtain ⟨operand, hoperand, -⟩ := hlater
          exact List.exists_cons_of_ne_nil (List.ne_nil_of_mem hoperand)
        have hprints := prints hlegible
        have htext : commaJoin ((first :: second :: others).map shown) ++ behind = first.shown ++
            ([byte ','] ++ (ascii " " ++
              (commaJoin ((second :: others).map shown) ++ behind))) := by
          simp only [commaJoin, List.map_cons, Bytes.join, List.append_assoc]
          rfl
        refine ⟨hprints.heads.append _ |>.append _, fun hflawless => hflawed ?_⟩
        rw [htext] at hflawless
        have hcomma := (hprints.cuts _ (heads_cons (by decide) _)).2.mp hflawless
        have hblank := (@cuts_closed (byte ',') (.mark .comma) rfl (fun _ => rfl) isStop _
          (blank_stops.append _)).2.mp hcomma
        exact (cuts_blank _ ((hheads.append behind).mono fun _ => ink_of_solid)).2.mp hblank
      · obtain ⟨value, rfl, hvalue⟩ := hfirst.exists_text hlegible
        obtain ⟨more, hmore⟩ := exists_commaJoin (Literal.quote value) (rest.map shown)
        rw [List.map_cons, shown, hmore]
        refine ⟨heads_cons (by decide) _, ?_⟩
        rw [List.append_assoc]
        exact not_flawless_quote hvalue _

end PrintedOperand

/-- A line with an operand that leaves it cannot be read. -/
theorem PrintedLine.not_flawless {line : PrintedLine} (hrow : line.form ∈ Form.table)
    (h : ∀ operand ∈ line.operands, operand.IsNamed)
    (hspoiled : ∃ operand ∈ line.operands, ¬ operand.IsLegible) (behind : Bytes) :
    Heads isSolid line.shown ∧ ¬ Flawless 0 (line.shown ++ behind) := by
  obtain ⟨hheads, hflawed⟩ := PrintedOperand.not_flawless_commaJoin h hspoiled behind
  have hword : Prints line.mnemonic [line.word] := prints_of_isWord (isWord_mnemonic _ hrow).1
  have hnonempty : (line.operands.map PrintedOperand.shown).isEmpty = false := by
    obtain ⟨operand, hoperand, -⟩ := hspoiled
    rw [List.isEmpty_eq_false_iff, Ne, List.map_eq_nil_iff]
    exact List.ne_nil_of_mem hoperand
  rw [shown, lineText, hnonempty, if_neg Bool.false_ne_true]
  refine ⟨(hword.heads.append _).append _, fun hflawless => hflawed ?_⟩
  rw [List.append_assoc, List.append_assoc] at hflawless
  have hblank := (hword.cuts _ (blank_stops.append _)).2.mp hflawless
  exact (cuts_blank _ ((hheads.append behind).mono fun _ => ink_of_solid)).2.mp hblank

/-- So no unit comes of the script that it is tried in. -/
theorem CodeLabels.probeUnit?_spoiled {line : PrintedLine} (hrow : line.form ∈ Form.table)
    (h : ∀ operand ∈ line.operands, operand.IsNamed)
    (hspoiled : ∃ operand ∈ line.operands, ¬ operand.IsLegible) (scope : Scope) :
    probeUnit? scope line.shown = none := by
  obtain ⟨hheads, hflawed⟩ := PrintedLine.not_flawless hrow h hspoiled (ascii "\n")
  have hsource : probeSource line.shown = (ScriptLine.label probeLabel).shown ++
      (indent ++ (line.shown ++ ascii "\n")) := by
    simp [probeSource, ScriptLine.shown, indent, ascii]
  have herrors :
      (ParsedSource.read (probeSource line.shown) .origin).diagnostics.any Diagnostic.isError =
        true := by
    by_contra hnone
    have hclean := ParsedSource.diagnostics_eq_nil_of_hasErrors (Bool.eq_false_iff.mpr hnone)
    obtain ⟨hflawless, -⟩ := (ParsedSource.diagnostics_eq_nil_iff _ _).mp hclean
    rw [hsource, flawless_append (.inr (ScriptLine.label probeLabel).endsLine)
      (@ScriptLine.tokensOf_shown (.label probeLabel) isLabelName_probeLabel).2] at hflawless
    exact hflawed ((cuts_indent _ ((hheads.append _).mono fun _ => ink_of_solid)).2.mp hflawless)
  unfold probeUnit?
  generalize ParsedSource.read (probeSource line.shown) .origin = parsed at herrors ⊢
  dsimp only
  split
  · rw [List.any_append, List.any_append, herrors]
    rfl
  · rfl

namespace ScriptLine

/-- A line of a text of scripts is in its line, before its line feed. -/
theorem exists_body {line : ScriptLine} (h : line.IsLegible) :
    ∃ body, line.shown = body ++ [byte '\n'] ∧ byte '\n' ∉ body := by
  cases line with
  | comment text =>
      have htext := (show InLine (ascii "//") by decide).append (InLine.iff_forall.mpr h)
      exact ⟨_, rfl, htext.1⟩
  | label name =>
      have hname : InLine name := InLine.of_tidy
        (@Tidy.place (.symbol name) (Place.IsNamed.isSpelled fun _ heq => Place.symbol.inj heq ▸ h))
      have hcolon := hname.append (show InLine (ascii ":") by decide)
      exact ⟨_, (List.append_assoc name (ascii ":") (ascii "\n")).symm, hcolon.1⟩
  | instruction line remark =>
      have hremark : InLine (DisassemblyLine.remarkText remark) := by
        rw [DisassemblyLine.remarkText]
        split
        · decide
        · exact (show InLine (ascii " // ") by decide).append (InLine.iff_forall.mpr h.2)
      have hline := ((show InLine indent by decide).append h.1.inLine).append hremark
      exact ⟨_, rfl, hline.1⟩

end ScriptLine

namespace ScriptText

variable {text : ScriptText}

theorem lines_shown (h : text.IsLegible) :
    Segment.lines text.shown = text.map ScriptLine.shown := by
  induction text with
  | nil => rfl
  | cons first rest ih =>
      obtain ⟨hfirst, hrest⟩ := List.forall_mem_cons.mp h
      obtain ⟨body, hbody, hinside⟩ := ScriptLine.exists_body hfirst
      have hsplit : shown (first :: rest) = body ++ byte '\n' :: shown rest := by
        rw [shown, List.flatMap_cons, hbody, List.append_assoc]
        rfl
      rw [hsplit, Segment.lines_append hinside, ← hbody, ih hrest]
      rfl

/-- Each segment of a text of scripts is one itself. -/
theorem segmentsClean (h : text.IsLegible) : Session.SegmentsClean text.shown := by
  have hparts := @Segment.split_closed (fun text => ∃ part : ScriptText, part.IsLegible ∧
    text = part.shown) text.shown ⟨[], List.forall_mem_nil _, rfl⟩ fun line hline other hother => by
      rw [lines_shown h] at hline
      obtain ⟨first, hfirst, rfl⟩ := List.mem_map.mp hline
      obtain ⟨part, hpart, rfl⟩ := hother
      exact ⟨first :: part, List.forall_mem_cons.mpr ⟨h first hfirst, hpart⟩, rfl⟩
  intro segment hsegment
  obtain ⟨part, hpart, htext⟩ := hparts segment hsegment
  rw [htext]
  exact clean hpart

end ScriptText

end NovelAsm
