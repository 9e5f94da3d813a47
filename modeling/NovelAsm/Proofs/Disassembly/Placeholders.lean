import NovelAsm.Proofs.Disassembly.Distinct
import NovelAsm.Proofs.Disassembly.Instructions

/-!
Printed instructions without placeholders. What the machine does not know is printed as a
placeholder, which begins with an angle bracket and a letter. Nothing else that is printed has
these two side by side, but for the text of a string literal; so outside of its literals the text
of an instruction of the table holds no placeholder (`Instruction.OfForm.text_outside`).
-/

namespace NovelAsm

/-- A text whose parts outside of string literals have a property, with what its literals stand
for. -/
inductive OutsideLiterals (P : Bytes → Prop) : Bytes → List Bytes → Prop
  | plain {text : Bytes} (h : P text) : OutsideLiterals P text []
  | literal {front rest : Bytes} {values : List Bytes} (value : Bytes) (h : P front)
      (hrest : OutsideLiterals P rest values) :
      OutsideLiterals P (front ++ Literal.quote value ++ rest) (value :: values)

/-- A text with the beginning of a placeholder in it. -/
def HasPlaceholder (text : Bytes) : Prop :=
  ascii "<malformed" <:+: text ∨ ascii "<unknown" <:+: text

namespace OutsideLiterals

variable {P Q : Bytes → Prop} {text other : Bytes} {values more : List Bytes}

theorem mono (h : OutsideLiterals P text values) (himplies : ∀ text, P text → Q text) :
    OutsideLiterals Q text values := by
  induction h with
  | plain h => exact .plain (himplies _ h)
  | literal value h _ ih => exact .literal value (himplies _ h) ih

theorem append (happend : ∀ a b, P a → P b → P (a ++ b)) (h : OutsideLiterals P text values)
    (hother : OutsideLiterals P other more) :
    OutsideLiterals P (text ++ other) (values ++ more) := by
  induction h with
  | plain h =>
      cases hother with
      | plain hother => exact .plain (happend _ _ h hother)
      | literal value hfront hrest =>
          rw [← List.append_assoc, ← List.append_assoc]
          exact .literal value (happend _ _ h hfront) hrest
  | literal value h _ ih =>
      rw [List.append_assoc]
      exact .literal value h ih

end OutsideLiterals

/-- Whether a text stays in its line, and every angle bracket of it stands in front of a byte that
is no letter. -/
def isTidy : Bytes → Bool
  | [] => true
  | b :: rest =>
      Lexeme.notLineEnd b && (b != byte '<' || rest.head?.any fun next => !Byte.isNameStart next)
        && isTidy rest

namespace Tidy

variable {text other : Bytes}

theorem append (h : isTidy text = true) (hother : isTidy other = true) :
    isTidy (text ++ other) = true := by
  induction text with
  | nil => exact hother
  | cons b rest ih =>
      rw [isTidy, Bool.and_eq_true] at h
      rw [List.cons_append, isTidy, ih h.2, Bool.and_true]
      cases rest with
      | nil =>
          obtain ⟨hline, hb⟩ : Lexeme.notLineEnd b = true ∧ (b != byte '<') = true := by
            simpa using h.1
          rw [hline, hb, Bool.true_or, Bool.true_and]
      | cons next rest => exact h.1

theorem of_append (h : isTidy (text ++ other) = true) : isTidy other = true := by
  induction text with
  | nil => exact h
  | cons b rest ih =>
      rw [List.cons_append, isTidy, Bool.and_eq_true] at h
      exact ih h.2

theorem notLineEnd (h : isTidy text = true) : ∀ b ∈ text, Lexeme.notLineEnd b = true := by
  induction text with
  | nil => exact List.forall_mem_nil _
  | cons b rest ih =>
      rw [isTidy, Bool.and_eq_true, Bool.and_eq_true] at h
      exact List.forall_mem_cons.mpr ⟨h.1.1, ih h.2⟩

/-- No placeholder stands where angle brackets and letters are apart. -/
theorem not_hasPlaceholder (h : isTidy text = true) : ¬ HasPlaceholder text := by
  have hnone {mark : Bytes} (hmark : ∀ tail, isTidy (mark ++ tail) = false) :
      ¬ mark <:+: text := by
    rintro ⟨front, back, rfl⟩
    rw [List.append_assoc] at h
    have hbad := of_append h
    rw [hmark] at hbad
    cases hbad
  rintro (hmalformed | hunknown)
  · exact hnone (fun _ => rfl) hmalformed
  · exact hnone (fun _ => rfl) hunknown

theorem notLineEnd_of_word (b : UInt8) (h : isWordByte b = true) : Lexeme.notLineEnd b = true := by
  have hfeed : b ≠ byte '\n' := Byte.ne_of_test h (by decide)
  have hreturn : b ≠ byte '\r' := Byte.ne_of_test h (by decide)
  rw [Lexeme.notLineEnd, bne_iff_ne.mpr hfeed, bne_iff_ne.mpr hreturn, Bool.true_and]

theorem of_word (h : ∀ b ∈ text, isWordByte b = true) : isTidy text = true := by
  induction text with
  | nil => rfl
  | cons b rest ih =>
      rw [List.forall_mem_cons] at h
      have hb : (b != byte '<') = true := by
        rw [bne_iff_ne]
        rintro rfl
        exact absurd h.1 (by decide)
      rw [isTidy, notLineEnd_of_word b h.1, ih h.2, hb]
      rfl

theorem join {separator : Bytes} (hseparator : isTidy separator = true)
    {texts : List Bytes} (h : ∀ text ∈ texts, isTidy text = true) :
    isTidy (Bytes.join separator texts) = true := by
  induction texts with
  | nil => rfl
  | cons first rest ih =>
      rw [List.forall_mem_cons] at h
      cases rest with
      | nil => exact h.1
      | cons second rest => exact append (append h.1 hseparator) (ih h.2)

theorem flatMap {α : Type} {items : List α} {shown : α → Bytes}
    (h : ∀ item ∈ items, isTidy (shown item) = true) :
    isTidy (items.flatMap shown) = true := by
  induction items with
  | nil => rfl
  | cons first rest ih =>
      rw [List.forall_mem_cons] at h
      rw [List.flatMap_cons]
      exact append h.1 (ih h.2)

theorem number (value : Number) : isTidy value.text = true := by
  cases value with
  | constant value => exact of_word (signedDecimal_word value.toInt)
  | register source => exact of_word source.name_word

/-- The marks of operators that begin with an angle bracket stand between blanks. -/
theorem fixity (operator : Operator) :
    match operator.fixity with
    | .between spelling => isTidy (ascii " " ++ ascii spelling ++ ascii " ") = true
    | .before spelling => isTidy (ascii spelling) = true
    | .call name => isTidy (ascii name) = true := by
  cases operator <;> rfl

theorem wrapped {fragment : Fragment} (h : isTidy fragment.text = true) :
    isTidy fragment.wrapped = true := by
  rw [Fragment.wrapped]
  split
  · exact append (append (by decide) h) (by decide)
  · exact h

theorem ofOperator (operator : Operator) {operands : List Fragment}
    (h : ∀ operand ∈ operands, isTidy operand.text = true) :
    isTidy (Fragment.ofOperator operator operands).text = true := by
  have hspelled := fixity operator
  rw [Fragment.ofOperator]
  cases hfixity : operator.fixity with
  | between spelling =>
      rw [hfixity] at hspelled
      exact join hspelled (List.forall_mem_map.mpr fun operand hoperand =>
        wrapped (h operand hoperand))
  | before spelling =>
      rw [hfixity] at hspelled
      exact append hspelled (flatMap fun operand hoperand => wrapped (h operand hoperand))
  | call name =>
      rw [hfixity] at hspelled
      refine append (append (append hspelled (by decide)) (join (by decide) ?_)) (by decide)
      refine List.forall_mem_map.mpr fun operand hoperand => h operand ?_
      split at hoperand
      · exact List.mem_reverse.mp hoperand
      · exact hoperand

theorem formula (value : Formula) : isTidy value.fragment.text = true := by
  induction value with
  | number value => exact number value
  | unary operator arity operand ih =>
      exact ofOperator operator (List.forall_mem_singleton.mpr ih)
  | binary operator arity left right ihLeft ihRight =>
      exact ofOperator operator
        (List.forall_mem_cons.mpr ⟨ihLeft, List.forall_mem_singleton.mpr ihRight⟩)
  | select whenFalse whenTrue condition ihFalse ihTrue ihCondition =>
      exact ofOperator .select (List.forall_mem_cons.mpr ⟨ihFalse,
        List.forall_mem_cons.mpr ⟨ihTrue, List.forall_mem_singleton.mpr ihCondition⟩⟩)

theorem place {value : Place} (h : value.IsSpelled) : isTidy value.text = true := by
  cases value with
  | symbol name =>
      obtain ⟨-, -, -, -, hword⟩ := exists_of_isName (h name rfl)
      exact of_word hword
  | address value => exact of_word (hex_word 0 value.toNat)

theorem case {entry : Int × Place} (h : entry.2.IsSpelled) :
    isTidy (PrintedOperand.caseText entry) = true :=
  append (append (of_word (signedDecimal_word entry.1)) (by decide)) (place h)

end Tidy

namespace PrintedOperand

/-- What the literal of an operand stands for. -/
def literal? : PrintedOperand → Option Bytes
  | .text value => some value
  | _ => none

/-- The places of an operand have names as texts spell them. -/
def IsSpelled : PrintedOperand → Prop
  | .place value => value.IsSpelled
  | .table cases => ∀ entry ∈ cases, entry.2.IsSpelled
  | _ => True

theorem shown_outside {operand : PrintedOperand} (h : operand.IsSpelled) :
    OutsideLiterals (isTidy · = true) operand.shown operand.literal?.toList := by
  have hlist {texts : List Bytes} (h : ∀ text ∈ texts, isTidy text = true) :
      isTidy (commaJoin texts) = true := Tidy.join (by decide) h
  cases operand with
  | text value =>
      have hquote : OutsideLiterals (isTidy · = true)
          ([] ++ Literal.quote value ++ []) [value] := .literal value rfl (.plain rfl)
      rwa [List.append_nil] at hquote
  | number value => exact .plain (Tidy.number value)
  | register source => exact .plain (Tidy.of_word source.name_word)
  | unsigned value => exact .plain (Tidy.of_word (decimal_word value.toNat))
  | rawByte value => exact .plain (Tidy.of_word (hex_word 2 value.toNat))
  | place value => exact .plain (Tidy.place h)
  | array values =>
      have hvalues : isTidy (commaJoin (values.map Number.text)) = true :=
        hlist (List.forall_mem_map.mpr fun value _ => Tidy.number value)
      exact .plain (Tidy.append (Tidy.append (by decide) hvalues) (by decide))
  | table cases =>
      cases cases with
      | nil => exact .plain (by decide)
      | cons first rest =>
          have hcases : isTidy (commaJoin ((first :: rest).map caseText)) = true :=
            hlist (List.forall_mem_map.mpr fun entry hentry => Tidy.case (h entry hentry))
          exact .plain (Tidy.append (Tidy.append (by decide) hcases) (by decide))
  | formula value => exact .plain (Tidy.formula value)
  | flag name => cases name <;> exact .plain (by decide)

theorem commaJoin_outside {operands : List PrintedOperand}
    (h : ∀ operand ∈ operands, operand.IsSpelled) :
    OutsideLiterals (isTidy · = true) (commaJoin (operands.map shown))
      (operands.filterMap literal?) := by
  induction operands with
  | nil => exact .plain rfl
  | cons first rest ih =>
      rw [List.forall_mem_cons] at h
      have hfirst := shown_outside h.1
      have hliterals : (first :: rest).filterMap literal? =
          first.literal?.toList ++ rest.filterMap literal? := by
        rw [List.filterMap_cons]
        cases first.literal? <;> rfl
      rw [hliterals]
      cases rest with
      | nil =>
          rw [List.filterMap_nil, List.append_nil]
          exact hfirst
      | cons second rest =>
          have hcomma := (hfirst.append (fun _ _ => Tidy.append)
            (.plain (show isTidy (ascii ", ") = true by decide))).append
            (fun _ _ => Tidy.append) (ih h.2)
          rwa [List.append_nil] at hcomma

end PrintedOperand

theorem Form.table_mnemonics : ∀ form ∈ Form.table, isTidy (ascii form.mnemonic) = true := by
  decide +kernel

theorem PrintedLine.shown_outside {line : PrintedLine} (hrow : line.form ∈ Form.table)
    (h : ∀ operand ∈ line.operands, operand.IsSpelled) :
    OutsideLiterals (isTidy · = true) line.shown
      (line.operands.filterMap PrintedOperand.literal?) := by
  have hmnemonic := Form.table_mnemonics line.form hrow
  rw [PrintedLine.shown, lineText]
  split
  · rename_i hnone
    rw [List.map_eq_nil_iff.mp (List.isEmpty_iff.mp hnone)]
    exact .plain hmnemonic
  · exact OutsideLiterals.append (fun _ _ => Tidy.append)
      (.plain (Tidy.append hmnemonic (by decide))) (PrintedOperand.commaJoin_outside h)

namespace OperandValue

/-- The text that a value holds. -/
def literal? : OperandValue → Option Bytes
  | .string text => some text
  | _ => none

/-- The places of a value have names as texts spell them. -/
def IsSpelled (value : OperandValue) : Prop :=
  ∀ destination ∈ value.targets, destination.place.IsSpelled

theorem PrintsAs.literals {value : OperandValue} {printed : List PrintedOperand}
    (h : value.PrintsAs printed) :
    printed.filterMap PrintedOperand.literal? = value.literal?.toList := by
  have hnone {α : Type} (values : List α) (toOperand : α → PrintedOperand)
      (htext : ∀ value, (toOperand value).literal? = none) :
      (values.map toOperand).filterMap PrintedOperand.literal? = [] := by
    rw [List.filterMap_map, List.filterMap_eq_nil_iff]
    exact fun value _ => htext value
  cases h with
  | numberList values => exact hnone values _ fun _ => rfl
  | registerList values => exact hnone values _ fun _ => rfl
  | byteList first rest => exact hnone (first :: rest) _ fun _ => rfl
  | _ => rfl

theorem PrintsAs.isSpelled {value : OperandValue} {printed : List PrintedOperand}
    (h : value.PrintsAs printed) (hvalue : value.IsSpelled) :
    ∀ operand ∈ printed, operand.IsSpelled := by
  cases h with
  | target destination =>
      exact List.forall_mem_singleton.mpr (hvalue destination (List.mem_singleton_self _))
  | targetTable keys destinations =>
      refine List.forall_mem_singleton.mpr fun entry hentry => ?_
      obtain ⟨⟨destination, index⟩, hmem, rfl⟩ := List.mem_map.mp hentry
      exact hvalue destination (List.fst_mem_of_mem_zipIdx hmem)
  | numberList | registerList | byteList => exact List.forall_mem_map.mpr fun _ _ => trivial
  | flag => exact List.forall_mem_nil _
  | _ => exact List.forall_mem_singleton.mpr trivial

end OperandValue

namespace Instruction

variable {instruction : Instruction} {form : Form} {operands : List PrintedOperand}

theorem literals_flatten {values : List OperandValue} {pieces : List (List PrintedOperand)}
    (h : List.Forall₂ OperandValue.PrintsAs values pieces) :
    pieces.flatten.filterMap PrintedOperand.literal? = values.filterMap OperandValue.literal? := by
  induction h with
  | nil => rfl
  | @cons value printed values pieces hfirst _ ih =>
      rw [List.flatten_cons, List.filterMap_append, hfirst.literals, List.filterMap_cons, ih]
      cases value.literal? <;> rfl

theorem PrintsAs.literals (h : instruction.PrintsAs form operands) :
    operands.filterMap PrintedOperand.literal? =
      (instruction.operands.map Operand.value).filterMap OperandValue.literal? := by
  cases h with
  | conditional hlayout hcondition hoperands =>
      rw [hoperands]
      rfl
  | @positional pieces hlayout hprints =>
      have hflags (names : List Flag) :
          (names.map PrintedOperand.flag).filterMap PrintedOperand.literal? = [] := by
        rw [List.filterMap_map, List.filterMap_eq_nil_iff]
        exact fun _ _ => rfl
      rw [List.filterMap_append, hflags, List.append_nil, literals_flatten hprints]

theorem PrintsAs.isSpelled (h : instruction.PrintsAs form operands)
    (hspelled : ∀ operand ∈ instruction.operands, operand.value.IsSpelled) :
    ∀ operand ∈ operands, operand.IsSpelled :=
  h.forall_mem (fun _ => trivial) (fun _ => trivial) fun operand hoperand _ hprinted =>
    hprinted.isSpelled (hspelled operand hoperand)

/-- Outside of its literals, the text of an instruction of the table holds no placeholder. -/
theorem OfForm.text_outside (h : instruction.OfForm form)
    (hbytes : ∀ operand ∈ instruction.operands, operand.value ≠ .byteList [])
    (hspelled : ∀ operand ∈ instruction.operands, operand.value.IsSpelled) :
    OutsideLiterals (¬ HasPlaceholder ·) instruction.text
      ((instruction.operands.map Operand.value).filterMap OperandValue.literal?) := by
  obtain ⟨operands, hprints⟩ := h.exists_printsAs hbytes
  have houtside := @PrintedLine.shown_outside ⟨form, operands⟩
    (Form.of_ofOpcode? h.row).1 (hprints.isSpelled hspelled)
  rw [← hprints.literals, hprints.text_eq h.row]
  exact houtside.mono fun _ => Tidy.not_hasPlaceholder

end Instruction

end NovelAsm
