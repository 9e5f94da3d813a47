import NovelAsm.Proofs.Disassembly.Operands

/-!
Lines of instructions as they are printed: a mnemonic of the table and operands behind it, flags
last. Such a line is cut into the tokens of one item, whatever stands in the lines below it.
-/

namespace NovelAsm

open Lexed NovelAsm.Parser

/-- A mnemonic with the texts of operands behind it. -/
def lineText (mnemonic : Bytes) (texts : List Bytes) : Bytes :=
  if texts.isEmpty then mnemonic else mnemonic ++ ascii " " ++ commaJoin texts

/-- An instruction as it is printed. -/
structure PrintedLine where
  form : Form
  operands : List PrintedOperand

namespace PrintedLine

def mnemonic (line : PrintedLine) : Bytes := ascii line.form.mnemonic

/-- The text of an instruction. -/
def shown (line : PrintedLine) : Bytes :=
  lineText line.mnemonic (line.operands.map PrintedOperand.shown)

def word (line : PrintedLine) : Token := leaf (wordKind line.mnemonic) line.mnemonic

def tokens (line : PrintedLine) : List Token :=
  line.word :: commaTokens (line.operands.map PrintedOperand.tokens)

def tree (line : PrintedLine) : SyntaxTree :=
  match line.operands.map fun operand => [operand.tree] with
  | [] => .node .instruction [.token line.word]
  | trees => .node .instruction [.token line.word, .node .argumentList (commaTrees trees)]

/-- A line that can be read: its flags stand last. -/
structure IsLegible (line : PrintedLine) : Prop where
  row : line.form ∈ Form.table
  operands : ∀ operand ∈ line.operands, operand.IsLegible
  flagsLast : (line.operands.map PrintedOperand.isFlag).Pairwise (· ≤ ·)

instance (kind : TokenKind) : Decidable (IsMnemonic kind) :=
  inferInstanceAs (Decidable (_ ∨ _ ∨ _))

theorem isWord_mnemonic : ∀ form ∈ Form.table, isWord (ascii form.mnemonic) = true ∧
    IsMnemonic (wordKind (ascii form.mnemonic)) := by decide +kernel

variable {line : PrintedLine}

/-- The text of a line is cut into its tokens. -/
theorem prints (h : line.IsLegible) : Prints line.shown line.tokens := by
  have hword : Prints line.mnemonic [line.word] := prints_of_isWord (isWord_mnemonic _ h.row).1
  have hoperands : List.Forall₂ Prints (line.operands.map PrintedOperand.shown)
      (line.operands.map PrintedOperand.tokens) :=
    List.forall₂_map_left_iff.mpr (List.forall₂_map_right_iff.mpr
      (List.forall₂_same.mpr fun operand hoperand =>
        PrintedOperand.prints (h.operands operand hoperand)))
  rw [shown, lineText, tokens]
  split
  · rename_i hnone
    rw [List.isEmpty_iff.mp hnone, List.forall₂_nil_left_iff] at hoperands
    rw [hoperands]
    exact hword
  · rename_i hsome
    have htexts := prints_commaJoin hoperands (fun h => hsome (List.isEmpty_iff.mpr h))
    have hall := (hword.cuts.append cuts_blank blank_stops).append htexts.cuts
      (htexts.heads.mono fun _ => ink_of_solid)
    exact ⟨(hword.heads.append _).append _, hall⟩

def written (operand : PrintedOperand) : WrittenOperand :=
  ⟨operand.isFlag, operand.tokens, operand.tree⟩

/-- The tokens of a line are parsed to its tree. -/
theorem yields (h : line.IsLegible) {rest : List Token} (hrest : Begins .newline 0 rest) :
    Yields Parser.item 0 line.tokens rest [line.tree] () := by
  have hmnemonic : IsMnemonic line.word.kind := (isWord_mnemonic _ h.row).2
  rw [tokens, tree]
  cases hline : line.operands with
  | nil =>
      exact Yields.line hmnemonic hrest (by decide)
        (Yields.bare_instruction hmnemonic.visible hrest)
  | cons first others =>
      have hparses : ∀ operand ∈ line.operands.map written, operand.Parses := by
        intro operand hoperand
        obtain ⟨printed, hprinted, rfl⟩ := List.mem_map.mp hoperand
        exact PrintedOperand.part (h.operands printed hprinted)
      have hne : line.operands.map written ≠ [] := by simp [hline]
      have horder : ((line.operands.map written).map WrittenOperand.isFlag).Pairwise (· ≤ ·) := by
        rw [List.map_map]
        exact h.flagsLast
      obtain ⟨kind, hkind, hopens⟩ := begins_operands hparses hne rest
      have hcolon : kind ≠ .mark .colon := by
        rintro rfl
        cases hopens
      have hinstruction := Yields.line hmnemonic hkind hcolon
        (Yields.instruction hmnemonic.visible hparses hne horder hkind hopens hrest)
      rw [List.map_map, List.map_map, hline] at hinstruction
      exact hinstruction

/-- A line is one item of a text. -/
theorem takesItem (h : line.IsLegible) {rest : List Token} (hrest : Begins .newline 0 rest)
    (hproper : Proper (line.tokens ++ rest)) : TakesItem line.tokens rest line.tree :=
  (yields h hrest).takesItem hproper rfl

end PrintedLine

end NovelAsm
