import NovelAsm.Proofs.Disassembly.Formulas
import NovelAsm.Proofs.SyntaxTree.Productions

/-!
Operands as they are printed. Each kind of operand has a text of its own, which is cut into the
tokens of a tree; so a line of them is parsed to these trees.
-/

namespace NovelAsm

open Lexed NovelAsm.Parser

theorem prints_of_isWord {text : Bytes} (h : isWord text = true) :
    Prints text [leaf (wordKind text) text] := by
  cases text with
  | nil => cases h
  | cons first more =>
      rw [isWord, Bool.and_eq_true, List.all_eq_true] at h
      exact prints_word h.1 h.2

/-- A name that is no reserved word and no flag. -/
structure IsLabelName (name : Bytes) : Prop where
  word : isWord name = true
  kind : wordKind name = .identifier
  flag : Flag.ofText? name = none

theorem IsLabelName.prints {name : Bytes} (h : IsLabelName name) :
    Prints name [leaf .identifier name] := h.kind ▸ prints_of_isWord h.word

namespace Place

def tokens : Place → List Token
  | .symbol name => [leaf .identifier name]
  | .address value => [leaf .integerLiteral (ascii "0x" ++ hex 0 value.toNat)]

def tree : Place → SyntaxTree
  | .symbol name => .node .nameExpr [.token (leaf .identifier name)]
  | .address value =>
      .node .literalExpr [.token (leaf .integerLiteral (ascii "0x" ++ hex 0 value.toNat))]

/-- A place whose name, if it has one, can be read as such. -/
def IsNamed (place : Place) : Prop := ∀ name, place = .symbol name → IsLabelName name

theorem written {place : Place} (h : place.IsNamed) :
    Fragment.Written ⟨place.text, false⟩ place.tokens place.tree := by
  cases place with
  | symbol name =>
      exact Fragment.written_of_primary (h name rfl).prints (primary_name (h name rfl).flag)
  | address value =>
      exact Fragment.written_of_primary (prints_hex 0 value.toNat) (primary_literal _ (.inl rfl))

end Place

/-- An operand that the printer writes. -/
inductive PrintedOperand where
  | number (value : Number)
  | register (source : Register)
  | unsigned (value : UInt32)
  | rawByte (value : UInt8)
  | text (value : Bytes)
  | place (value : Place)
  | array (values : List Number)
  | table (cases : List (Int × Place))
  | formula (value : Formula)
  | flag (name : Flag)

namespace PrintedOperand

def caseText (entry : Int × Place) : Bytes :=
  signedDecimal entry.1 ++ ascii " => " ++ entry.2.text

def caseTokens (entry : Int × Place) : List Token :=
  numeralTokens entry.1 ++ arrow :: entry.2.tokens

def caseTree (entry : Int × Place) : SyntaxTree :=
  .node .jumpTableEntry [numeralTree entry.1, .token arrow, entry.2.tree]

/-- The text of an operand. -/
def shown : PrintedOperand → Bytes
  | .number value => value.text
  | .register source => source.name
  | .unsigned value => decimal value.toNat
  | .rawByte value => hexByte value
  | .text value => Literal.quote value
  | .place value => value.text
  | .array values => bracketed (joinNumbers values)
  | .table [] => ascii "\x7b\x7d"
  | .table cases => ascii "\x7b " ++ commaJoin (cases.map caseText) ++ ascii " \x7d"
  | .formula value => value.fragment.text
  | .flag name => ascii name.text

def tokens : PrintedOperand → List Token
  | .number value => value.tokens
  | .register source => [leaf .register source.name]
  | .unsigned value => [leaf .integerLiteral (decimal value.toNat)]
  | .rawByte value => [leaf .integerLiteral (hexByte value)]
  | .text value => [leaf .stringLiteral (Literal.quote value)]
  | .place value => value.tokens
  | .array values => leftBracket :: (commaTokens (values.map Number.tokens) ++ [rightBracket])
  | .table cases => leftBrace :: (commaTokens (cases.map caseTokens) ++ [rightBrace])
  | .formula value => value.tokens
  | .flag name => [leaf .identifier (ascii name.text)]

def tree : PrintedOperand → SyntaxTree
  | .number value => value.tree
  | .register source => .node .registerExpr [.token (leaf .register source.name)]
  | .unsigned value => .node .literalExpr [.token (leaf .integerLiteral (decimal value.toNat))]
  | .rawByte value => .node .literalExpr [.token (leaf .integerLiteral (hexByte value))]
  | .text value => .node .literalExpr [.token (leaf .stringLiteral (Literal.quote value))]
  | .place value => value.tree
  | .array values => .node .arrayLiteral (.token leftBracket ::
      (commaTrees ((values.map Number.tree).map ([·])) ++ [.token rightBracket]))
  | .table cases => .node .jumpTableBlock (.token leftBrace ::
      (commaTrees ((cases.map caseTree).map ([·])) ++ [.token rightBrace]))
  | .formula value => value.tree
  | .flag name => .node .flag [.token (leaf .identifier (ascii name.text))]

def isFlag : PrintedOperand → Bool
  | .flag _ => true
  | _ => false

/-- An operand that can be read: a text stays in its line, and names are such of labels. -/
def IsLegible : PrintedOperand → Prop
  | .text value => byte '\n' ∉ value ∧ byte '\r' ∉ value
  | .place value => value.IsNamed
  | .table cases => ∀ entry ∈ cases, entry.2.IsNamed
  | _ => True

theorem arrow_separates : Separates (ascii "=>") (.mark .fatArrow) :=
  Operator.separates_mark rfl

theorem prints_case {entry : Int × Place} (h : entry.2.IsNamed) :
    Prints (caseText entry) (caseTokens entry) :=
  arrow_separates.prints (prints_signedDecimal entry.1) (Place.written h).prints

theorem part_case {entry : Int × Place} (h : entry.2.IsNamed) :
    CasePart (caseTokens entry) (caseTree entry) :=
  .intro (primary_numeral entry.1).whole (Place.written h).entire

theorem prints_array (values : List Number) :
    Prints (bracketed (joinNumbers values))
      (leftBracket :: (commaTokens (values.map Number.tokens) ++ [rightBracket])) := by
  have hopener (next : UInt8 → Bool) : Cuts next (ascii "[") [leftBracket] :=
    cuts_closed rfl (fun _ => rfl) next
  have hcloser (next : UInt8 → Bool) : Cuts next (ascii "]") [rightBracket] :=
    cuts_closed rfl (fun _ => rfl) next
  cases values with
  | nil =>
      exact ⟨heads_cons (by decide) _,
        (hopener isStop).append (hcloser isStop) (heads_cons (by decide) _)⟩
  | cons first rest =>
      have hinside : List.Forall₂ Prints ((first :: rest).map Number.text)
          ((first :: rest).map Number.tokens) :=
        List.forall₂_map_left_iff.mpr (List.forall₂_map_right_iff.mpr
          (List.forall₂_same.mpr fun value _ => value.prints))
      exact (prints_commaJoin hinside (List.cons_ne_nil _ _)).enclosed (heads_cons (by decide) _)
        (hopener _) (heads_cons (by decide) _) (hcloser _)

theorem prints_table {cases : List (Int × Place)} (h : ∀ entry ∈ cases, entry.2.IsNamed) :
    Prints (PrintedOperand.table cases).shown (PrintedOperand.table cases).tokens := by
  have hopener (next : UInt8 → Bool) : Cuts next (ascii "\x7b") [leftBrace] :=
    cuts_closed rfl (fun _ => rfl) next
  have hcloser (next : UInt8 → Bool) : Cuts next (ascii "\x7d") [rightBrace] :=
    cuts_closed rfl (fun _ => rfl) next
  cases cases with
  | nil =>
      exact ⟨heads_cons (by decide) _,
        (hopener isSolid).append (hcloser isStop) (heads_cons (by decide) _)⟩
  | cons first rest =>
      have hinside : List.Forall₂ Prints ((first :: rest).map caseText)
          ((first :: rest).map caseTokens) :=
        List.forall₂_map_left_iff.mpr (List.forall₂_map_right_iff.mpr
          (List.forall₂_same.mpr fun entry hentry => prints_case (h entry hentry)))
      have hleft : Cuts isSolid (ascii "\x7b ") [leftBrace] :=
        (hopener isStop).append (cuts_blank.mono fun _ => ink_of_solid) blank_stops
      have hright : Cuts isStop (ascii " \x7d") [rightBrace] :=
        cuts_blank.append (hcloser isStop) (heads_cons (by decide) _)
      exact (prints_commaJoin hinside (List.cons_ne_nil _ _)).enclosed (heads_cons (by decide) _)
        hleft (heads_cons (by decide) _) hright

/-- The text of an operand is cut into its tokens. -/
theorem prints {operand : PrintedOperand} (h : operand.IsLegible) :
    Prints operand.shown operand.tokens := by
  cases operand with
  | number value => exact value.prints
  | register source => exact prints_register source
  | unsigned value => exact prints_decimal value.toNat
  | rawByte value => exact prints_hex 2 value.toNat
  | text value => exact prints_quote h
  | place value => exact (Place.written h).prints
  | array values => exact prints_array values
  | table cases => exact prints_table h
  | formula value => exact value.written.prints
  | flag name =>
      cases name with
      | nowait =>
          exact @prints_word (byte 'n') (ascii "owait") (by decide) (List.all_eq_true.mp rfl)
      | interruptable =>
          exact @prints_word (byte 'i') (ascii "nterruptable") (by decide) (List.all_eq_true.mp rfl)

/-- The tokens of an operand are parsed to its tree. -/
theorem part {operand : PrintedOperand} (h : operand.IsLegible) :
    OperandPart operand.isFlag operand.tokens operand.tree := by
  cases operand with
  | number value => exact (Positional.expression value.primary.whole).part
  | register source => exact (Positional.expression (primary_register source.name).whole).part
  | unsigned value => exact (Positional.expression (primary_literal _ (.inl rfl)).whole).part
  | rawByte value => exact (Positional.expression (primary_literal _ (.inl rfl)).whole).part
  | text value => exact (Positional.expression (primary_literal _ (.inr rfl)).whole).part
  | place value => exact (Positional.expression (Place.written h).entire).part
  | array values =>
      exact (Positional.array (List.forall₂_map_left_iff.mpr (List.forall₂_map_right_iff.mpr
        (List.forall₂_same.mpr fun value _ => value.primary.whole)))).part
  | table cases =>
      exact (Positional.table (List.forall₂_map_left_iff.mpr (List.forall₂_map_right_iff.mpr
        (List.forall₂_same.mpr fun entry hentry => part_case (h entry hentry))))).part
  | formula value => exact (Positional.expression value.written.entire).part
  | flag name => exact flag_part (by cases name <;> rfl)

end PrintedOperand

end NovelAsm
