import NovelAsm.Proofs.SyntaxTree.Cursor

/-!
Line ends inside brackets. `Widened` says that tokens are those of another text with line
ends inserted inside brackets, none of them right before an operand of one token: a literal,
a register, or a name that is not called. A line end there becomes the first token of the
operand, and is read in its place. All other line ends inside brackets are layout;
`settle` takes them out, so two texts differ in layout only if they settle to the same tokens.
-/

namespace NovelAsm

namespace Cursor

/-- Whether the first token that is no line end is an operand by itself. -/
def beginsOperand : List Token → Bool
  | [] => false
  | token :: rest =>
      if token.kind == .newline then beginsOperand rest
      else token.kind.isOperandBefore (ahead 1 rest).kind

/-- Tokens at a depth in brackets, without the line ends that are layout. -/
def settle (depth : Nat) : List Token → List Token
  | [] => []
  | token :: rest =>
      if isBreak depth token && !beginsOperand rest then settle depth rest
      else token :: settle (token.kind.depthBehind depth) rest

attribute [local simp] beginsOperand settle

/-- Tokens at a depth in brackets with line ends inserted into brackets, none of them before an
operand of one token. -/
inductive Widened : Nat → List Token → List Token → Prop
  | nil {depth : Nat} : Widened depth [] []
  | keep {depth : Nat} {token : Token} {tokens wider : List Token}
      (behind : Widened (token.kind.depthBehind depth) tokens wider) :
      Widened depth (token :: tokens) (token :: wider)
  | insert {depth : Nat} {token : Token} {tokens wider : List Token} (inside : 0 < depth)
      (lineEnd : token.kind = .newline)
      (layout : beginsOperand (wider.filter fun other => !other.isTrivia) = false)
      (behind : Widened depth tokens wider) : Widened depth tokens (token :: wider)

theorem widened_nil_iff {depth : Nat} {tokens : List Token} :
    Widened depth tokens [] ↔ tokens = [] := by
  constructor
  · intro h
    cases h
    rfl
  · rintro rfl
    exact .nil

theorem widened_cons_iff {depth : Nat} {token : Token} {tokens wider : List Token} :
    Widened depth tokens (token :: wider) ↔
      (tokens.head? = some token ∧
          Widened (token.kind.depthBehind depth) tokens.tail wider) ∨
        ((0 < depth ∧ token.kind = .newline ∧
            beginsOperand (wider.filter fun other => !other.isTrivia) = false) ∧
          Widened depth tokens wider) := by
  constructor
  · intro h
    cases h with
    | keep behind => exact .inl ⟨rfl, behind⟩
    | insert inside lineEnd layout behind => exact .inr ⟨⟨inside, lineEnd, layout⟩, behind⟩
  · rintro (⟨hhead, hbehind⟩ | ⟨⟨hinside, hkind, hlayout⟩, hbehind⟩)
    · obtain ⟨rest, rfl⟩ := List.head?_eq_some_iff.mp hhead
      exact .keep hbehind
    · exact .insert hinside hkind hlayout hbehind

instance decidableWidened (depth : Nat) (tokens wider : List Token) :
    Decidable (Widened depth tokens wider) :=
  match wider with
  | [] => decidable_of_iff _ widened_nil_iff.symm
  | token :: wider =>
      have := decidableWidened (token.kind.depthBehind depth) tokens.tail wider
      have := decidableWidened depth tokens wider
      decidable_of_iff _ widened_cons_iff.symm

theorem ahead_of_pos {depth : Nat} (h : 0 < depth) (tokens : List Token) :
    ahead depth tokens = ahead 1 tokens := by
  simp [ahead, isBreak, h]

theorem ahead_cons_break {depth : Nat} {token : Token} (h : isBreak depth token = true)
    (rest : List Token) : ahead depth (token :: rest) = ahead depth rest := by
  simp [ahead, h]

theorem ahead_cons_of_not_break {depth : Nat} {token : Token} (h : isBreak depth token = false)
    (rest : List Token) : ahead depth (token :: rest) = token := by
  simp [ahead, h]

theorem isBreak_of_newline {depth : Nat} {token : Token} (hdepth : 0 < depth)
    (hkind : token.kind = .newline) : isBreak depth token = true := by
  simp [isBreak, hdepth, hkind]

theorem depthBehind_newline {depth : Nat} {token : Token} (h : token.kind = .newline) :
    token.kind.depthBehind depth = depth := by
  rw [h]
  rfl

theorem beginsOperand_cons_newline {token : Token} (h : token.kind = .newline)
    (rest : List Token) : beginsOperand (token :: rest) = beginsOperand rest := by
  simp [h]

theorem beginsOperand_breaks {depth : Nat} {front : List Token}
    (h : ∀ token ∈ front, isBreak depth token = true) (rest : List Token) :
    beginsOperand (front ++ rest) = beginsOperand rest := by
  induction front with
  | nil => rfl
  | cons token front ih =>
      have htoken := kind_of_isBreak (h token (List.mem_cons_self ..))
      rw [List.cons_append, beginsOperand_cons_newline htoken]
      exact ih fun other hother => h other (List.mem_cons_of_mem _ hother)

section Widening

/-- The tokens of a text that a parser looks at. -/
def significant (tokens : List Token) : List Token := tokens.filter fun token => !token.isTrivia

variable {depth : Nat} {tokens wider : List Token}

theorem significant_cons (token : Token) (rest : List Token) :
    significant (token :: rest) =
      if token.isTrivia then significant rest else token :: significant rest := by
  cases h : token.isTrivia <;> simp [significant, h]

theorem not_isTrivia_of_newline {token : Token} (h : token.kind = .newline) :
    token.isTrivia = false := by
  simp [Token.isTrivia, h, TokenKind.isTrivia]

theorem depthBehind_trivia {token : Token} (h : token.isTrivia = true) :
    token.kind.depthBehind depth = depth := by
  cases hkind : token.kind with
  | trivia _ => rfl
  | _ => simp [Token.isTrivia, hkind, TokenKind.isTrivia] at h

/-- Line ends make no difference to the first token that is none. -/
theorem Widened.ahead_eq (h : Widened depth tokens wider) :
    ahead 1 (significant wider) = ahead 1 (significant tokens) := by
  induction h with
  | nil => rfl
  | @keep depth token tokens wider _ ih =>
      rw [significant_cons, significant_cons]
      split
      · exact ih
      · cases hbreak : isBreak 1 token with
        | true => rw [ahead_cons_break hbreak, ahead_cons_break hbreak, ih]
        | false => rw [ahead_cons_of_not_break hbreak, ahead_cons_of_not_break hbreak]
  | @insert depth token tokens wider _ hkind _ _ ih =>
      rw [significant_cons, not_isTrivia_of_newline hkind, if_neg Bool.false_ne_true,
        ahead_cons_break (isBreak_of_newline Nat.one_pos hkind), ih]

theorem Widened.beginsOperand_eq (h : Widened depth tokens wider) :
    beginsOperand (significant wider) = beginsOperand (significant tokens) := by
  induction h with
  | nil => rfl
  | @keep depth token tokens wider hbehind ih =>
      rw [significant_cons, significant_cons]
      split
      · exact ih
      · rw [beginsOperand, beginsOperand, ih, hbehind.ahead_eq]
  | @insert depth token tokens wider _ hkind _ _ ih =>
      rw [significant_cons, not_isTrivia_of_newline hkind, if_neg Bool.false_ne_true,
        beginsOperand_cons_newline hkind, ih]

/-- Inserted line ends are layout. -/
theorem Widened.settle_eq (h : Widened depth tokens wider) :
    settle depth (significant wider) = settle depth (significant tokens) := by
  induction h with
  | nil => rfl
  | @keep depth token tokens wider hbehind ih =>
      rw [significant_cons, significant_cons]
      split
      · rename_i htrivia
        rwa [depthBehind_trivia htrivia] at ih
      · rw [settle, settle, hbehind.beginsOperand_eq]
        split
        · rename_i hlayout
          have hkind := kind_of_isBreak ((Bool.and_eq_true _ _).mp hlayout).1
          rwa [depthBehind_newline hkind] at ih
        · rw [ih]
  | @insert depth token tokens wider hinside hkind hlayout _ ih =>
      have hbreak := isBreak_of_newline hinside hkind
      have hnone : beginsOperand (significant wider) = false := hlayout
      rw [significant_cons, not_isTrivia_of_newline hkind, if_neg Bool.false_ne_true, settle,
        hbreak, hnone]
      exact ih

end Widening

/-- Settled tokens have the same token ahead. -/
theorem ahead_settle (depth : Nat) (tokens : List Token) :
    ahead depth (settle depth tokens) = ahead depth tokens := by
  induction tokens with
  | nil => rfl
  | cons token rest ih =>
      rw [settle]
      cases hbreak : isBreak depth token with
      | false =>
          rw [Bool.false_and, if_neg Bool.false_ne_true, ahead_cons_of_not_break hbreak,
            ahead_cons_of_not_break hbreak]
      | true =>
          rw [ahead_cons_break hbreak]
          split
          · exact ih
          · rw [ahead_cons_break hbreak, depthBehind_newline (kind_of_isBreak hbreak), ih]

/-- Line ends in front are kept all or none. -/
theorem settle_breaks {depth : Nat} {front : List Token}
    (h : ∀ token ∈ front, isBreak depth token = true) (rest : List Token) :
    settle depth (front ++ rest) =
      (if beginsOperand rest then front else []) ++ settle depth rest := by
  induction front with
  | nil => simp
  | cons token front ih =>
      have htoken := h token (List.mem_cons_self ..)
      have hfront := ih fun other hother => h other (List.mem_cons_of_mem _ hother)
      have hbegins := beginsOperand_breaks
        (fun other hother => h other (List.mem_cons_of_mem _ hother)) rest
      rw [List.cons_append, settle, htoken, hbegins, depthBehind_newline (kind_of_isBreak htoken),
        hfront]
      cases beginsOperand rest <;> simp

theorem settle_cons_of_not_break {depth : Nat} {token : Token} (h : isBreak depth token = false)
    (rest : List Token) :
    settle depth (token :: rest) = token :: settle (token.kind.depthBehind depth) rest := by
  rw [settle, h, Bool.false_and, if_neg Bool.false_ne_true]

/-- Line ends and the next token, settled. -/
theorem settle_front {depth : Nat} {front : List Token} {token : Token}
    (hfront : ∀ other ∈ front, isBreak depth other = true) (htoken : isBreak depth token = false)
    (rest : List Token) :
    settle depth (front ++ token :: rest) =
      (if beginsOperand (token :: rest) then front else []) ++
        token :: settle (token.kind.depthBehind depth) rest := by
  rw [settle_breaks hfront, settle_cons_of_not_break htoken]

/-- Inside brackets a line end before an operand is part of what is settled. -/
theorem beginsOperand_cons {depth : Nat} {token : Token} (hdepth : 0 < depth)
    (htoken : isBreak depth token = false) (rest : List Token) :
    beginsOperand (token :: rest) = token.kind.isOperandBefore (ahead depth rest).kind := by
  have hkind : token.kind ≠ .newline := fun hkind => by
    rw [isBreak_of_newline hdepth hkind] at htoken
    cases htoken
  simp [hkind, ahead_of_pos hdepth]

end Cursor

end NovelAsm
