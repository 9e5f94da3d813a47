import NovelAsm.Resolve.Reading
import NovelAsm.Proofs.Erasure.Expressions
import NovelAsm.Proofs.SyntaxTree.Core

/-!
Reading without places. A tree and its core are read alike by namings that themselves do not
look at places: the core stands for the same expression, without its places.
-/

namespace NovelAsm

variable {front : Diagnostics}

/-- A symbol without its place. -/
def Symbol.bare (symbol : Symbol) : Symbol := { symbol with span := .origin }

namespace NameProblem

@[simp] theorem bare_diagnose (problem : NameProblem) (span : Span) :
    (problem.diagnose span).bare = problem.diagnose .origin := rfl

@[simp] theorem bare_diagnoseDuplicate (problem : NameProblem) (span first : Span) :
    (problem.diagnoseDuplicate span first).bare = problem.diagnoseDuplicate .origin .origin := by
  simp [diagnoseDuplicate]

theorem report_erases (problem : NameProblem) (span : Span) :
    Erases (Diagnostics.bareBehind front) id (problem.report span) (problem.report .origin) :=
  Reporting.report_erases (problem.diagnose span)

end NameProblem

namespace Meaning

/-- A meaning without places. -/
def bare : Meaning → Meaning
  | .symbol found => .symbol found.bare
  | meaning => meaning

end Meaning

/-- A case without places. -/
def TableCase.bare (tableCase : TableCase) : TableCase :=
  ⟨tableCase.key.bare, tableCase.target.bare, .origin⟩

namespace Argument

/-- An operand without places. -/
def bare : Argument → Argument
  | .expression _ value => .expression .origin value.bare
  | .flag _ name => .flag .origin name
  | .array _ elements => .array .origin (elements.map Expr.bare)
  | .jumpTable _ cases => .jumpTable .origin (cases.map TableCase.bare)

@[simp] theorem span_bare (argument : Argument) : argument.bare.span = .origin := by
  cases argument <;> rfl

@[simp] theorem bare_bare (argument : Argument) : argument.bare.bare = argument.bare := by
  cases argument <;> simp [bare, TableCase.bare]

end Argument

namespace Naming

variable {σ : Type} {state : σ → σ} {naming other : Naming σ}

/-- Namings that give the same meanings without places. -/
structure Bares (state : σ → σ) (naming other : Naming σ) : Prop where
  base : other.base = .origin
  report : ∀ diagnostic start,
    other.report (Diagnostic.bare diagnostic) (state start) = state (naming.report diagnostic start)
  meaning : ∀ name span,
    Erases state Meaning.bare (naming.meaning name span) (other.meaning name .origin)
  register : ∀ name span,
    Erases state id (naming.register? name span) (other.register? name .origin)

section Parts

variable (h : Bares state naming other)

include h

theorem spanOf_core (tree : SyntaxTree) : other.spanOf tree.core = .origin := by
  rw [spanOf, SyntaxTree.span_core, h.base]
  rfl

theorem complain_erases (problem : NameProblem) (span : Span) :
    Erases state id (naming.complain problem span) (other.complain problem .origin) :=
  Erases.modify fun start => by rw [← h.report, NameProblem.bare_diagnose]

theorem readLiteral_erases (token : Token) (span : Span) :
    Erases state Expr.bare (naming.readLiteral token span)
      (other.readLiteral token.bare .origin) := by
  simp only [readLiteral, Token.kind_bare, Token.text_bare]
  split
  · apply Erases.pure
    cases Literal.string? token.text <;> simp only [Expr.bare]
  · split
    · exact Erases.pure (by simp only [Expr.bare])
    · exact (complain_erases h _ span).bind fun _ => Erases.pure (by simp only [Expr.bare])
  · split
    · exact Erases.pure (by simp only [Expr.bare])
    · exact (complain_erases h _ span).bind fun _ => Erases.pure (by simp only [Expr.bare])

theorem readName_erases (name : Bytes) (span : Span) :
    Erases state Expr.bare (naming.readName name span) (other.readName name .origin) := by
  refine (h.meaning name span).bind fun meaning => ?_
  cases meaning with
  | value | broken => exact Erases.pure (by simp only [Expr.bare])
  | symbol found => exact Erases.pure (by simp only [Expr.bare]; rfl)
  | undefined =>
      exact (complain_erases h _ span).bind fun _ => Erases.pure (by simp only [Expr.bare])

theorem readRegister_erases (name : Bytes) (span : Span) :
    Erases state Expr.bare (naming.readRegister name span) (other.readRegister name .origin) := by
  refine (h.register name span).bind fun register => ?_
  cases register <;> exact Erases.pure (by simp only [Expr.bare])

end Parts

theorem operator?_core (tree : SyntaxTree) : operator? tree.core = operator? tree := by
  rw [operator?, SyntaxTree.tokens_core, SyntaxTree.find?_map_bare _ _ fun _ => rfl, operator?,
    Option.map_map]
  rfl

theorem callee?_core (tree : SyntaxTree) : callee? tree.core = callee? tree := by
  rw [callee?, SyntaxTree.firstToken?_core, callee?, Option.map_map]
  rfl

mutual

/-- The core of a tree stands for the expression of the tree without its places. -/
theorem read_erases (h : Bares state naming other) : ∀ tree : SyntaxTree,
    Erases state Expr.bare (naming.read tree) (other.read tree.core)
  | .token leaf => by
      simp only [SyntaxTree.core, read, h.base]
      exact Erases.pure (by simp [Expr.bare])
  | .node kind children => by
      have hall := readAll_erases h children
      have hfirst := SyntaxTree.firstSignificant?_core (.node kind children)
      have hspan := spanOf_core h (.node kind children)
      have hoperator := operator?_core (.node kind children)
      have hcallee := callee?_core (.node kind children)
      rw [SyntaxTree.core_node] at hfirst hspan hoperator hcallee ⊢
      have herror (span : Span) : Erases state Expr.bare (pure (.error span))
          (pure (.error .origin)) := Erases.pure (by simp only [Expr.bare])
      simp only [read, hfirst, hspan, hoperator, hcallee]
      cases kind with
      | literalExpr =>
          cases (SyntaxTree.node .literalExpr children).firstSignificant? with
          | none => exact herror _
          | some token => exact readLiteral_erases h token _
      | registerExpr =>
          cases (SyntaxTree.node .registerExpr children).firstSignificant? with
          | none => exact herror _
          | some token => exact readRegister_erases h token.text _
      | nameExpr =>
          cases (SyntaxTree.node .nameExpr children).firstSignificant? with
          | none => exact herror _
          | some token => exact readName_erases h token.text _
      | parenExpr =>
          refine hall.map fun values => ?_
          cases values <;> simp [Expr.bare]
      | unaryExpr =>
          refine hall.bind fun values => ?_
          cases operator? (.node .unaryExpr children) with
          | none => exact herror _
          | some operator =>
              cases values with
              | nil => exact herror _
              | cons operand rest => exact Erases.pure (by simp only [Expr.bare])
      | binaryExpr =>
          refine hall.bind fun values => ?_
          cases (operator? (.node .binaryExpr children)).bind binaryOperator? with
          | none => exact herror _
          | some operator =>
              match values with
              | [left, right] => exact Erases.pure (by simp only [Expr.bare])
              | [] | [_] | _ :: _ :: _ :: _ => exact herror _
      | callExpr =>
          cases callee? (.node .callExpr children) with
          | none => exact herror _
          | some callee =>
              obtain ⟨name, intrinsic⟩ := callee
              cases intrinsic with
              | none => exact (complain_erases h _ _).bind fun _ => herror _
              | some intrinsic =>
                  exact hall.map fun values => by simp only [Expr.bare, Expr.bareAll_eq]
      | _ => exact herror _

theorem readAll_erases (h : Bares state naming other) : ∀ trees : List SyntaxTree,
    Erases state (List.map Expr.bare) (naming.readAll trees)
      (other.readAll (SyntaxTree.coreAll trees))
  | [] => by
      simp only [SyntaxTree.coreAll, readAll]
      exact Erases.pure rfl
  | .token leaf :: rest => by
      have hrest := readAll_erases h rest
      simp only [SyntaxTree.coreAll]
      split
      · simp only [readAll]
        exact hrest
      · simp only [readAll]
        exact hrest
  | .node kind children :: rest => by
      have hfirst := read_erases h (.node kind children)
      have hrest := readAll_erases h rest
      rw [SyntaxTree.core_node] at hfirst
      simp only [SyntaxTree.coreAll, readAll]
      exact hfirst.bind fun value => hrest.map fun values => rfl

end

theorem readCase_erases (h : Bares state naming other) (entry : SyntaxTree) :
    Erases state TableCase.bare (naming.readCase entry) (other.readCase entry.core) := by
  have hall := readAll_erases h entry.children
  rw [← SyntaxTree.children_core] at hall
  simp only [readCase, spanOf_core h]
  refine hall.map fun parts => ?_
  match parts with
  | [] | [_] | _ :: _ :: _ => simp [TableCase.bare, Expr.bare]

/-- The core of a tree stands for the operand of the tree without its places. -/
theorem readArgument_erases (h : Bares state naming other) (tree : SyntaxTree) :
    Erases state Argument.bare (naming.readArgument tree) (other.readArgument tree.core) := by
  have hread := read_erases h tree
  have hall := readAll_erases h tree.children
  have hcases : Erases state (List.map TableCase.bare) (tree.childNodes.mapM naming.readCase)
      (tree.core.childNodes.mapM other.readCase) := by
    rw [SyntaxTree.childNodes_core]
    exact Erases.mapM fun entry _ => readCase_erases h entry
  have hflag : ((tree.core.firstSignificant?).bind fun token => Flag.ofText? token.text) =
      tree.firstSignificant?.bind fun token => Flag.ofText? token.text := by
    rw [SyntaxTree.firstSignificant?_core, Option.bind_map]
    rfl
  rw [← SyntaxTree.children_core] at hall
  simp only [readArgument, spanOf_core h, SyntaxTree.kind?_core, hflag]
  split
  · split
    · exact Erases.pure rfl
    · exact Erases.pure (by simp only [Argument.bare, Expr.bare])
  · exact hall.map fun values => rfl
  · exact hcases.map fun values => rfl
  · exact hread.map fun value => rfl

end Naming

end NovelAsm
