import NovelAsm.Literal.Integer
import NovelAsm.Literal.Quoted
import NovelAsm.Literal.Real
import NovelAsm.Resolve.Problem
import NovelAsm.Routine
import NovelAsm.SyntaxTree

/-!
Reading expressions off a syntax tree. What a name means depends on where it
stands, and finding out may itself take work, so the reading is given a `Naming`:
how to look up a name and a register, how to report, and where the text begins.
The naming acts on a state of its own, which the reading only hands on.
-/

namespace NovelAsm

/-- What a name stands for. `broken` is a definition without a value; the reason has been
reported where it was found. -/
inductive Meaning where
  | value (value : Value)
  | broken
  | symbol (symbol : Symbol)
  | undefined

structure Naming (σ : Type) where
  report : Diagnostic → σ → σ
  /-- What a name at a span stands for. -/
  meaning : Bytes → Span → StateM σ Meaning
  /-- The register of a name at a span; it reports why there is none. -/
  register? : Bytes → Span → StateM σ (Option Register)
  /-- Where the text begins that the tree was read from. -/
  base : Location

namespace Naming

variable {σ : Type}

def complain (naming : Naming σ) (problem : NameProblem) (span : Span) : StateM σ PUnit :=
  modify (naming.report (problem.diagnose span))

def spanOf (naming : Naming σ) (tree : SyntaxTree) : Span := tree.span.rebase naming.base

/-- The expression for a literal token. -/
def readLiteral (naming : Naming σ) (token : Token) (span : Span) : StateM σ Expr := do
  match token.kind with
  | .stringLiteral =>
      -- What is wrong with a string was reported when the token was cut.
      return match Literal.string? token.text with
        | some text => .string span text
        | none => .error span
  | .realLiteral =>
      match Literal.real? token.text with
      | some scaled => return .literal span ⟨Int32.ofInt scaled, .real⟩
      | none =>
          naming.complain (.realOutOfRange token.text) span
          return .error span
  | _ =>
      match Literal.integer? token.text with
      | some value => return .literal span ⟨Int32.ofInt value, .integer⟩
      | none =>
          naming.complain (.integerOutOfRange token.text) span
          return .error span

/-- The expression for a name. -/
def readName (naming : Naming σ) (name : Bytes) (span : Span) : StateM σ Expr := do
  match ← naming.meaning name span with
  | .value value => return .literal span value
  | .broken => return .error span
  | .symbol symbol => return .codeAddress span symbol.name symbol.kind symbol.parameterCount
  | .undefined =>
      naming.complain (.undefinedSymbol name) span
      return .error span

def readRegister (naming : Naming σ) (name : Bytes) (span : Span) : StateM σ Expr := do
  match ← naming.register? name span with
  | some register => return .register span register name
  | none => return .error span

def unaryOperator : TokenKind → UnaryOperator
  | .mark .minus => .negate
  | .mark .tilde => .bitNot
  | _ => .logicalNot

def binaryOperator? : TokenKind → Option BinaryOperator
  | .mark .plus => some .add
  | .mark .minus => some .subtract
  | .mark .asterisk => some .multiply
  | .mark .slash => some .divide
  | .keyword .division => some .integerDivide
  | .keyword .modulo => some .modulo
  | .mark .dotAsterisk => some .multiplyReal
  | .mark .dotSlash => some .divideReal
  | .mark .shiftLeft => some .shiftLeft
  | .mark .shiftRight => some .shiftRight
  | .mark .ampersand => some .bitAnd
  | .mark .pipe => some .bitOr
  | .mark .caret => some .bitXor
  | .mark .doubleEquals => some .equal
  | .mark .bangEquals => some .notEqual
  | .mark .lessThan => some .less
  | .mark .lessEquals => some .lessEqual
  | .mark .greaterThan => some .greater
  | .mark .greaterEquals => some .greaterEqual
  | .mark .doubleAmpersand => some .logicalAnd
  | .mark .doublePipe => some .logicalOr
  | _ => none

/-- The operator among the children of a node. -/
def operator? (tree : SyntaxTree) : Option TokenKind :=
  (tree.tokens.find? (·.kind != .newline)).map Token.kind

/-- The intrinsic that a node calls, or the name that it calls in vain. -/
def callee? (tree : SyntaxTree) : Option (Bytes × Option Intrinsic) :=
  (tree.firstToken? .identifier).map fun token => (token.text, Intrinsic.ofName? token.text)

mutual

/-- The expression that a tree stands for. -/
def read (naming : Naming σ) : SyntaxTree → StateM σ Expr
  | .token leaf => return .error (leaf.span.rebase naming.base)
  | .node kind children => do
      let tree := SyntaxTree.node kind children
      let span := naming.spanOf tree
      match kind with
      | .literalExpr =>
          match tree.firstSignificant? with
          | some token => naming.readLiteral token span
          | none => return .error span
      | .registerExpr =>
          match tree.firstSignificant? with
          | some token => naming.readRegister token.text span
          | none => return .error span
      | .nameExpr =>
          match tree.firstSignificant? with
          | some token => naming.readName token.text span
          | none => return .error span
      | .parenExpr => return (← readAll naming children).headD (.error span)
      | .unaryExpr =>
          match operator? tree, ← readAll naming children with
          | some operator, operand :: _ => return .unary span (unaryOperator operator) operand
          | _, _ => return .error span
      | .binaryExpr =>
          match (operator? tree).bind binaryOperator?, ← readAll naming children with
          | some operator, [left, right] => return .binary span operator left right
          | _, _ => return .error span
      | .callExpr =>
          match callee? tree with
          | none => return .error span
          | some (name, none) =>
              naming.complain (.unknownIntrinsic name) span
              return .error span
          | some (_, some intrinsic) =>
              return .call span intrinsic (← readAll naming children)
      | _ => return .error span

/-- The expressions that the nodes among some trees stand for. -/
def readAll (naming : Naming σ) : List SyntaxTree → StateM σ (List Expr)
  | [] => return []
  | .token _ :: rest => readAll naming rest
  | .node kind children :: rest => do
      let first ← read naming (.node kind children)
      return first :: (← readAll naming rest)

end

/-- One case of a table jump. A part that is missing is an error. -/
def readCase (naming : Naming σ) (entry : SyntaxTree) : StateM σ TableCase := do
  let span := naming.spanOf entry
  let parts ← naming.readAll entry.children
  return ⟨parts.headD (.error span), parts.getD 1 (.error span), span⟩

/-- The operand that a tree stands for. -/
def readArgument (naming : Naming σ) (tree : SyntaxTree) : StateM σ Argument := do
  let span := naming.spanOf tree
  match tree.kind? with
  | some .flag =>
      match tree.firstSignificant?.bind fun token => Flag.ofText? token.text with
      | some flag => return .flag span flag
      | none => return .expression span (.error span)
  | some .arrayLiteral => return .array span (← naming.readAll tree.children)
  | some .jumpTableBlock => return .jumpTable span (← tree.childNodes.mapM naming.readCase)
  | _ => return .expression span (← naming.read tree)

end Naming

end NovelAsm
