import NovelAsm.Token

/-!
Syntax trees. A tree is lossless: its leaves, read from left to right, are all
tokens of the source, trivia and the token at the end included. What a tree
means rests on its significant leaves alone; the views below (`span`, `tokens`,
`childNodes`) leave the others out.
-/

namespace NovelAsm

inductive SyntaxKind where
  | sourceFile
  | label
  | functionDefinition
  | parameterList
  | preservedRangeList
  | registerRange
  | subroutineDefinition
  | definition
  | instruction
  | argumentList
  | flag
  | jumpTableBlock
  | jumpTableEntry
  | arrayLiteral
  | literalExpr
  | registerExpr
  | nameExpr
  | parenExpr
  | unaryExpr
  | binaryExpr
  | callExpr
  | error
deriving DecidableEq, Repr

def SyntaxKind.name : SyntaxKind → String
  | .sourceFile => "SourceFile"
  | .label => "Label"
  | .functionDefinition => "FunctionDef"
  | .parameterList => "ParameterList"
  | .preservedRangeList => "PreservedRangeList"
  | .registerRange => "RegisterRange"
  | .subroutineDefinition => "SubroutineDef"
  | .definition => "Definition"
  | .instruction => "Instruction"
  | .argumentList => "ArgumentList"
  | .flag => "Flag"
  | .jumpTableBlock => "JumpTableBlock"
  | .jumpTableEntry => "JumpTableEntry"
  | .arrayLiteral => "ArrayLiteral"
  | .literalExpr => "LiteralExpr"
  | .registerExpr => "RegisterExpr"
  | .nameExpr => "NameExpr"
  | .parenExpr => "ParenExpr"
  | .unaryExpr => "UnaryExpr"
  | .binaryExpr => "BinaryExpr"
  | .callExpr => "CallExpr"
  | .error => "ErrorNode"

inductive SyntaxTree where
  | token (leaf : Token)
  | node (kind : SyntaxKind) (children : List SyntaxTree)

instance : Inhabited SyntaxTree := ⟨.node .error []⟩

/-- A token that is neither trivia nor the end of the text. -/
def Token.isSignificant (token : Token) : Bool :=
  !token.isTrivia && token.kind != .endOfFile

namespace SyntaxTree

mutual

/-- The tokens of a tree from left to right. -/
def leaves : SyntaxTree → List Token
  | .token leaf => [leaf]
  | .node _ children => leavesOf children

/-- The tokens of neighbouring trees from left to right. -/
def leavesOf : List SyntaxTree → List Token
  | [] => []
  | tree :: rest => leaves tree ++ leavesOf rest

end

theorem leavesOf_append (trees more : List SyntaxTree) :
    leavesOf (trees ++ more) = leavesOf trees ++ leavesOf more := by
  induction trees with
  | nil => simp [leavesOf]
  | cons tree rest ih => simp only [List.cons_append, leavesOf, ih, List.append_assoc]

theorem leavesOf_tokens (tokens : List Token) : leavesOf (tokens.map token) = tokens := by
  induction tokens with
  | nil => simp [leavesOf]
  | cons first rest ih => simp [leavesOf, leaves, ih]

/-- The source text of a tree. -/
def text (tree : SyntaxTree) : Bytes := tree.leaves.flatMap Token.text

def firstSignificant? (tree : SyntaxTree) : Option Token :=
  tree.leaves.find? Token.isSignificant

/-- The last significant token; a line end does not count. -/
def lastSignificant? (tree : SyntaxTree) : Option Token :=
  tree.leaves.reverse.find? fun token => token.isSignificant && token.kind != .newline

/-- From the first significant token to the last one. -/
def span (tree : SyntaxTree) : Span :=
  match tree.firstSignificant?, tree.lastSignificant? with
  | some first, some last => first.span.join last.span
  | _, _ => .origin

def kind? : SyntaxTree → Option SyntaxKind
  | .token _ => none
  | .node kind _ => some kind

def isNode (tree : SyntaxTree) : Bool := tree.kind?.isSome

def children : SyntaxTree → List SyntaxTree
  | .token _ => []
  | .node _ children => children

/-- The children that are not tokens. -/
def childNodes (tree : SyntaxTree) : List SyntaxTree := tree.children.filter isNode

def firstChild? (tree : SyntaxTree) (kind : SyntaxKind) : Option SyntaxTree :=
  tree.children.find? (·.kind? == some kind)

/-- The significant tokens among the children, line ends included. -/
def tokens (tree : SyntaxTree) : List Token :=
  tree.children.filterMap fun
    | .token leaf => if leaf.isSignificant then some leaf else none
    | .node _ _ => none

def firstToken? (tree : SyntaxTree) (kind : TokenKind) : Option Token :=
  tree.tokens.find? (·.kind == kind)

/-- The blanks before a line of a listing. -/
def indent (depth : Nat) : Bytes := List.replicate (2 * depth) (byte ' ')

/-- One line of a listing for a token; trivia and the end of the text have none. -/
def dumpToken (depth : Nat) (token : Token) : Bytes :=
  if !token.isSignificant then []
  else
    let lexeme := if token.kind == .newline then [] else ascii " '" ++ token.text ++ ascii "'"
    indent depth ++ ascii token.kind.name ++ lexeme ++ ascii "\n"

mutual

/-- An indented listing of a tree, a line for each node and each significant token. -/
def dump (depth : Nat) : SyntaxTree → Bytes
  | .token leaf => dumpToken depth leaf
  | .node kind children =>
      indent depth ++ ascii kind.name ++ ascii "\n" ++ dumpAll (depth + 1) children

/-- The listings of neighbouring trees. -/
def dumpAll (depth : Nat) : List SyntaxTree → Bytes
  | [] => []
  | tree :: rest => dump depth tree ++ dumpAll depth rest

end

end SyntaxTree

end NovelAsm
