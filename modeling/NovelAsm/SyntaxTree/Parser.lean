import NovelAsm.Flag
import NovelAsm.SyntaxTree
import NovelAsm.Token.Stream

/-!
The parser: from tokens to a syntax tree. It never fails. What does not fit the
grammar becomes an error node with a diagnostic, so every token finds its place
in the tree, and parsing goes on at the end of the line.

A parser looks at significant tokens only; trivia joins the tree together with
the next token that is taken. Line ends are significant except inside brackets,
which `nesting` counts.

The nodes that are being read stand on a stack: tokens and finished nodes join
the one on top. A checkpoint is the number of children that it has, from which
a node can be started later that takes the children behind it over.

Operators are parsed by their powers: `expression power` reads an operand and
then as many operators as bind tighter than `power`. Every nested expression
follows a token already taken, so the tokens left bound the depth of the
recursion, and the loops, each round of which takes a token, are bounded in the
same way. A run for which such a bound is too small has no outcome at all.
-/

namespace NovelAsm

inductive SyntaxProblem where
  | missingExpression
  | missingLineEnd
  | missingFunctionName
  | missingParameter
  | unclosedParameters
  | missingPreserved
  | missingLastPreserved
  | unclosedPreserved
  | missingSubroutineName
  | missingDefinitionName
  | missingEquals
  | missingArrow
  | unclosedJumpTable
  | unclosedList
  | unclosedParen
  | unclosedCall
  | notAnItem
  | notABodyLine
  | unclosedFunction
  | unclosedSubroutine
  | strayEndFunction
  | strayEndSubroutine
  | subroutineSignature
  | operandBehindFlag
deriving DecidableEq, Repr

namespace SyntaxProblem

def code : SyntaxProblem → String
  | .missingExpression => "SASM-E2100"
  | .missingLineEnd => "SASM-E2101"
  | .notAnItem | .notABodyLine => "SASM-E2103"
  | .unclosedFunction => "SASM-E2104"
  | .unclosedSubroutine => "SASM-E2105"
  | .strayEndFunction | .strayEndSubroutine => "SASM-E2106"
  | .subroutineSignature => "SASM-E2107"
  | .operandBehindFlag => "SASM-E2108"
  | _ => "SASM-E2102"

def message : SyntaxProblem → String
  | .missingExpression => "Expected an expression."
  | .missingLineEnd => "Expected end of line."
  | .missingFunctionName => "Expected a function name."
  | .missingParameter => "Expected a parameter register alias."
  | .unclosedParameters => "Expected ')' after the parameter list."
  | .missingPreserved => "Expected a register in the preserved range."
  | .missingLastPreserved => "Expected the last register of the preserved range."
  | .unclosedPreserved => "Expected ']' after the preserved ranges."
  | .missingSubroutineName => "Expected a subroutine name."
  | .missingDefinitionName => "Expected a name or register alias after 'def'."
  | .missingEquals => "Expected '=' in definition."
  | .missingArrow => "Expected '=>' in jump table entry."
  | .unclosedJumpTable => "Expected '\x7d' to close the jump table."
  | .unclosedList => "Expected ']' to close the list."
  | .unclosedParen => "Expected ')' to close the expression."
  | .unclosedCall => "Expected ')' after the call arguments."
  | .notAnItem => "Expected a label, instruction or item declaration."
  | .notABodyLine => "Expected a label or instruction."
  | .unclosedFunction => "Missing 'endfun' to close the function."
  | .unclosedSubroutine => "Missing 'endsub' to close the subroutine."
  | .strayEndFunction => "'endfun' without a matching 'function'."
  | .strayEndSubroutine => "'endsub' without a matching 'subroutine'."
  | .subroutineSignature => "Subroutines take neither parameters nor preserved ranges."
  | .operandBehindFlag => "Positional operands must precede trailing flags."

end SyntaxProblem

/-- Where a parser stands: the tokens that are left, how many brackets are open, and whether
an operand of the current line could not be read at all; then the rest of that line
belongs to a failure already reported. -/
structure Cursor where
  rest : List Token
  finish : Token
  nesting : Nat
  operandFailed : Bool

namespace Cursor

def isSkippable (cursor : Cursor) (token : Token) : Bool :=
  token.isTrivia || (0 < cursor.nesting && token.kind == .newline)

/-- The next token that counts. -/
def peek (cursor : Cursor) : Token :=
  (cursor.rest.find? fun token => !cursor.isSkippable token).getD cursor.finish

/-- The token behind the next one. -/
def peekSecond (cursor : Cursor) : Token :=
  match cursor.rest.dropWhile cursor.isSkippable with
  | [] => cursor.finish
  | _ :: rest => { cursor with rest := rest }.peek

/-- The next token with the trivia before it. At the end of the text there is none. -/
def nextTokens (cursor : Cursor) : List Token :=
  match cursor.rest.dropWhile cursor.isSkippable with
  | [] => []
  | token :: _ => cursor.rest.takeWhile cursor.isSkippable ++ [token]

/-- The cursor behind the next token. -/
def behind (cursor : Cursor) : Cursor :=
  match cursor.rest.dropWhile cursor.isSkippable with
  | [] => cursor
  | _ :: rest => { cursor with rest := rest }

def enter (cursor : Cursor) : Cursor := { cursor with nesting := cursor.nesting + 1 }

def leave (cursor : Cursor) : Cursor := { cursor with nesting := cursor.nesting - 1 }

def mark (cursor : Cursor) (operandFailed : Bool) : Cursor := { cursor with operandFailed }

end Cursor

/-- A node that is being read. -/
structure OpenNode where
  kind : SyntaxKind
  children : List SyntaxTree

namespace OpenNode

def append (node : OpenNode) (trees : List SyntaxTree) : OpenNode :=
  { node with children := node.children ++ trees }

/-- The node as it is when nothing more joins it. -/
def tree (node : OpenNode) : SyntaxTree := .node node.kind node.children

end OpenNode

/-- Where a parser stands, the stack of the nodes that are being read, `top` above all others,
and what has been reported so far. -/
structure ParseState where
  cursor : Cursor
  top : OpenNode
  outer : List OpenNode
  diagnostics : Diagnostics

namespace ParseState

/-- The nodes that are being read, the innermost one first. -/
def stack (state : ParseState) : List OpenNode := state.top :: state.outer

/-- Before a text nothing has been read, and the root is the only node. -/
def start (lexed : Lexed) : ParseState where
  cursor := ⟨lexed.tokens, lexed.finish, 0, false⟩
  top := ⟨.sourceFile, []⟩
  outer := []
  diagnostics := []

/-- The node at the bottom of the stack. -/
def root (state : ParseState) : OpenNode := state.outer.getLastD state.top

/-- The state behind a step that moves the cursor, puts trees into the innermost node and
reports something. -/
def after (state : ParseState) (cursor : Cursor) (trees : List SyntaxTree)
    (reported : Diagnostics) : ParseState where
  cursor := cursor
  top := state.top.append trees
  outer := state.outer
  diagnostics := state.diagnostics ++ reported

end ParseState

/-- A parser. A run that uses up its bound, or finishes a node that was not started, has no
outcome. -/
abbrev Parser := StateT ParseState Option

namespace Parser

def peek : Parser Token := return (← get).cursor.peek

def peekKind : Parser TokenKind := return (← peek).kind

def peekSecondKind : Parser TokenKind := return (← get).cursor.peekSecond.kind

def at? (kind : TokenKind) : Parser Bool := return (← peekKind) == kind

def when (condition : Bool) (step : Parser PUnit) : Parser PUnit :=
  if condition then step else return

/-- Takes the next token. -/
def bump : Parser PUnit := modify fun state =>
  state.after state.cursor.behind (state.cursor.nextTokens.map .token) []

/-- Takes the next token if it is of a kind. -/
def accept (kind : TokenKind) : Parser Bool := do
  if ← at? kind then
    bump
    return true
  else return false

def report (problem : SyntaxProblem) : Parser PUnit := modify fun state =>
  state.after state.cursor []
    [.error problem.code (ascii problem.message) state.cursor.peek.span]

/-- Takes the next token if it is of a kind, and reports a problem if not. -/
def expect (kind : TokenKind) (problem : SyntaxProblem) : Parser Bool := do
  if ← accept kind then return true
  else
    report problem
    return false

/-- An expected token that nothing depends on. -/
def require (kind : TokenKind) (problem : SyntaxProblem) : Parser PUnit := do
  let _ ← expect kind problem
  return

/-- Moves the cursor without taking anything. -/
def move (change : Cursor → Cursor) : Parser PUnit :=
  modify fun state => { state with cursor := change state.cursor }

def startNode (kind : SyntaxKind) : Parser PUnit := modify fun state =>
  { state with top := ⟨kind, []⟩, outer := state.stack }

/-- Where a node can be started later. -/
def checkpoint : Parser Nat := return (← get).top.children.length

/-- Starts a node with what has been read behind a checkpoint. -/
def startNodeAt (checkpoint : Nat) (kind : SyntaxKind) : Parser PUnit := modify fun state =>
  { state with
    top := ⟨kind, state.top.children.drop checkpoint⟩
    outer := ⟨state.top.kind, state.top.children.take checkpoint⟩ :: state.outer }

/-- Puts the innermost node into the one around it. -/
def finishNode : Parser PUnit := fun state =>
  match state.outer with
  | [] => none
  | parent :: outer => some ((), { state with top := parent.append [state.top.tree], outer })

/-- A node of what is read in it. -/
def node {α : Type} (kind : SyntaxKind) (inside : Parser α) : Parser α := do
  startNode kind
  let answer ← inside
  finishNode
  return answer

/-- An opening bracket, what stands in the brackets, and the closing one. Between them line ends
do not count. -/
def bracketed (closer : TokenKind) (problem : SyntaxProblem) (inside : Parser PUnit) :
    Parser PUnit := do
  bump
  move .enter
  inside
  require closer problem
  move .leave

/-- A bound for the rounds of a loop that takes a token in each but the last. -/
def rounds : Parser Nat := return (← get).cursor.rest.length + 1

/-- Repeats a round until one asks for no other. Each round hands something on to the next. -/
def loop {σ : Type} (round : σ → Parser (Option σ)) : Nat → σ → Parser PUnit
  | 0, _ => failure
  | n + 1, given => do
      match ← round given with
      | some next => loop round n next
      | none => return

/-- Repeats a round as long as the tokens allow. -/
def many (round : Parser Bool) : Parser PUnit := do
  loop (fun _ => return if ← round then some () else none) (← rounds) ()

/-- A round that asks for another one. -/
def again (step : Parser PUnit) : Parser Bool := do
  step
  return true

/-- Parses items with a comma behind each but the last. -/
def commaSeparated (item : Parser PUnit) : Parser PUnit :=
  many do
    item
    accept (.mark .comma)

def isLineEnd (kind : TokenKind) : Bool := kind == .newline || kind == .endOfFile

/-- The words that no instruction contains. -/
def isItemKeyword : TokenKind → Bool
  | .keyword .modulo | .keyword .division => false
  | .keyword _ => true
  | _ => false

/-- Whether an operand of the line could not be read, which is forgotten. -/
def takeFailed : Parser Bool := modifyGet fun state =>
  (state.cursor.operandFailed, { state with cursor := state.cursor.mark false })

/-- Whether the line of an instruction is over. -/
def atLineEnd : Parser Bool := return isLineEnd (← peekKind)

/-- An error node that takes the next token and the rest of its line. -/
def restOfLine : Parser PUnit :=
  node .error do
    bump
    many do
      let kind ← peekKind
      if isLineEnd kind || isItemKeyword kind then return false else again bump

/-- Reports a problem and gives up the line. Tokens the lexer could not read have been
reported already. -/
def recover (problem : SyntaxProblem) : Parser PUnit := do
  when (!(← at? .invalid)) (report problem)
  restOfLine

/-- The end of a line, which is left in place; anything before it is an error. -/
def lineEnd : Parser PUnit := do
  let failed ← takeFailed
  if ← atLineEnd then return
  else if failed then restOfLine
  else recover .missingLineEnd

/-- The power of unary operators, above that of every binary one. -/
def unaryPower : Nat := 100

/-- How tightly a binary operator binds; zero for all other tokens. -/
def bindingPower : TokenKind → Nat
  | .mark .doublePipe => 3
  | .mark .doubleAmpersand => 4
  | .mark .doubleEquals | .mark .bangEquals | .mark .lessThan | .mark .lessEquals
  | .mark .greaterThan | .mark .greaterEquals => 5
  | .mark .pipe => 6
  | .mark .caret => 7
  | .mark .ampersand => 8
  | .mark .shiftLeft | .mark .shiftRight => 9
  | .mark .plus | .mark .minus => 10
  | .mark .asterisk | .mark .slash | .mark .dotAsterisk | .mark .dotSlash
  | .keyword .division | .keyword .modulo => 11
  | _ => 0

def startsExpression : TokenKind → Bool
  | .integerLiteral | .realLiteral | .stringLiteral | .register | .identifier
  | .mark .leftParen | .mark .minus | .mark .bang | .mark .tilde => true
  | _ => false

/-- A call of a built-in function; `operand` parses the nested expressions. -/
def call (operand : Nat → Parser PUnit) : Parser PUnit :=
  node .callExpr do
    bump
    bracketed (.mark .rightParen) .unclosedCall do
      when (!(← at? (.mark .rightParen))) (commaSeparated (operand 0))

/-- An operand with its unary operators; `operand` parses the nested expressions. -/
def primary (operand : Nat → Parser PUnit) : Parser PUnit := do
  match ← peekKind with
  | .mark .minus | .mark .bang | .mark .tilde =>
      node .unaryExpr do
        bump
        operand unaryPower
  | .integerLiteral | .realLiteral | .stringLiteral => node .literalExpr bump
  | .register => node .registerExpr bump
  | .identifier =>
      if (← peekSecondKind) == .mark .leftParen then call operand else node .nameExpr bump
  | .mark .leftParen =>
      node .parenExpr (bracketed (.mark .rightParen) .unclosedParen (operand 0))
  | .invalid => node .error bump
  | _ =>
      report .missingExpression
      move (.mark · true)
      node .error (pure ())

/-- A node of what has been read behind a checkpoint, an operator and its right operand. -/
def binary (start : Nat) (operand : Parser PUnit) : Parser PUnit := do
  startNodeAt start .binaryExpr
  bump
  operand
  finishNode

/-- What `first` reads, and as many operators as bind tighter than `power`, to the left first;
`operand` parses what stands behind an operator. -/
def climb (first : Parser PUnit) (operand : Nat → Parser PUnit) (power : Nat) : Parser PUnit := do
  let start ← checkpoint
  first
  many do
    let next := bindingPower (← peekKind)
    if next ≤ power then return false else again (binary start (operand next))

/-- An expression of operators that bind tighter than `power`, to a depth of nesting. -/
def expressionWithin : Nat → Nat → Parser PUnit
  | 0, _ => failure
  | depth + 1, power =>
      climb (primary (expressionWithin depth)) (expressionWithin depth) power

/-- A whole expression. -/
def expression : Parser PUnit := do expressionWithin (← rounds) 0

/-- The cases of a table jump between braces. -/
def jumpTable : Parser PUnit :=
  node .jumpTableBlock <| bracketed (.mark .rightBrace) .unclosedJumpTable <|
    many do
      if startsExpression (← peekKind) then
        node .jumpTableEntry do
          expression
          when (← expect (.mark .fatArrow) .missingArrow) expression
        accept (.mark .comma)
      else return false

/-- A list between brackets. -/
def arrayLiteral : Parser PUnit :=
  node .arrayLiteral <| bracketed (.mark .rightBracket) .unclosedList <|
    many do
      if startsExpression (← peekKind) then
        expression
        accept (.mark .comma)
      else return false

/-- Whether the next token is a flag: the name of one, with nothing else in its place. -/
def atFlag : Parser Bool := do
  let token ← peek
  let behind ← peekSecondKind
  return token.kind == .identifier && (Flag.ofText? token.text).isSome
    && (behind == .mark .comma || isLineEnd behind)

/-- Takes the next token if it is a flag. -/
def flag : Parser Bool := do
  if ← atFlag then
    node .flag bump
    return true
  else return false

/-- An operand that is no flag. -/
def positional : Parser PUnit := do
  match ← peekKind with
  | .mark .leftBrace => jumpTable
  | .mark .leftBracket => arrayLiteral
  | _ => expression

/-- An operand; `behindFlag` tells whether a flag was seen, and the answer whether one has been
seen now. -/
def operand (behindFlag : Bool) : Parser Bool := do
  if ← flag then return true
  else
    when behindFlag (report .operandBehindFlag)
    positional
    return behindFlag

def argumentList : Parser PUnit :=
  node .argumentList do
    let round (behindFlag : Bool) : Parser (Option Bool) := do
      let seen ← operand behindFlag
      return if ← accept (.mark .comma) then some seen else none
    loop round (← rounds) false

def instruction : Parser PUnit := do
  move (.mark · false)
  node .instruction do
    bump
    let kind ← peekKind
    when (!(isLineEnd kind || isItemKeyword kind)) argumentList
    lineEnd

def label : Parser PUnit :=
  node .label do
    bump
    bump

/-- What a name at the beginning of a line opens. -/
def labelOrInstruction : Parser PUnit := do
  if (← peekSecondKind) == .mark .colon then label else instruction

/-- The lines of a function or subroutine up to its closing word. An item that can only
stand outside ends the body as well. -/
def body (closer : Keyword) : Parser PUnit :=
  many do
    match ← peekKind with
    | .newline => again bump
    | .identifier => again labelOrInstruction
    | .keyword .modulo | .keyword .division => again instruction
    | .endOfFile | .keyword .function | .keyword .subroutine | .keyword .definition =>
        return false
    | kind =>
        if kind == .keyword closer then return false else again (recover .notABodyLine)

/-- The closing word of a body and the end of its line. -/
def close (closer : Keyword) (problem : SyntaxProblem) : Parser PUnit := do
  when (← expect (.keyword closer) problem) lineEnd

def parameterList : Parser PUnit :=
  node .parameterList <| bracketed (.mark .rightParen) .unclosedParameters do
    when (!(← at? (.mark .rightParen))) <| many do
      if ← expect .register .missingParameter then accept (.mark .comma) else return false

/-- One preserved register, or the first and last of a range, with the comma behind it. A
range without a first register ends the list. -/
def preservedRange : Parser Bool := do
  let found ← node .registerRange do
    if ← expect .register .missingPreserved then
      when (← accept (.mark .minus)) (require .register .missingLastPreserved)
      return true
    else return false
  if found then accept (.mark .comma) else return false

def preservedRanges : Parser PUnit :=
  node .preservedRangeList do
    if ← at? (.mark .leftBracket) then
      bracketed (.mark .rightBracket) .unclosedPreserved (many preservedRange)
    else many preservedRange

def functionDefinition : Parser PUnit :=
  node .functionDefinition do
    bump
    require .identifier .missingFunctionName
    when (← at? (.mark .leftParen)) parameterList
    let comma ← accept (.mark .comma)
    when (comma || (← at? (.mark .leftBracket))) preservedRanges
    lineEnd
    body .endFunction
    close .endFunction .unclosedFunction

/-- What a function has between its name and the end of the line, and a subroutine has not. -/
def noSignature : Parser PUnit := do
  match ← peekKind with
  | .mark .leftParen | .mark .comma | .mark .leftBracket => recover .subroutineSignature
  | _ => return

def subroutineDefinition : Parser PUnit :=
  node .subroutineDefinition do
    bump
    require .identifier .missingSubroutineName
    noSignature
    lineEnd
    body .endSubroutine
    close .endSubroutine .unclosedSubroutine

/-- The name or register that a definition is for. -/
def definedName : Parser PUnit := do
  match ← peekKind with
  | .identifier | .register => bump
  | _ => report .missingDefinitionName

def definition : Parser PUnit :=
  node .definition do
    bump
    definedName
    when (← expect (.mark .equals) .missingEquals) expression
    lineEnd

/-- An item, or a line outside of all items. -/
def item : Parser PUnit := do
  match ← peekKind with
  | .keyword .function => functionDefinition
  | .keyword .subroutine => subroutineDefinition
  | .keyword .definition => definition
  | .keyword .endFunction => recover .strayEndFunction
  | .keyword .endSubroutine => recover .strayEndSubroutine
  | .identifier => labelOrInstruction
  | .keyword .modulo | .keyword .division => instruction
  | _ => recover .notAnItem

/-- All items of a text and the line ends between them. -/
def items : Parser PUnit :=
  many do
    match ← peekKind with
    | .endOfFile => return false
    | .newline => again bump
    | _ => again item

/-- Takes all that is left, the end of the text included. -/
def takeRest : Parser PUnit := modify fun state =>
  state.after { state.cursor with rest := [] }
    ((state.cursor.rest ++ [state.cursor.finish]).map .token) []

/-- A whole text. -/
def file : Parser PUnit := do
  items
  takeRest

end Parser

/-- A source text as a tree, with the diagnostics of its tokens before those of its grammar. -/
structure ParsedSource where
  tree : SyntaxTree
  diagnostics : Diagnostics

/-- What is made of a text and of the run of the parser before its tokens. -/
def ParsedSource.ofRun (lexed : Lexed) : Option (PUnit × ParseState) → ParsedSource
  | some (_, state) => ⟨state.root.tree, lexed.diagnostics ++ state.diagnostics⟩
  | none => ⟨.node .sourceFile [], lexed.diagnostics⟩

/-- Parses a text that begins at `place`. -/
def ParsedSource.read (source : Bytes) (place : Location) : ParsedSource :=
  let lexed := Lexed.read source place
  .ofRun lexed (Parser.file.run (.start lexed))

end NovelAsm
