import NovelAsm.Resolve.Reading

/-!
The routines of a segment. `Routine.resolve` reads the tree of a segment against
the scope of the whole file. Parameter aliases are bound for the length of their
function, before everything else that a register name could mean; the diagnostics
count from the beginning of the segment.
-/

namespace NovelAsm

/-- The aliases of a function's parameters. -/
abbrev Aliases := List (Bytes × Register)

def Aliases.lookup? (aliases : Aliases) (name : Bytes) : Option Register :=
  (List.find? (·.1 == name) aliases).map Prod.snd

namespace Routine

/-- What a register name means: a parameter, an alias of the file, or a built-in register. -/
def registerNamed? (scope : Scope) (aliases : Aliases) (name : Bytes) : Option Register :=
  (aliases.lookup? name).or ((scope.findRegister? name).or (Register.parse? name))

/-- What names mean in the instructions of a routine. -/
def naming (scope : Scope) (aliases : Aliases) : Naming Diagnostics where
  report diagnostic diagnostics := diagnostics ++ [diagnostic]
  meaning name _ :=
    return match scope.findValue? name, scope.findSymbol? name with
      | some value, _ => .value value
      | none, some symbol => .symbol symbol
      | none, none => .undefined
  register? name span := do
    match registerNamed? scope aliases name with
    | some register => return some register
    | none =>
        (NameProblem.undefinedRegister name).report span
        return none
  base := .origin

/-- The name that a label, function or subroutine introduces. -/
def nameOf (tree : SyntaxTree) : Bytes :=
  ((tree.firstToken? .identifier).map Token.text).getD []

def registerTokens (tree : SyntaxTree) : List Token :=
  tree.tokens.filter (·.kind == .register)

/-- Binds the parameters of a function to the argument registers, in their order. `seen`
holds the aliases that were met. -/
def bindParameters (function : Bytes) (seen : List Token) (position : Nat) :
    List Token → Reporting Aliases
  | [] => return []
  | token :: rest => do
      if (Register.parse? token.text).isSome then
        (NameProblem.parameterIsBuiltin token.text).report token.span
        bindParameters function seen (position + 1) rest
      else
        match seen.find? (·.text == token.text) with
        | some earlier =>
            .report ((NameProblem.duplicateParameter token.text).diagnoseDuplicate token.span
              earlier.span)
            bindParameters function seen (position + 1) rest
        | none =>
            let bound ←
              if NameProblem.parameterLimit ≤ position then do
                (NameProblem.tooManyParameters function).report token.span
                pure []
              else pure ((Register.argument? position).toList.map fun r => (token.text, r))
            let others ← bindParameters function (token :: seen) (position + 1) rest
            return bound ++ others

/-- The register at an end of a preserved range. -/
def preservedEnd? (scope : Scope) (aliases : Aliases) (token : Token) :
    Reporting (Option Register) := do
  if (aliases.lookup? token.text).isSome then
    (NameProblem.preservedParameter token.text).report token.span
    return none
  match registerNamed? scope [] token.text with
  | none =>
      (NameProblem.undefinedRegister token.text).report token.span
      return none
  | some register =>
      if register.isArgument then
        (NameProblem.preservedArgument token.text).report token.span
        return none
      return some register

/-- The registers of a range that are not preserved yet; the others are reported. -/
def addRange (span : Span) (preserved : List Register) :
    List Register → Reporting (List Register)
  | [] => return preserved
  | register :: rest => do
      if preserved.contains register then
        (NameProblem.preservedTwice register).report span
        addRange span preserved rest
      else addRange span (preserved ++ [register]) rest

/-- The value registers from one index to another. -/
def valueRange (first last : Nat) : List Register :=
  (List.range' first (last + 1 - first)).filterMap Register.value?

/-- Adds the registers of one preserved range. -/
def preserve (scope : Scope) (aliases : Aliases) (preserved : List Register)
    (range : SyntaxTree) : Reporting (List Register) := do
  match registerTokens range with
  | [] => return preserved
  | token :: more =>
      let first ← preservedEnd? scope aliases token
      let last ←
        match more.getLast? with
        | some token => preservedEnd? scope aliases token
        | none => pure first
      match first, last with
      | some first, some last =>
          if last.index < first.index then
            NameProblem.reversedRange.report range.span
            return preserved
          else addRange range.span preserved (valueRange first.index last.index)
      | _, _ => return preserved

/-- An instruction with its operands. -/
def readInstruction (scope : Scope) (aliases : Aliases) (tree : SyntaxTree) :
    Reporting Statement := do
  let mnemonic := (tree.firstSignificant?.map Token.text).getD []
  let arguments ←
    match tree.firstChild? .argumentList with
    | some list => list.childNodes.mapM (naming scope aliases).readArgument
    | none => pure []
  return .instruction tree.span mnemonic arguments

/-- The statements among the children of a function or subroutine. -/
def readBody (scope : Scope) (aliases : Aliases) : List SyntaxTree → Reporting (List Statement)
  | [] => return []
  | tree :: rest => do
      match tree.kind? with
      | some .label =>
          let statements ← readBody scope aliases rest
          return .label tree.span (nameOf tree) :: statements
      | some .instruction =>
          let first ← readInstruction scope aliases tree
          return first :: (← readBody scope aliases rest)
      | _ => readBody scope aliases rest

/-- A function or subroutine. -/
def readProcedure (scope : Scope) (kind : RoutineKind) (tree : SyntaxTree) :
    Reporting Routine := do
  let name := nameOf tree
  let parameters := ((tree.firstChild? .parameterList).map registerTokens).getD []
  let aliases ← bindParameters name [] 0 parameters
  let ranges := ((tree.firstChild? .preservedRangeList).map SyntaxTree.childNodes).getD []
  let preserved ← ranges.foldlM (preserve scope aliases) []
  let statements ← readBody scope aliases tree.children
  return ⟨kind, name, parameters.length, preserved, statements, tree.span⟩

/-- The script that a label outside of functions opens. -/
def openScript (label : SyntaxTree) : Routine :=
  ⟨.script, nameOf label, 0, [], [], label.span⟩

/-- A script with one more statement. -/
def extend (script : Routine) (statement : Statement) (span : Span) : Routine :=
  { script with
    statements := script.statements ++ [statement]
    span := script.span.join span }

/-- The routines of some items. `current` is the script that is open before them, if any. -/
def readItems (scope : Scope) (current : Option Routine) :
    List SyntaxTree → Reporting (List Routine)
  | [] => return current.toList
  | tree :: rest => do
      match tree.kind? with
      | some .label =>
          return current.toList ++ (← readItems scope (some (openScript tree)) rest)
      | some .instruction =>
          match current with
          | some script =>
              let statement ← readInstruction scope [] tree
              readItems scope (some (script.extend statement tree.span)) rest
          | none =>
              NameProblem.looseInstruction.report tree.span
              readItems scope none rest
      | some .functionDefinition =>
          let routine ← readProcedure scope .function tree
          return current.toList ++ routine :: (← readItems scope none rest)
      | some .subroutineDefinition =>
          let routine ← readProcedure scope .subroutine tree
          return current.toList ++ routine :: (← readItems scope none rest)
      | some .definition => return current.toList ++ (← readItems scope none rest)
      | _ => readItems scope current rest

/-- The routines of a segment, read against the scope of its file. -/
def resolve (scope : Scope) (tree : SyntaxTree) : List Routine × Diagnostics :=
  (readItems scope none tree.children).run []

end Routine

end NovelAsm
