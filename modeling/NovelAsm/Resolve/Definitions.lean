import NovelAsm.Expr.Computation
import NovelAsm.Resolve.Reading

/-!
The declarations of a file. `Declarations.collect` walks the trees of all
segments: it declares every label, function and subroutine, records every
definition, and then evaluates the definitions. Its diagnostics carry the
coordinates of the file.

A definition may refer to any other one, wherever that stands. It is evaluated
when it is first needed, and once; one that needs itself has no value. The names
of the definitions under evaluation form a path without repetitions, so the
number of definitions bounds the depth of the recursion.
-/

namespace NovelAsm

/-- The tree of a segment with the place where the segment begins. -/
structure PlacedTree where
  tree : SyntaxTree
  origin : Location

/-- A definition as it was written: of a value, or of a register alias. -/
structure Definition where
  name : Bytes
  isRegister : Bool
  /-- What stands behind the equals sign. -/
  value : Option SyntaxTree
  span : Span
  origin : Location

/-- The definitions with the outcomes of those that have been evaluated. -/
structure Evaluation where
  values : NameMap (Option Value)
  registers : NameMap (Option Register)
  diagnostics : Diagnostics

namespace Evaluation

def empty : Evaluation := ⟨.empty, .empty, []⟩

def report (diagnostic : Diagnostic) (state : Evaluation) : Evaluation :=
  { state with diagnostics := state.diagnostics ++ [diagnostic] }

def complain (problem : NameProblem) (span : Span) : StateM Evaluation PUnit :=
  modify (report (problem.diagnose span))

/-- The report that a definition is needed for its own evaluation. -/
def complainSelf (definition : Definition) (use : Span) : StateM Evaluation PUnit :=
  modify <| report <|
    ((NameProblem.selfReference definition.name).diagnose use).withNote definition.span
      (ascii "defined here")

/-- Runs a step that only reports. -/
def reporting {α : Type} (step : Reporting α) : StateM Evaluation α :=
  modifyGet fun state =>
    let (result, diagnostics) := step.run state.diagnostics
    (result, { state with diagnostics })

end Evaluation

namespace Definition

def find? (definitions : List Definition) (name : Bytes) (isRegister : Bool) :
    Option Definition :=
  definitions.find? fun definition =>
    definition.name == name && definition.isRegister == isRegister

/-- What names mean in the definition of a value: other definitions, evaluated by `valueOf`,
and symbols. Registers are no constants. -/
def naming (definitions : List Definition) (scope : Scope) (origin : Location)
    (valueOf : Definition → Span → StateM Evaluation (Option Value)) : Naming Evaluation where
  report := Evaluation.report
  meaning name span := do
    match find? definitions name false with
    | some definition =>
        match ← valueOf definition span with
        | some value => return .value value
        | none => return .broken
    | none =>
        match scope.findSymbol? name with
        | some symbol => return .symbol symbol
        | none => return .undefined
  register? name span := do
    Evaluation.complain (.registerInConstant name) span
    return none
  base := origin

/-- The value of an expression in a definition. An expression that could not be read has
been reported already. -/
def evaluateTree (naming : Naming Evaluation) (tree : SyntaxTree) :
    StateM Evaluation (Option Value) := do
  let expr ← naming.read tree
  if expr.isError then return none else Evaluation.reporting expr.evaluate

/-- The value of a definition that is used at a span, while those on the path wait for it. -/
def valueOf (definitions : List Definition) (scope : Scope) :
    Nat → List Bytes → Definition → Span → StateM Evaluation (Option Value)
  | 0, _, _, _ => return none
  | depth + 1, path, definition, use => do
      match (← get).values.find? definition.name with
      | some settled => return settled
      | none =>
          if path.contains definition.name then
            Evaluation.complainSelf definition use
            return none
          let names := naming definitions scope definition.origin
            (valueOf definitions scope depth (definition.name :: path))
          let value ←
            match definition.value with
            | some tree => evaluateTree names tree
            | none => pure none
          modify fun state =>
            { state with values := state.values.insertNew definition.name value }
          return value

/-- The register token that the definition of an alias consists of. -/
def aliasToken? (definition : Definition) : Option Token :=
  definition.value.bind fun tree =>
    if tree.kind? == some .registerExpr then tree.firstSignificant? else none

/-- The register of an alias that is used at a span, while those on the path wait for it. -/
def registerOf (definitions : List Definition) :
    Nat → List Bytes → Definition → Span → StateM Evaluation (Option Register)
  | 0, _, _, _ => return none
  | depth + 1, path, definition, use => do
      match (← get).registers.find? definition.name with
      | some settled => return settled
      | none =>
          if path.contains definition.name then
            Evaluation.complainSelf definition use
            return none
          let register ←
            match definition.aliasToken?, definition.value with
            | some token, _ =>
                let span := token.span.rebase definition.origin
                match find? definitions token.text true, Register.parse? token.text with
                | some target, _ =>
                    registerOf definitions depth (definition.name :: path) target span
                | none, some builtin => pure (some builtin)
                | none, none => do
                    Evaluation.complain (.undefinedRegister token.text) span
                    pure none
            | none, some tree => do
                Evaluation.complain (.aliasOfNoRegister definition.name)
                  (tree.span.rebase definition.origin)
                pure none
            | none, none => pure none
          modify fun state =>
            { state with registers := state.registers.insertNew definition.name register }
          return register

end Definition

/-- The declarations found so far. -/
structure Declarations where
  scope : Scope
  definitions : List Definition
  diagnostics : Diagnostics

namespace Declarations

def empty : Declarations := ⟨.empty, [], []⟩

def report (diagnostic : Diagnostic) (found : Declarations) : Declarations :=
  { found with diagnostics := found.diagnostics ++ [diagnostic] }

/-- Declares a symbol, or reports that its name is taken. -/
def declare (found : Declarations) (symbol : Symbol) : Declarations :=
  match found.scope.declare symbol with
  | (scope, none) => { found with scope }
  | (_, some earlier) =>
      found.report ((NameProblem.duplicateSymbol symbol.name).diagnoseDuplicate symbol.span
        earlier.span)

/-- Declares the symbol that the name token of a tree introduces. -/
def declareTree (found : Declarations) (kind : SymbolKind) (parameterCount : Nat)
    (origin : Location) (tree : SyntaxTree) : Declarations :=
  match tree.firstToken? .identifier with
  | some name => found.declare ⟨name.text, kind, parameterCount, name.span.rebase origin⟩
  | none => found

/-- Declares the labels inside a function or subroutine. -/
def declareLabels (found : Declarations) (origin : Location) (body : SyntaxTree) :
    Declarations :=
  (body.children.filter (·.kind? == some .label)).foldl
    (fun found label => found.declareTree .label 0 origin label) found

def parameterCount (function : SyntaxTree) : Nat :=
  match function.firstChild? .parameterList with
  | some list => list.tokens.countP (·.kind == .register)
  | none => 0

/-- Records the definition that a tree stands for, if it has a name. -/
def recordDefinition (found : Declarations) (origin : Location) (tree : SyntaxTree) :
    Declarations :=
  match tree.tokens with
  | _ :: name :: _ =>
      if name.kind != .identifier && name.kind != .register then found
      else
        let definition : Definition :=
          { name := name.text
            isRegister := name.kind == .register
            value := tree.childNodes.head?
            span := name.span.rebase origin
            origin }
        if definition.isRegister && (Register.parse? name.text).isSome then
          found.report ((NameProblem.builtinRedefined name.text).diagnose definition.span)
        else
          match found.definitions.find? (·.name == name.text) with
          | some earlier =>
              found.report ((NameProblem.duplicateDefinition name.text).diagnoseDuplicate
                definition.span earlier.span)
          | none => { found with definitions := found.definitions ++ [definition] }
  | _ => found

/-- Takes in one item of a file. -/
def addItem (found : Declarations) (origin : Location) (tree : SyntaxTree) : Declarations :=
  match tree.kind? with
  | some .label => found.declareTree .label 0 origin tree
  | some .functionDefinition =>
      (found.declareTree .function (parameterCount tree) origin tree).declareLabels origin tree
  | some .subroutineDefinition =>
      (found.declareTree .subroutine 0 origin tree).declareLabels origin tree
  | some .definition => found.recordDefinition origin tree
  | _ => found

def addTree (found : Declarations) (placed : PlacedTree) : Declarations :=
  placed.tree.children.foldl (fun found item => found.addItem placed.origin item) found

/-- Reports the definitions of values that are named like a symbol. -/
def reportClashes (found : Declarations) : Declarations :=
  found.definitions.foldl
    (fun state definition =>
      match found.scope.findSymbol? definition.name with
      | some symbol =>
          if definition.isRegister then state
          else
            state.report ((NameProblem.duplicateDefinition definition.name).diagnoseDuplicate
              definition.span symbol.span)
      | none => state)
    found

/-- Evaluates a definition and enters its outcome into the scope that is being made. -/
def define (found : Declarations) (scope : Scope) (definition : Definition) :
    StateM Evaluation Scope := do
  let depth := found.definitions.length + 1
  if definition.isRegister then
    match ← definition.registerOf found.definitions depth [] definition.span with
    | some register => return scope.defineRegister definition.name register
    | none => return scope
  else
    match ← definition.valueOf found.definitions found.scope depth [] definition.span with
    | some value => return scope.defineValue definition.name value
    | none => return scope

/-- Evaluates all definitions in the order in which they were written. -/
def defineAll (found : Declarations) : Scope × Diagnostics :=
  let (scope, state) := (found.definitions.foldlM found.define found.scope).run .empty
  (scope, found.diagnostics ++ state.diagnostics)

/-- The scope of a file and the diagnostics of its declarations. -/
def collect (trees : List PlacedTree) : Scope × Diagnostics :=
  (trees.foldl addTree .empty).reportClashes.defineAll

end Declarations

end NovelAsm
