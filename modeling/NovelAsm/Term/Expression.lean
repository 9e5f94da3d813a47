import NovelAsm.Term

/-!
Terms in the notation of expressions. The terms are run on a stack of texts: a
number pushes its text, and an operator takes the texts of its operands and
leaves its own. A text with an operator between two operands is put into
parentheses wherever it becomes an operand itself, except as an argument.
-/

namespace NovelAsm

namespace Operator

/-- How an operator is written. -/
inductive Fixity where
  | between (spelling : String)
  | before (spelling : String)
  | call (name : String)

def fixity : Operator → Fixity
  | .add => .between "+"
  | .subtract => .between "-"
  | .multiply => .between "*"
  | .divide => .between "div"
  | .modulo => .between "mod"
  | .shiftLeft => .between "<<"
  | .shiftRight => .between ">>"
  | .bitAnd => .between "&"
  | .bitOr => .between "|"
  | .bitXor => .between "^"
  | .equal => .between "=="
  | .notEqual => .between "!="
  | .greaterEqual => .between ">="
  | .greater => .between ">"
  | .lessEqual => .between "<="
  | .less => .between "<"
  | .logicalAnd => .between "&&"
  | .logicalOr => .between "||"
  | .multiplyReal => .between ".*"
  | .divideReal => .between "./"
  | .negate => .before "-"
  | .bitNot => .before "~"
  | .isZero => .before "!"
  | .abs => .call "abs"
  | .isNonzero => .call "nonzero"
  | .sin => .call "sin"
  | .cos => .call "cos"
  | .tan => .call "tan"
  | .min => .call "min"
  | .max => .call "max"
  | .select => .call "select"

end Operator

/-- The text of an operand, and whether an operator stands between its parts. -/
structure Fragment where
  text : Bytes
  compound : Bool
deriving DecidableEq, Repr

namespace Fragment

def wrapped (fragment : Fragment) : Bytes :=
  if fragment.compound then ascii "(" ++ fragment.text ++ ascii ")" else fragment.text

/-- The text of an operator with its operands in the order of the stack. The arguments of
`select` are written the other way round, condition first. -/
def ofOperator (operator : Operator) (operands : List Fragment) : Fragment :=
  match operator.fixity with
  | .between spelling =>
      ⟨Bytes.join (ascii " " ++ ascii spelling ++ ascii " ") (operands.map wrapped), true⟩
  | .before spelling => ⟨ascii spelling ++ operands.flatMap wrapped, false⟩
  | .call name =>
      let arguments := if operator == .select then operands.reverse else operands
      ⟨ascii name ++ ascii "(" ++ Bytes.join (ascii ", ") (arguments.map text) ++ ascii ")",
        false⟩

end Fragment

namespace Term

/-- Runs terms on a stack of texts, topmost first. -/
def render? : List Fragment → List Term → Option (List Fragment)
  | stack, [] => some stack
  | stack, .push number :: rest => render? (⟨number.text, false⟩ :: stack) rest
  | stack, .apply operator :: rest =>
      if stack.length < operator.arity then none
      else
        let operands := (stack.take operator.arity).reverse
        render? (.ofOperator operator operands :: stack.drop operator.arity) rest

/-- The expression for a list of terms that leaves exactly one value. -/
def expression? (terms : List Term) : Option Bytes :=
  match render? [] terms with
  | some [fragment] => some fragment.text
  | _ => none

end Term

end NovelAsm
