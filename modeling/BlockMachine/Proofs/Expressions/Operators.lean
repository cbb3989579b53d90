import BlockMachine.Fault
import BlockMachine.Operator
import BlockMachine.Value

namespace BlockMachine

/-! # Values of operators

What the operators of the language yield for their operands. An operator looks at plain
data only; of an operand that is a function all it can tell is that it is one. What it
yields is therefore the same in a surface program and in a machine. -/

/-- An operand as an operator sees it. -/
inductive Operand where
  | storable (value : Storable)
  | function

/-- What an operator sees of a value that a name is bound to. -/
def Bindable.operand : Bindable → Operand
  | .storable value => .storable value
  | .closure _ => .function

namespace Operand

def typeName : Operand → String
  | storable value => value.typeName
  | function => "closure"

/-- The number that an operand is to be. -/
def number : Operand → Except Fault Float
  | storable (.number value) => .ok value
  | other => .error (.expectedValue "number" other.typeName)

/-- The boolean that an operand is to be. -/
def boolean : Operand → Except Fault Bool
  | storable (.boolean value) => .ok value
  | other => .error (.expectedValue "boolean" other.typeName)

/-- Of two operands that are to be numbers the left one is looked at first. -/
def calculate (lhs rhs : Operand) (result : Float → Float → Except Fault Storable) :
    Except Fault Storable := do
  let left ← lhs.number
  let right ← rhs.number
  result left right

def connect (lhs rhs : Operand) (connective : Bool → Bool → Bool) : Except Fault Storable := do
  let left ← lhs.boolean
  let right ← rhs.boolean
  pure (.boolean (connective left right))

/-- Two numbers or two booleans can be equal. -/
def equal : Operand → Operand → Except Fault Storable
  | storable (.number left), storable (.number right) => .ok (.boolean (left == right))
  | storable (.boolean left), storable (.boolean right) => .ok (.boolean (left == right))
  | lhs, rhs => .error (.unexpectedType "EQ" lhs.typeName rhs.typeName)

def negate (operand : Operand) : Except Fault Storable := do
  let holds ← operand.boolean
  pure (.boolean (!holds))

@[simp] theorem typeName_operand (value : Bindable) : value.operand.typeName = value.typeName := by
  cases value <;> rfl

end Operand

/-- The value of an operator for its operands. Dividing by a zero of either sign is a
fault. -/
def BinaryOperator.combine (op : BinaryOperator) (lhs rhs : Operand) : Except Fault Storable :=
  match op with
  | .arith .mul => lhs.calculate rhs fun left right => .ok (.number (left * right))
  | .arith .div => lhs.calculate rhs fun left right =>
    if right == 0.0 then .error .divisionByZero else .ok (.number (left / right))
  | .arith .sum => lhs.calculate rhs fun left right => .ok (.number (left + right))
  | .arith .sub => lhs.calculate rhs fun left right => .ok (.number (left - right))
  | .logic .lt => lhs.calculate rhs fun left right => .ok (.boolean (left < right))
  | .logic .le => lhs.calculate rhs fun left right => .ok (.boolean (left ≤ right))
  | .logic .gt => lhs.calculate rhs fun left right => .ok (.boolean (left > right))
  | .logic .ge => lhs.calculate rhs fun left right => .ok (.boolean (left ≥ right))
  | .logic .eq => lhs.equal rhs
  | .logic .and => lhs.connect rhs fun left right => left && right
  | .logic .or => lhs.connect rhs fun left right => left || right

end BlockMachine
