import BlockMachine.Code.Span
import BlockMachine.Name
import BlockMachine.Operator

namespace BlockMachine

/-! # Nodes

Code is a table of nodes that refer to one another by number. -/

/-- The position of a node in its code. -/
structure NodeId where
  index : Nat
deriving DecidableEq, Repr

namespace NodeId

/-- The number that stands for no node. -/
def invalid : NodeId := ⟨Nat.pow 2 32 - 1⟩

instance : Inhabited NodeId := ⟨invalid⟩

def isValid (id : NodeId) : Bool :=
  id != invalid

/-- The form in which diagnostics show a node number. -/
def inspect (id : NodeId) : String :=
  if id.isValid then "NodeId(" ++ toString id.index ++ ")" else "NodeId::INVALID"

end NodeId

/-- A name together with the node whose value it is to have. -/
abbrev Binding := Name × NodeId

/-- The constructs that the machine executes. Numbers are compared as the
language compares them, so a node holding a NaN differs from itself. -/
inductive Node where
  | identifier (name : Name)
  | number (value : Float)
  | truth (value : Bool)
  | arith (op : ArithOp) (lhs rhs : NodeId)
  | logic (op : LogicOp) (lhs rhs : NodeId)
  | not (operand : NodeId)
  | addressOf (name : Name)
  | valueOf (name : Name)
  | allocateReference (initial : NodeId)
  | noOp
  | assign (target : Name) (value : NodeId)
  | sequence (first second : NodeId)
  | conditional (condition thenBranch : NodeId) (elseBranch : Option NodeId)
  | loop (condition body : NodeId)
  | block (declarations commands : NodeId)
  | print (value : NodeId)
  | call (callee : Name) (actuals : Span NodeId)
  | bind (name : Name) (value : NodeId)
  | recBind (group : Span Binding)
  | abstraction (formals : Span Name) (body : NodeId)
deriving BEq, Inhabited, Repr

namespace Node

/-- The word for the kind of construct. -/
def label : Node → String
  | identifier .. => "Identifier"
  | number .. => "Number"
  | truth .. => "Truth"
  | arith .. => "Arith"
  | logic .. => "Logic"
  | not .. => "Not"
  | addressOf .. => "AddressOf"
  | valueOf .. => "ValueOf"
  | allocateReference .. => "AllocateReference"
  | noOp => "NoOp"
  | assign .. => "Assign"
  | sequence .. => "Sequence"
  | conditional .. => "Conditional"
  | loop .. => "Loop"
  | block .. => "Block"
  | print .. => "Print"
  | call .. => "Call"
  | bind .. => "Bind"
  | recBind .. => "RecBind"
  | abstraction .. => "Abstraction"

/-- The node that applies a binary operator. -/
def ofOperator (op : BinaryOperator) (lhs rhs : NodeId) : Node :=
  match op with
  | .arith op => arith op lhs rhs
  | .logic op => logic op lhs rhs

end Node

end BlockMachine
