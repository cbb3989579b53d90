import BlockMachine.Code.Node

namespace BlockMachine

/-! # Opcodes

What remains to be done with a node once its operands have left their values on
the value stack. -/

/-- The continuations of the machine. A call carries its callee and the number
of its actuals, a recursive binding the node that holds its group. -/
inductive Opcode where
  | arith (op : ArithOp)
  | logic (op : LogicOp)
  | not
  | assign
  | bind
  | recBind (node : NodeId)
  | ref
  | blockDeclarations
  | blockCommands
  | cond
  | loop
  | print
  | call (callee : Name) (arity : Nat)
deriving DecidableEq, Repr

namespace Opcode

def mnemonic : Opcode → String
  | arith op => op.mnemonic
  | logic op => op.mnemonic
  | not => "NOT"
  | assign => "ASSIGN"
  | bind => "BIND"
  | recBind .. => "RBND"
  | ref => "REF"
  | blockDeclarations => "BLKDEC"
  | blockCommands => "BLKCMD"
  | cond => "COND"
  | loop => "LOOP"
  | print => "PRINT"
  | call .. => "CALL"

/-- The text of an opcode on a control stack: its mnemonic after a hash sign,
and its arguments where it has any. -/
def text : Opcode → String
  | call callee arity => "#CALL(" ++ toString callee.index ++ ", " ++ toString arity ++ ")"
  | recBind node => "#RBND(" ++ toString node.index ++ ")"
  | op => "#" ++ op.mnemonic

example : (call ⟨12⟩ 2).text = "#CALL(12, 2)" := by cbv

end Opcode

/-- An entry of the control stack: a node still to be entered, or an opcode
still to be applied. -/
inductive Control where
  | node (id : NodeId)
  | op (opcode : Opcode)
deriving DecidableEq, Repr

namespace Control

def text : Control → String
  | node id => "node(" ++ toString id.index ++ ")"
  | op opcode => opcode.text

end Control

end BlockMachine
