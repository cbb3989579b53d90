import BlockMachine.Operator

namespace BlockMachine

/-! # Operand kinds

Translation infers no types. It classifies an expression by its outermost shape
alone and rejects an application whose operands can never have the values that
the operator needs. -/

/-- What the shape of an expression says about its value. An identifier may stand
for anything, and so may the cell that it refers to. -/
inductive OperandKind where
  | arithmetic
  | logical
  | generic
  | reference
deriving DecidableEq, Repr

namespace OperandKind

def text : OperandKind → String
  | arithmetic => "an arithmetic expression"
  | logical => "a logical expression"
  | generic => "an identifier"
  | reference => "a reference"

/-- Whether the value may be a number. -/
def isNumeric : OperandKind → Bool
  | arithmetic | generic => true
  | logical | reference => false

/-- Whether the value may be a boolean. -/
def isBoolean : OperandKind → Bool
  | logical | generic => true
  | arithmetic | reference => false

end OperandKind

/-! # Rejections -/

/-- The constructs that restrict their operands. -/
inductive Construct where
  | operator (op : BinaryOperator)
  | negation
  | conditional
  | loop
deriving DecidableEq, Repr

namespace Construct

def mnemonic : Construct → String
  | operator op => op.mnemonic
  | negation => "NOT"
  | conditional => "COND"
  | loop => "LOOP"

end Construct

/-- What a construct asks of an operand. -/
inductive Expectation where
  | numeric
  | logical
  | comparable
  | numericLikeLeft
  | logicalLikeLeft
deriving DecidableEq, Repr

namespace Expectation

def text : Expectation → String
  | numeric => "numeric"
  | logical => "logical"
  | comparable => "a number or a boolean"
  | numericLikeLeft => "numeric like the left operand"
  | logicalLikeLeft => "logical like the left operand"

end Expectation

/-- Why a surface program has no translation. -/
inductive Rejection where
  | unsupportedOperator (lexeme : String)
  | mismatchedOperand (construct : Construct) (expected : Expectation) (found : OperandKind)
  | duplicateFormal (function formal : String)
  | emptyRecursiveGroup
deriving DecidableEq, Repr

namespace Rejection

def message : Rejection → String
  | unsupportedOperator lexeme => "unsupported operator: " ++ lexeme
  | mismatchedOperand construct expected found =>
    "operand of " ++ construct.mnemonic ++ " must be " ++ expected.text ++
      ", found " ++ found.text
  | duplicateFormal function formal =>
    "duplicate formal " ++ formal ++ " in function " ++ function
  | emptyRecursiveGroup => "recursive declaration group is empty"

end Rejection

/-! # Shape checks -/

/-- Reject an operand that the construct does not accept. -/
def Construct.require (construct : Construct) (expected : Expectation)
    (accepts : OperandKind → Bool) (found : OperandKind) : Except Rejection Unit :=
  if accepts found then .ok () else .error (.mismatchedOperand construct expected found)

/-- The operand of a negation, and the condition of a conditional or a loop, must
not be visibly other than boolean. -/
def Construct.requireBoolean (construct : Construct) (found : OperandKind) :
    Except Rejection Unit :=
  construct.require .logical OperandKind.isBoolean found

namespace BinaryOperator

/-- Ask the same of both operands, of the left one first. -/
def requireBoth (op : BinaryOperator) (expected : Expectation)
    (accepts : OperandKind → Bool) (lhs rhs : OperandKind) : Except Rejection Unit := do
  Construct.require (.operator op) expected accepts lhs
  Construct.require (.operator op) expected accepts rhs

/-- The kind of an application, or why its operands can never suit it. Equality
compares two numbers or two booleans, so one visible number and one visible
boolean are a mismatch of the right operand. -/
def check (op : BinaryOperator) (lhs rhs : OperandKind) : Except Rejection OperandKind :=
  match op with
  | .arith _ => do
    op.requireBoth .numeric OperandKind.isNumeric lhs rhs
    pure .arithmetic
  | .logic .lt | .logic .le | .logic .gt | .logic .ge => do
    op.requireBoth .numeric OperandKind.isNumeric lhs rhs
    pure .logical
  | .logic .eq => do
    op.requireBoth .comparable (fun kind => kind != .reference) lhs rhs
    match lhs, rhs with
    | .arithmetic, .logical =>
      .error (.mismatchedOperand (.operator op) .numericLikeLeft rhs)
    | .logical, .arithmetic =>
      .error (.mismatchedOperand (.operator op) .logicalLikeLeft rhs)
    | _, _ => pure .logical
  | .logic .and | .logic .or => do
    op.requireBoth .logical OperandKind.isBoolean lhs rhs
    pure .logical

/-- What an accepted application yields depends on its operator alone. -/
theorem kind_of_check {op : BinaryOperator} {lhs rhs kind : OperandKind}
    (accepted : op.check lhs rhs = .ok kind) :
    kind = match op with
      | .arith _ => .arithmetic
      | .logic _ => .logical := by
  cases op with
  | arith op => cases op <;> cases lhs <;> cases rhs <;> cases accepted <;> rfl
  | logic op => cases op <;> cases lhs <;> cases rhs <;> cases accepted <;> rfl

example : (arith .sum).check .generic .arithmetic = .ok .arithmetic := rfl

example : (logic .eq).check .logical .arithmetic =
    .error (.mismatchedOperand (.operator (logic .eq)) .logicalLikeLeft .arithmetic) := rfl

end BinaryOperator

end BlockMachine
