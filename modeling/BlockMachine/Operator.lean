namespace BlockMachine

/-! # Operators

The two families of binary operators, their mnemonics in machine code, and the
lexemes that stand for them in surface programs. -/

/-- Operators from two numbers to a number. -/
inductive ArithOp where
  | mul
  | div
  | sum
  | sub
deriving DecidableEq, Repr

namespace ArithOp

def mnemonic : ArithOp → String
  | mul => "MUL"
  | div => "DIV"
  | sum => "SUM"
  | sub => "SUB"

end ArithOp

/-- Operators to a boolean: order of numbers, equality, and connectives. -/
inductive LogicOp where
  | lt
  | le
  | gt
  | ge
  | eq
  | and
  | or
deriving DecidableEq, Repr

namespace LogicOp

def mnemonic : LogicOp → String
  | lt => "LT"
  | le => "LE"
  | gt => "GT"
  | ge => "GE"
  | eq => "EQ"
  | and => "AND"
  | or => "OR"

/-- Whether the operator orders two numbers. Equality does not: it also applies
to booleans. -/
def isComparison : LogicOp → Bool
  | lt | le | gt | ge => true
  | eq | and | or => false

end LogicOp

/-- Any binary operator of the language. -/
inductive BinaryOperator where
  | arith (op : ArithOp)
  | logic (op : LogicOp)
deriving DecidableEq, Repr

namespace BinaryOperator

def mnemonic : BinaryOperator → String
  | arith op => op.mnemonic
  | logic op => op.mnemonic

/-! ## Lexemes -/

/-- How a surface program writes the operator. -/
def lexeme : BinaryOperator → String
  | arith .sum => "+"
  | arith .sub => "-"
  | arith .mul => "*"
  | arith .div => "/"
  | logic .lt => "<"
  | logic .le => "<="
  | logic .gt => ">"
  | logic .ge => ">="
  | logic .eq => "=="
  | logic .and => "and"
  | logic .or => "or"

/-- The operator that a lexeme stands for. -/
def ofLexeme? : String → Option BinaryOperator
  | "+" => some (arith .sum)
  | "-" => some (arith .sub)
  | "*" => some (arith .mul)
  | "/" => some (arith .div)
  | "<" => some (logic .lt)
  | "<=" => some (logic .le)
  | ">" => some (logic .gt)
  | ">=" => some (logic .ge)
  | "==" => some (logic .eq)
  | "and" => some (logic .and)
  | "or" => some (logic .or)
  | _ => none

@[simp] theorem ofLexeme?_lexeme (op : BinaryOperator) : ofLexeme? op.lexeme = some op := by
  cases op with
  | arith op => cases op <;> rfl
  | logic op => cases op <;> rfl

/-- Every operator has one lexeme, and nothing else stands for it. -/
theorem ofLexeme?_eq_some_iff {text : String} {op : BinaryOperator} :
    ofLexeme? text = some op ↔ text = op.lexeme := by
  constructor
  · intro known
    unfold ofLexeme? at known
    split at known <;> cases known <;> rfl
  · rintro rfl
    exact ofLexeme?_lexeme op

end BinaryOperator

end BlockMachine
