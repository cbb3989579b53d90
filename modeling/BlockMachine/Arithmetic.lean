import BlockMachine.Fault
import BlockMachine.Operator

namespace BlockMachine

/-! # Arithmetic

Numbers are double-precision floats. Only division can fail. -/

/-- The value of an arithmetic operator. Dividing by a zero of either sign is a
fault; an overflow is an infinity. -/
def ArithOp.evaluate (op : ArithOp) (lhs rhs : Float) : Except Fault Float :=
  match op with
  | .mul => .ok (lhs * rhs)
  | .div => if rhs == 0.0 then .error .divisionByZero else .ok (lhs / rhs)
  | .sum => .ok (lhs + rhs)
  | .sub => .ok (lhs - rhs)

theorem ArithOp.evaluate_eq_error_iff {op : ArithOp} {lhs rhs : Float} {fault : Fault} :
    op.evaluate lhs rhs = .error fault ↔
      op = .div ∧ (rhs == 0.0) = true ∧ fault = .divisionByZero := by
  cases op with
  | div => cases zero : rhs == 0.0 <;> simp [evaluate, zero, eq_comm]
  | mul => simp [evaluate]
  | sum => simp [evaluate]
  | sub => simp [evaluate]

end BlockMachine
