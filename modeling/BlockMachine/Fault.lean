import BlockMachine.Value

namespace BlockMachine

/-! # Faults

Every way in which a step of the machine can fail. Identifiers are given by their
text, since whoever reads a fault need not have the name table. -/

inductive Fault where
  | expectedValue (expected found : String)
  | emptyValueStack (expected : String)
  | undefinedVariable (name : String)
  | undefinedStorageAddress (address : Address)
  | unexpectedImmutableVariable (name : String)
  | expectedLocation (name : String)
  | expectedFunctionIdentifier (name : String)
  | missingParametersInCall (name : String) (expected got : Nat)
  | excessParametersInCall (name : String) (expected got : Nat)
  | unexpectedType (op left right : String)
  | divisionByZero
  | undefinedConstruct (construct : String)
  | stepBudgetExceeded (limit : Nat)
deriving DecidableEq, Inhabited, Repr

namespace Fault

def message : Fault → String
  | expectedValue expected found =>
    "expected " ++ expected ++ " on the value stack, found " ++ found
  | emptyValueStack expected =>
    "expected " ++ expected ++ " on the value stack, found nothing"
  | undefinedVariable name => "undefined variable: " ++ name
  | undefinedStorageAddress address =>
    "undefined storage address: " ++ toString address.index
  | unexpectedImmutableVariable name => "cannot assign to immutable variable: " ++ name
  | expectedLocation name => "expected a location for " ++ name
  | expectedFunctionIdentifier name => name ++ " is not a function"
  | missingParametersInCall name expected got =>
    "missing parameters in call to " ++ name ++ ": expected " ++ toString expected ++
      ", got " ++ toString got
  | excessParametersInCall name expected got =>
    "too many parameters in call to " ++ name ++ ": expected " ++ toString expected ++
      ", got " ++ toString got
  | unexpectedType op left right =>
    "unexpected types for " ++ op ++ ": " ++ left ++ " and " ++ right
  | divisionByZero => "division by zero"
  | undefinedConstruct construct => "undefined construct: " ++ construct
  | stepBudgetExceeded limit => "step budget exceeded (limit: " ++ toString limit ++ ")"

end Fault

end BlockMachine
