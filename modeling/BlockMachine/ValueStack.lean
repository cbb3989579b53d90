import BlockMachine.Fault
import BlockMachine.ClosureTable
import BlockMachine.Store

namespace BlockMachine

/-! # The value stack

Beside the values of expressions the stack holds what an unfinished construct has
to remember: the target of an assignment or declaration, the node of a
conditional or loop, and what a block or call has to restore. -/

inductive StackValue where
  | bindable (value : Bindable)
  | identifier (name : Name)
  | pending (node : NodeId)
  | environment (saved : Environment)
  | region (saved : Region)
  | mark (saved : Mark)
  | declarations (collected : Environment)
deriving BEq, Inhabited

namespace StackValue

def number (value : Float) : StackValue := bindable (.storable (.number value))

def boolean (value : Bool) : StackValue := bindable (.storable (.boolean value))

def location (address : Address) : StackValue := bindable (.storable (.location address))

def closure (reference : ClosureRef) : StackValue := bindable (.closure reference)

def storable (value : Storable) : StackValue := bindable (.storable value)

def typeName : StackValue → String
  | bindable value => value.typeName
  | identifier .. => "identifier"
  | pending .. => "pending node"
  | environment .. => "environment snapshot"
  | region .. => "location set snapshot"
  | mark .. => "closure table mark"
  | declarations .. => "declarations"

/-! ## Views

Each says whether an entry is of the kind that is needed, and takes it apart. -/

def bindable? : StackValue → Option Bindable
  | bindable value => some value
  | _ => none

def storable? (entry : StackValue) : Option Storable :=
  entry.bindable?.bind Bindable.storable?

def number? : StackValue → Option Float
  | bindable (.storable (.number value)) => some value
  | _ => none

def boolean? : StackValue → Option Bool
  | bindable (.storable (.boolean value)) => some value
  | _ => none

def closure? : StackValue → Option ClosureRef
  | bindable (.closure reference) => some reference
  | _ => none

def identifier? : StackValue → Option Name
  | identifier name => some name
  | _ => none

def pending? : StackValue → Option NodeId
  | pending node => some node
  | _ => none

def environment? : StackValue → Option Environment
  | environment saved => some saved
  | _ => none

def region? : StackValue → Option Region
  | region saved => some saved
  | _ => none

def mark? : StackValue → Option Mark
  | mark saved => some saved
  | _ => none

def declarations? : StackValue → Option Environment
  | declarations collected => some collected
  | _ => none

end StackValue

/-- The entries of a value stack, the top one first. -/
abbrev ValueStack := List StackValue

/-- An operation on a value stack, which may fail; what it had removed by then
stays removed. -/
abbrev StackAction := EStateM Fault ValueStack

namespace ValueStack

/-- Remove the top entry. `expected` is what a fault says was looked for. -/
def pop (expected : String) : StackAction StackValue
  | [] => .error (.emptyValueStack expected) []
  | top :: rest => .ok top rest

/-- Remove the top entry and view it as what was expected. An entry of another
kind is a fault, and is removed all the same. -/
def popAs (expected : String) (view : StackValue → Option α) : StackAction α
  | [] => .error (.emptyValueStack expected) []
  | top :: rest =>
    match view top with
    | some value => .ok value rest
    | none => .error (.expectedValue expected top.typeName) rest

def popNumber : StackAction Float := popAs "number" StackValue.number?

def popBoolean : StackAction Bool := popAs "boolean" StackValue.boolean?

def popBindable : StackAction Bindable := popAs "bindable value" StackValue.bindable?

def popStorable : StackAction Storable := popAs "storable value" StackValue.storable?

def popClosure : StackAction ClosureRef := popAs "closure" StackValue.closure?

def popIdentifier : StackAction Name := popAs "identifier" StackValue.identifier?

def popPending : StackAction NodeId := popAs "pending node" StackValue.pending?

def popEnvironment : StackAction Environment :=
  popAs "environment snapshot" StackValue.environment?

def popRegion : StackAction Region := popAs "location set snapshot" StackValue.region?

def popMark : StackAction Mark := popAs "closure table mark" StackValue.mark?

def popDeclarations : StackAction Environment := popAs "declarations" StackValue.declarations?

/-- Change the declarations on top of the stack. Anything else there is a fault, and
stays. -/
def changeDeclarations (change : Environment → Environment) : StackAction Unit
  | [] => .error (.emptyValueStack "declarations") []
  | .declarations collected :: rest => .ok () (.declarations (change collected) :: rest)
  | top :: rest => .error (.expectedValue "declarations" top.typeName) (top :: rest)

/-- Add bindings to the declarations on top of the stack. -/
def declare (bindings : List (Name × Bindable)) : StackAction Unit :=
  changeDeclarations fun collected => collected.bindAll bindings

end ValueStack

end BlockMachine
