import BlockMachine.Arithmetic
import BlockMachine.Machine.State

namespace BlockMachine

/-! # Applying an opcode

An opcode takes the values of its operands from the value stack, the first
operand's from the top. -/

namespace Action

open ValueStack

/-! ## Operators -/

def applyArith (op : ArithOp) : Action Unit := do
  let lhs ← onValues popNumber
  let rhs ← onValues popNumber
  match op.evaluate lhs rhs with
  | .ok result => push (.number result)
  | .error fault => fail fault

def compareNumbers (holds : Float → Float → Bool) : Action Unit := do
  let lhs ← onValues popNumber
  let rhs ← onValues popNumber
  push (.boolean (holds lhs rhs))

/-- Both operands have been evaluated, whatever the first one says. -/
def connectBooleans (connective : Bool → Bool → Bool) : Action Unit := do
  let lhs ← onValues popBoolean
  let rhs ← onValues popBoolean
  push (.boolean (connective lhs rhs))

/-- Two numbers or two booleans can be compared, nothing else. -/
def areEqual? : StackValue → StackValue → Option Bool
  | .bindable (.storable (.number lhs)), .bindable (.storable (.number rhs)) =>
    some (lhs == rhs)
  | .bindable (.storable (.boolean lhs)), .bindable (.storable (.boolean rhs)) =>
    some (lhs == rhs)
  | _, _ => none

def compareEqual : Action Unit := do
  let lhs ← onValues (pop "operand of EQ")
  let rhs ← onValues (pop "operand of EQ")
  match areEqual? lhs rhs with
  | some result => push (.boolean result)
  | none => fail (.unexpectedType "EQ" lhs.typeName rhs.typeName)

def applyLogic : LogicOp → Action Unit
  | .lt => compareNumbers fun lhs rhs => lhs < rhs
  | .le => compareNumbers fun lhs rhs => lhs ≤ rhs
  | .gt => compareNumbers fun lhs rhs => lhs > rhs
  | .ge => compareNumbers fun lhs rhs => lhs ≥ rhs
  | .eq => compareEqual
  | .and => connectBooleans fun lhs rhs => lhs && rhs
  | .or => connectBooleans fun lhs rhs => lhs || rhs

def applyNot : Action Unit := do
  let operand ← onValues popBoolean
  push (.boolean (!operand))

/-! ## Cells and names -/

/-- Only a name bound to a cell can be assigned to. -/
def applyAssign (image : Image) : Action Unit := do
  let value ← onValues popStorable
  let target ← onValues popIdentifier
  match ← lookup image target with
  | .storable (.location address) => write address value
  | _ => fail (.unexpectedImmutableVariable (image.text target))

def applyRef : Action Unit := do
  let initial ← onValues popStorable
  let address ← allocate initial
  push (.location address)

def applyBind : Action Unit := do
  let value ← onValues popBindable
  let name ← onValues popIdentifier
  onValues (declare [(name, value)])

/-- Take one closure for each member of a group, the first member's from the
top. -/
def popMembers : List Binding → Action (List Member)
  | [] => pure []
  | (name, _) :: rest => do
    let reference ← onValues popClosure
    let members ← popMembers rest
    pure ((name, reference.closure) :: members)

/-- Bind the members of a group one after another, each to its closure, which knows the
group. -/
def bindMembers (group : GroupId) (declared : Environment) : List Member → Environment
  | [] => declared
  | (name, closure) :: rest =>
    bindMembers group (declared.bind name (.closure (.recursive closure group))) rest

/-- The members of a group are bound to what its environment binds them to. -/
theorem bindMembers_eq_bindAll (group : GroupId) (declared : Environment) (members : List Member) :
    bindMembers group declared members =
      declared.bindAll (ClosureTable.memberBindings group members) := by
  induction members generalizing declared with
  | nil => rfl
  | cons member rest induction => exact induction _

theorem changeDeclarations_bindMembers (group : GroupId) (members : List Member) :
    changeDeclarations (fun declared => bindMembers group declared members) =
      declare (ClosureTable.memberBindings group members) := by
  simp only [bindMembers_eq_bindAll, declare]

/-- Declare the members of a recursive group. -/
def applyRecBind (image : Image) (node : NodeId) : Action Unit := do
  match ← fetch image node with
  | .recBind span => do
    let members ← popMembers (image.code.group span)
    let group ← addGroup members
    onValues (changeDeclarations fun declared => bindMembers group declared members)
  | _ => fail (.undefinedConstruct "RBND without a recursive binding")

/-! ## Blocks -/

/-- Make the declarations of a block visible. -/
def applyBlockDeclarations : Action Unit := do
  let declared ← onValues popDeclarations
  let outer ← currentEnvironment
  setEnvironment (outer.extend declared)

/-! ## Conditionals and loops -/

def applyCond (image : Image) : Action Unit := do
  let condition ← onValues popBoolean
  let node ← onValues popPending
  match ← fetch image node with
  | .conditional _ thenBranch elseBranch =>
    if condition then
      schedule [.node thenBranch]
    else
      match elseBranch with
      | some elseBranch => schedule [.node elseBranch]
      | none => pure ()
  | _ => fail (.undefinedConstruct "COND without a conditional")

/-- A loop whose condition holds runs its body and is entered again. -/
def applyLoop (image : Image) : Action Unit := do
  let condition ← onValues popBoolean
  let node ← onValues popPending
  match ← fetch image node with
  | .loop _ body =>
    if condition then schedule [.node body, .node node] else pure ()
  | _ => fail (.undefinedConstruct "LOOP without a loop")

def applyPrint : Action Unit := do
  let value ← onValues popBindable
  println value.text

/-! ## Calls -/

/-- A call must have as many actuals as its callee has formals. -/
def requireArity (callee : String) (expected got : Nat) : Action Unit :=
  if got < expected then
    fail (.missingParametersInCall callee expected got)
  else if expected < got then
    fail (.excessParametersInCall callee expected got)
  else
    pure ()

/-- Bind formals to actuals, the first actual being on top. -/
def bindActuals (environment : Environment) : List Name → Action Environment
  | [] => pure environment
  | formal :: formals => do
    let actual ← onValues popBindable
    bindActuals (environment.bind formal actual) formals

/-- The environment in which a closure was made, overlaid with its recursive group
if it belongs to one. -/
def homeEnvironment (closure : Closure) (group : Option GroupId) : Action Environment :=
  match group with
  | none => pure closure.captured
  | some group => do
    let bindings ← unfold group
    pure (closure.captured.extend bindings)

/-- Run the body of a closure in its own environment, overlaid with its
formals. -/
def applyCall (image : Image) (callee : Name) (arity : Nat) : Action Unit := do
  match ← lookup image callee with
  | .closure reference => do
    let closure ← closureAt reference.closure
    let formals := image.code.formals closure.formals
    requireArity (image.text callee) formals.length arity
    let home ← homeEnvironment closure reference.group
    let environment ← bindActuals home formals
    openScope
    setEnvironment environment
    schedule [.node closure.body, .op .blockCommands]
  | .storable _ => fail (.expectedFunctionIdentifier (image.text callee))

def apply (image : Image) : Opcode → Action Unit
  | .arith op => applyArith op
  | .logic op => applyLogic op
  | .not => applyNot
  | .assign => applyAssign image
  | .bind => applyBind
  | .recBind node => applyRecBind image node
  | .ref => applyRef
  | .blockDeclarations => applyBlockDeclarations
  | .blockCommands => closeScope
  | .cond => applyCond image
  | .loop => applyLoop image
  | .print => applyPrint
  | .call callee arity => applyCall image callee arity

end Action

end BlockMachine
