import BlockMachine.Machine.State

namespace BlockMachine

/-! # Entering a node

A node without operands yields its value at once. Any other node schedules its
operands, and after them the opcode that uses their values. Operands to be used
together are evaluated from the last to the first, so that the value of the first
one ends up on top. -/

namespace Action

/-- The value of an identifier. What is bound to a cell stands for what the cell
holds. -/
def enterIdentifier (image : Image) (name : Name) : Action Unit := do
  match ← lookup image name with
  | .storable (.location address) => do
    let held ← read address
    push (.storable held)
  | other => push (.bindable other)

/-- What the cell holds whose address is in the cell of `name`. -/
def enterValueOf (image : Image) (name : Name) : Action Unit := do
  let cell ← locationOf image name
  match ← read cell with
  | .location target => do
    let held ← read target
    push (.storable held)
  | _ => fail (.expectedLocation (image.text name))

/-- Every declaration of a block sees the environment in force at its start; what
they declare is collected, and takes effect together. -/
def enterBlock (declarations commands : NodeId) : Action Unit := do
  openScope
  push (.declarations .empty)
  schedule [.node declarations, .op .blockDeclarations, .node commands, .op .blockCommands]

/-- The members of a recursive group must all be functions. -/
def requireFunctions (image : Image) : List Binding → Action Unit
  | [] => pure ()
  | (_, id) :: rest => do
    match ← fetch image id with
    | .abstraction _ _ => requireFunctions image rest
    | _ => fail (.undefinedConstruct "recursive binding of a non-function")

/-- Schedule operands, the last one first, and then the opcode that uses them. -/
def scheduleOperands (operands : List NodeId) (opcode : Opcode) : Action Unit :=
  schedule (operands.reverse.map Control.node ++ [.op opcode])

def enterNode (image : Image) (id : NodeId) : Node → Action Unit
  | .identifier name => enterIdentifier image name
  | .number value => push (.number value)
  | .truth value => push (.boolean value)
  | .arith op lhs rhs => scheduleOperands [lhs, rhs] (.arith op)
  | .logic op lhs rhs => scheduleOperands [lhs, rhs] (.logic op)
  | .not operand => scheduleOperands [operand] .not
  | .addressOf name => do
    let address ← locationOf image name
    push (.location address)
  | .valueOf name => enterValueOf image name
  | .allocateReference initial => scheduleOperands [initial] .ref
  | .noOp => pure ()
  | .assign target value => do
    push (.identifier target)
    scheduleOperands [value] .assign
  | .sequence first second => schedule [.node first, .node second]
  | .conditional condition _ _ => do
    push (.pending id)
    scheduleOperands [condition] .cond
  | .loop condition _ => do
    push (.pending id)
    scheduleOperands [condition] .loop
  | .block declarations commands => enterBlock declarations commands
  | .print value => scheduleOperands [value] .print
  | .call callee actuals =>
    let operands := image.code.actuals actuals
    scheduleOperands operands (.call callee operands.length)
  | .bind name value => do
    push (.identifier name)
    scheduleOperands [value] .bind
  | .recBind span => do
    let group := image.code.group span
    requireFunctions image group
    scheduleOperands (group.map Prod.snd) (.recBind id)
  | .abstraction formals body => do
    let captured ← currentEnvironment
    let closure ← insertClosure ⟨formals, body, captured⟩
    push (.closure (.plain closure))

/-- Enter the node at a position of the code. -/
def enter (image : Image) (id : NodeId) : Action Unit := do
  let node ← fetch image id
  enterNode image id node

end Action

end BlockMachine
