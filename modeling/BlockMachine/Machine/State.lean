import BlockMachine.Code.Opcode
import BlockMachine.Code.Program
import BlockMachine.Output
import BlockMachine.ValueStack

namespace BlockMachine

/-! # Machine states

A machine keeps what is still to be done on one stack and the values that are to
be used on another. The environment and the region belong to the innermost open
block or call; those of the blocks and calls around it are saved among the
values. -/

/-- What a machine runs: a program, and the names that its code mentions. -/
structure Image where
  program : Program
  names : NameTable
deriving Inhabited

namespace Image

def code (image : Image) : Code :=
  image.program.code

def text (image : Image) (name : Name) : String :=
  image.names.text name

end Image

/-- Everything that a step may change. The control stack has its top entry first,
like the value stack. -/
structure State where
  control : List Control
  values : ValueStack
  store : Store
  environment : Environment
  region : Region
  closures : ClosureTable
  printer : Printer
  steps : Nat
deriving Inhabited

namespace State

/-- The state in which a program is entered. -/
def start (root : NodeId) (printer : Printer) : State where
  control := [.node root]
  values := []
  store := .empty
  environment := .empty
  region := .empty
  closures := .empty
  printer := printer
  steps := 0

end State

/-- A change of state that may fail. A failure keeps the changes made before. -/
abbrev Action := EStateM Fault State

namespace Action

def fail (fault : Fault) : Action α :=
  fun state => .error fault state

/-! ## Stacks -/

/-- Work on the value stack alone. -/
def onValues (operation : StackAction α) : Action α :=
  fun state =>
    match operation state.values with
    | .ok result values => .ok result { state with values := values }
    | .error fault values => .error fault { state with values := values }

def push (value : StackValue) : Action Unit :=
  fun state => .ok () { state with values := value :: state.values }

/-- Put entries on the control stack so that they run in the order given. -/
def schedule (entries : List Control) : Action Unit :=
  fun state => .ok () { state with control := entries ++ state.control }

/-! ## Code and names -/

def fetch (image : Image) (id : NodeId) : Action Node :=
  match image.code.node? id with
  | some node => pure node
  | none => fail (.undefinedConstruct ("node " ++ toString id.index))

def lookup (image : Image) (name : Name) : Action Bindable :=
  fun state =>
    match state.environment.lookup name with
    | some value => .ok value state
    | none => .error (.undefinedVariable (image.text name)) state

/-- The address that a name is bound to. -/
def locationOf (image : Image) (name : Name) : Action Address := do
  match ← lookup image name with
  | .storable (.location address) => pure address
  | _ => fail (.expectedLocation (image.text name))

/-! ## Store and output -/

def read (address : Address) : Action Storable :=
  fun state =>
    match state.store.read address with
    | .ok value => .ok value state
    | .error fault => .error fault state

def write (address : Address) (value : Storable) : Action Unit :=
  fun state =>
    match state.store.write address value with
    | .ok store => .ok () { state with store := store }
    | .error fault => .error fault state

/-- A new cell, which belongs to the innermost open block or call. -/
def allocate (value : Storable) : Action Address :=
  fun ⟨control, values, store, environment, region, closures, printer, steps⟩ =>
    let (address, store) := store.allocate value
    .ok address
      ⟨control, values, store, environment, region.push address, closures, printer, steps⟩

def println (line : String) : Action Unit :=
  fun state => .ok () { state with printer := state.printer.println line }

/-! ## Closures -/

def insertClosure (closure : Closure) : Action ClosureId :=
  fun ⟨control, values, store, environment, region, closures, printer, steps⟩ =>
    let (id, closures) := closures.insert closure
    .ok id ⟨control, values, store, environment, region, closures, printer, steps⟩

def addGroup (members : List Member) : Action GroupId :=
  fun ⟨control, values, store, environment, region, closures, printer, steps⟩ =>
    let (id, closures) := closures.addGroup members
    .ok id ⟨control, values, store, environment, region, closures, printer, steps⟩

def closureAt (id : ClosureId) : Action Closure :=
  fun state =>
    match state.closures.closure? id with
    | some closure => .ok closure state
    | none => .error (.undefinedConstruct ("closure " ++ toString id.index)) state

/-- The bindings of a recursive group. -/
def unfold (id : GroupId) : Action Environment :=
  fun state =>
    match state.closures.groupEnvironment? id with
    | some bindings => .ok bindings state
    | none => .error (.undefinedConstruct ("fragment " ++ toString id.index)) state

/-! ## Scopes

A block and a call open a scope and close it in the same way. -/

def currentEnvironment : Action Environment :=
  fun state => .ok state.environment state

def setEnvironment (environment : Environment) : Action Unit :=
  fun state => .ok () { state with environment := environment }

/-- Save what the end of the scope restores, and start an empty region. -/
def openScope : Action Unit :=
  fun state => .ok () { state with
    values := .mark state.closures.mark :: .region state.region ::
      .environment state.environment :: state.values
    region := .empty }

/-- Free the cells of the scope and restore what its start saved. -/
def closeScope : Action Unit := do
  let mark ← onValues ValueStack.popMark
  let region ← onValues ValueStack.popRegion
  let environment ← onValues ValueStack.popEnvironment
  fun state => .ok () { state with
    store := state.region.release state.store
    region := region
    environment := environment
    closures := state.closures.truncate mark }

end Action

end BlockMachine
