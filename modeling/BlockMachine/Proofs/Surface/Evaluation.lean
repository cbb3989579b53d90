import BlockMachine.Proofs.Expressions.Operators
import BlockMachine.Surface

namespace BlockMachine

/-! # Evaluation of surface programs

What a surface program means, said without code, stacks or closure tables. An
evaluation works on a world of cells and printed lines, and is given fuel for the
depth to which commands may nest. -/

/-- What an expression yields: plain data, or a function together with the scope it
was declared in and the recursive group it belongs to, if any. -/
inductive Value where
  | storable (value : Storable)
  | function (formals : List String) (body : Block) (captured : List (String × Value))
      (group : List Function)

/-- What each visible identifier stands for, the innermost binding first. -/
abbrev Scope := List (String × Value)

/-- The cells in use, the address that the next one gets, and the lines printed so
far. -/
structure World where
  cells : Address → Option Storable
  next : Nat
  lines : List String

/-- Why an evaluation has no result. -/
inductive Stop where
  | fault (fault : Fault)
  | outOfFuel

/-- A change of the world that may stop; it then keeps what was done before. -/
abbrev Evaluation := EStateM Stop World

namespace World

def empty : World := ⟨fun _ => none, 0, []⟩

def allocate (value : Storable) (world : World) : World where
  cells := fun address => if address = ⟨world.next⟩ then some value else world.cells address
  next := world.next + 1
  lines := world.lines

def write (address : Address) (value : Storable) (world : World) : World :=
  { world with
    cells := fun other => if other = address then some value else world.cells other }

/-- Remove every cell from an address on. -/
def removeFrom (first : Nat) (world : World) : World :=
  { world with
    cells := fun address => if address.index < first then world.cells address else none }

def println (line : String) (world : World) : World :=
  { world with lines := world.lines ++ [line] }

end World

namespace Value

def typeName : Value → String
  | storable value => value.typeName
  | function .. => "closure"

/-- How the value is printed. -/
def text : Value → String
  | storable value => value.text
  | function .. => "<closure>"

/-- What an operator sees of the value. -/
def operand : Value → Operand
  | storable value => .storable value
  | function .. => .function

end Value

namespace Function

def name : Function → String
  | .mk name _ _ => name

/-- A function declared in a scope, as one of a group. -/
def toValue (captured : Scope) (group : List Function) : Function → Value
  | .mk _ formals body => .function formals body captured group

end Function

namespace Evaluation

def stop (reason : Stop) : Evaluation α :=
  fun world => .error reason world

def fail (fault : Fault) : Evaluation α :=
  stop (.fault fault)

/-- What is found without a look at the world. -/
def ofExcept : Except Fault α → Evaluation α
  | .ok value => pure value
  | .error fault => fail fault

def change (step : World → World) : Evaluation Unit :=
  fun world => .ok () (step world)

/-- The plain data that a value is to be. -/
def storable : Value → Evaluation Storable
  | .storable value => pure value
  | other => fail (.expectedValue "storable value" other.typeName)

/-! ## Identifiers and cells -/

def find (scope : Scope) (name : String) : Evaluation Value :=
  match scope.lookup name with
  | some value => pure value
  | none => fail (.undefinedVariable name)

/-- The address that an identifier stands for. -/
def locate (scope : Scope) (name : String) : Evaluation Address := do
  match ← find scope name with
  | .storable (.location address) => pure address
  | _ => fail (.expectedLocation name)

def read (address : Address) : Evaluation Storable :=
  fun world =>
    match world.cells address with
    | some value => .ok value world
    | none => .error (.fault (.undefinedStorageAddress address)) world

def write (address : Address) (value : Storable) : Evaluation Unit :=
  fun world =>
    match world.cells address with
    | some _ => .ok () (world.write address value)
    | none => .error (.fault (.undefinedStorageAddress address)) world

def allocate (value : Storable) : Evaluation Address :=
  fun world => .ok ⟨world.next⟩ (world.allocate value)

/-! ## Expressions -/

/-- The value of an expression. An identifier that stands for an address is read
through the store, once; of two operands the right one is evaluated first. An
unknown lexeme means nothing. -/
def expression (scope : Scope) : Expr → Evaluation Value
  | .ident name => do
    match ← find scope name with
    | .storable (.location address) => do
      let held ← read address
      pure (.storable held)
    | other => pure other
  | .num value => pure (.storable (.number value))
  | .bool value => pure (.storable (.boolean value))
  | .binary lexeme lhs rhs => do
    let right ← expression scope rhs
    let left ← expression scope lhs
    match BinaryOperator.ofLexeme? lexeme with
    | some op => do
      let result ← ofExcept (op.combine left.operand right.operand)
      pure (.storable result)
    | none => fail (.undefinedConstruct lexeme)
  | .not operand => do
    let value ← expression scope operand
    let result ← ofExcept value.operand.negate
    pure (.storable result)
  | .addressOf name => do
    let address ← locate scope name
    pure (.storable (.location address))
  | .valueOf name => do
    let cell ← locate scope name
    match ← read cell with
    | .location target => do
      let held ← read target
      pure (.storable held)
    | _ => fail (.expectedLocation name)

def condition (scope : Scope) (test : Expr) : Evaluation Bool := do
  let value ← expression scope test
  ofExcept value.operand.boolean

/-- The values of actuals, the last of them evaluated first. -/
def actuals (scope : Scope) : List Expr → Evaluation (List Value)
  | [] => pure []
  | first :: rest => do
    let values ← actuals scope rest
    let value ← expression scope first
    pure (value :: values)

/-! ## Declarations -/

/-- A new cell for a value that a cell can hold. -/
def newCell (value : Value) : Evaluation Address := do
  let content ← storable value
  allocate content

/-- What a declaration binds, in order. Nothing it binds is visible to it; the
members of a group find one another when they are called. -/
def declaration (scope : Scope) : Declaration → Evaluation (List (String × Value))
  | .var name initial => do
    let value ← expression scope initial
    let address ← newCell value
    pure [(name, .storable (.location address))]
  | .const name expr => do
    let value ← expression scope expr
    pure [(name, value)]
  | .function declared => pure [(declared.name, declared.toValue scope [])]
  | .recursive group =>
    pure (group.map fun member => (member.name, member.toValue scope group))

def declarations (scope : Scope) : List Declaration → Evaluation (List (String × Value))
  | [] => pure []
  | first :: rest => do
    let bound ← declaration scope first
    let others ← declarations scope rest
    pure (bound ++ others)

/-! ## Commands -/

/-- A block: its declarations are evaluated in the scope around it and become
visible together; its commands, run by `run`, see them; and the cells allocated
since its start are gone at its end. -/
def block (run : Scope → Command → Evaluation Unit) (scope : Scope) : Block → Evaluation Unit
  | .mk parts body => do
    let first ← World.next <$> get
    let declared ← declarations scope parts
    body.forM (run (declared.reverse ++ scope))
    change (World.removeFrom first)

/-- Only an identifier that stands for an address can be assigned to. -/
def assign (scope : Scope) (target : String) (value : Value) : Evaluation Unit := do
  let content ← storable value
  match ← find scope target with
  | .storable (.location address) => write address content
  | _ => fail (.unexpectedImmutableVariable target)

/-- A call must have as many actuals as its callee has formals. -/
def requireArity (callee : String) (expected got : Nat) : Evaluation Unit :=
  if got < expected then
    fail (.missingParametersInCall callee expected got)
  else if expected < got then
    fail (.excessParametersInCall callee expected got)
  else
    pure ()

/-- The scope of a function's body: formals over the members of its group over what
was visible where it was declared. -/
def calleeScope (formals : List String) (captured : Scope) (group : List Function)
    (values : List Value) : Scope :=
  (formals.zip values).reverse ++
    ((group.map fun member => (member.name, member.toValue captured group)).reverse ++ captured)

/-- A call evaluates its actuals before it looks for its callee. -/
def call (run : Scope → Command → Evaluation Unit) (scope : Scope) (callee : String)
    (exprs : List Expr) : Evaluation Unit := do
  let values ← actuals scope exprs
  match ← find scope callee with
  | .function formals body captured group => do
    requireArity callee formals.length exprs.length
    block run (calleeScope formals captured group values) body
  | .storable _ => fail (.expectedFunctionIdentifier callee)

/-- Run a command. The fuel bounds how deep commands nest, each round of a loop and
each call being inside the one before. -/
def command : (fuel : Nat) → Scope → Command → Evaluation Unit
  | 0, _, _ => stop .outOfFuel
  | fuel + 1, scope, current =>
    match current with
    | .nop => pure ()
    | .assign target expr => do
      let value ← expression scope expr
      assign scope target value
    | .loop test body => do
      if ← condition scope test then
        body.forM (command fuel scope)
        command fuel scope (.loop test body)
    | .ifThen test thenCommands => do
      if ← condition scope test then
        thenCommands.forM (command fuel scope)
    | .ifThenElse test thenCommands elseCommands => do
      if ← condition scope test then
        thenCommands.forM (command fuel scope)
      else
        elseCommands.forM (command fuel scope)
    | .block inner => block (command fuel) scope inner
    | .print expr => do
      let value ← expression scope expr
      change (World.println value.text)
    | .call callee exprs => call (command fuel) scope callee exprs

/-- Run a whole program in an empty world. -/
def program (fuel : Nat) (body : List Command) : EStateM.Result Stop World Unit :=
  body.forM (command fuel []) World.empty

/-- How a program ends, given enough fuel: with no fault or with one, and in some
world. -/
inductive Ends (body : List Command) : Except Fault Unit → World → Prop where
  | halted {fuel : Nat} {world : World} (evaluated : program fuel body = .ok () world) :
      Ends body (.ok ()) world
  | failed {fuel : Nat} {fault : Fault} {world : World}
      (evaluated : program fuel body = .error (.fault fault) world) : Ends body (.error fault) world

/-- Whether no fuel is enough for a program. -/
def Diverges (body : List Command) : Prop :=
  ∀ fuel, ∃ world, program fuel body = .error .outOfFuel world

/-! ## Fuel -/

/-- Whether an evaluation does what another one does unless that runs out of
fuel. -/
def Refines (better worse : Evaluation α) : Prop :=
  ∀ world, (∃ after, worse world = .error .outOfFuel after) ∨ better world = worse world

namespace Refines

theorem refl (evaluation : Evaluation α) : evaluation.Refines evaluation :=
  fun _ => .inr rfl

theorem bind {better worse : Evaluation α} {next others : α → Evaluation β}
    (first : better.Refines worse) (second : ∀ value, (next value).Refines (others value)) :
    (better >>= next).Refines (worse >>= others) := by
  intro world
  simp only [Bind.bind, EStateM.bind]
  rcases first world with ⟨after, stopped⟩ | same
  · rw [stopped]
    exact .inl ⟨after, rfl⟩
  · rw [same]
    cases worse world with
    | ok value middle => exact second value middle
    | error reason middle => exact .inr rfl

theorem forM {run other : Command → Evaluation Unit} (refines : ∀ current,
    (run current).Refines (other current)) (body : List Command) :
    (body.forM run).Refines (body.forM other) := by
  induction body with
  | nil => exact .refl _
  | cons current body induction => exact (refines current).bind fun _ => induction

theorem block {run other : Scope → Command → Evaluation Unit} (refines : ∀ scope current,
    (run scope current).Refines (other scope current)) (scope : Scope) (tree : Block) :
    (block run scope tree).Refines (Evaluation.block other scope tree) := by
  cases tree with
  | mk parts body =>
      exact .bind (.refl _) fun first => .bind (.refl _) fun declared =>
        .bind (.forM (refines _) body) fun _ => .refl _

theorem call {run other : Scope → Command → Evaluation Unit} (refines : ∀ scope current,
    (run scope current).Refines (other scope current)) (scope : Scope) (callee : String)
    (exprs : List Expr) :
    (call run scope callee exprs).Refines (Evaluation.call other scope callee exprs) := by
  refine .bind (.refl _) fun values => .bind (.refl _) fun value => ?_
  cases value with
  | storable value => exact .refl _
  | function formals body captured group =>
      exact .bind (.refl _) fun _ => .block refines _ body

end Refines

/-- More fuel changes nothing but that less evaluations run out of it. -/
theorem command_refines {fewer more : Nat} (atMost : fewer ≤ more) (scope : Scope)
    (current : Command) : (command more scope current).Refines (command fewer scope current) := by
  induction fewer generalizing more scope current with
  | zero => exact fun world => .inl ⟨world, rfl⟩
  | succ fewer induction =>
      cases more with
      | zero => exact absurd atMost (Nat.not_succ_le_zero _)
      | succ more =>
          have inside := @induction more (Nat.le_of_succ_le_succ atMost)
          cases current with
          | nop => exact .refl _
          | assign target expr => exact .refl _
          | print expr => exact .refl _
          | block tree => exact .block inside scope tree
          | call callee exprs => exact .call inside scope callee exprs
          | loop test body =>
              refine .bind (.refl _) fun holds => ?_
              cases holds with
              | false => exact .refl _
              | true => exact .bind (.forM (inside scope) body) fun _ => inside scope _
          | ifThen test body =>
              refine .bind (.refl _) fun holds => ?_
              cases holds with
              | false => exact .refl _
              | true => exact .forM (inside scope) body
          | ifThenElse test thenCommands elseCommands =>
              refine .bind (.refl _) fun holds => ?_
              cases holds with
              | false => exact .forM (inside scope) elseCommands
              | true => exact .forM (inside scope) thenCommands

theorem program_eq_of_le {fewer more : Nat} {body : List Command} (atMost : fewer ≤ more)
    (enough : ∀ world, program fewer body ≠ .error .outOfFuel world) :
    program more body = program fewer body := by
  rcases Refines.forM (command_refines atMost []) body World.empty with ⟨world, stopped⟩ | same
  · exact absurd stopped (enough world)
  · exact same

/-- The result of a program that ends. -/
def finished (world : World) : Except Fault Unit → EStateM.Result Stop World Unit
  | .ok () => .ok () world
  | .error fault => .error (.fault fault) world

theorem Ends.exists_program {body : List Command} {ending : Except Fault Unit} {world : World}
    (ends : Ends body ending world) :
    ∃ fuel, ∀ more, fuel ≤ more → program more body = finished world ending := by
  cases ends with
  | @halted fuel _ evaluated =>
      refine ⟨fuel, fun more atMost => ?_⟩
      rw [program_eq_of_le atMost (by simp [evaluated]), evaluated, finished]
  | @failed fuel fault _ evaluated =>
      refine ⟨fuel, fun more atMost => ?_⟩
      rw [program_eq_of_le atMost (by simp [evaluated]), evaluated, finished]

/-- A program comes to one end only. -/
theorem Ends.unique {body : List Command} {first second : Except Fault Unit} {world other : World}
    (left : Ends body first world) (right : Ends body second other) :
    first = second ∧ world = other := by
  rcases left.exists_program with ⟨fuel, evaluated⟩
  rcases right.exists_program with ⟨fuelOther, evaluatedOther⟩
  have both := evaluated (fuel + fuelOther) (Nat.le_add_right _ _)
  rw [evaluatedOther (fuel + fuelOther) (Nat.le_add_left _ _)] at both
  cases first <;> cases second <;> cases both <;> exact ⟨rfl, rfl⟩

end Evaluation

end BlockMachine
