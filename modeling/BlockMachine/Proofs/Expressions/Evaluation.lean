import BlockMachine.Proofs.Expressions.Operators
import BlockMachine.Proofs.Machine.Execution
import BlockMachine.Surface

namespace BlockMachine

/-! # Values of expressions

What an expression yields in an environment and a store, said by recursion on the
expression. The environment may bind what no surface program can make it bind, so this
is about the machine's own values. Where a value or a fault is found without a state, an
action of the machine finds the same. -/

/-- What an identifier and a store give an expression. -/
structure Reading where
  names : NameTable
  environment : Environment
  store : Store

namespace Reading

def find (reading : Reading) (text : String) : Except Fault Bindable :=
  match (reading.names.find? text).bind reading.environment.lookup with
  | some value => .ok value
  | none => .error (.undefinedVariable text)

/-- The address that an identifier stands for. -/
def locate (reading : Reading) (text : String) : Except Fault Address := do
  match ← reading.find text with
  | .storable (.location address) => pure address
  | _ => .error (.expectedLocation text)

end Reading

namespace Expr

/-- The value of an expression. Of two operands the right one is evaluated first, and both
before their operator. An unknown lexeme means nothing. -/
def evaluate (reading : Reading) : Expr → Except Fault Bindable
  | .ident text => do
    match ← reading.find text with
    | .storable (.location address) => do
      let held ← reading.store.read address
      pure (.storable held)
    | other => pure other
  | .num value => .ok (.storable (.number value))
  | .bool value => .ok (.storable (.boolean value))
  | .binary lexeme lhs rhs => do
    let right ← rhs.evaluate reading
    let left ← lhs.evaluate reading
    match BinaryOperator.ofLexeme? lexeme with
    | some op => do
      let result ← op.combine left.operand right.operand
      pure (.storable result)
    | none => .error (.undefinedConstruct lexeme)
  | .not operand => do
    let value ← operand.evaluate reading
    let result ← value.operand.negate
    pure (.storable result)
  | .addressOf text => do
    let address ← reading.locate text
    pure (.storable (.location address))
  | .valueOf text => do
    let cell ← reading.locate text
    match ← reading.store.read cell with
    | .location target => do
      let held ← reading.store.read target
      pure (.storable held)
    | _ => .error (.expectedLocation text)

/-- How many steps the machine takes for an expression: one for each leaf, and two for
each operator. -/
def cost : Expr → Nat
  | .ident _ | .num _ | .bool _ | .addressOf _ | .valueOf _ => 1
  | .binary _ lhs rhs => lhs.cost + rhs.cost + 2
  | .not operand => operand.cost + 2

end Expr

/-! ## Actions that find values -/

/-- Whether an action succeeds as a computation without state does, or both come up with
the same fault. -/
inductive Accords (Good : α → β → State → Prop) :
    Except Fault α → EStateM.Result Fault State β → Prop where
  | ok {value : α} {result : β} {state : State} (good : Good value result state) :
      Accords Good (.ok value) (.ok result state)
  | error (fault : Fault) (state : State) : Accords Good (.error fault) (.error fault state)

namespace Accords

variable {Good : α → β → State → Prop}

theorem mono {Weaker : α → β → State → Prop} {found : Except Fault α}
    {acted : EStateM.Result Fault State β} (accords : Accords Good found acted)
    (implies : ∀ value result state, Good value result state → Weaker value result state) :
    Accords Weaker found acted := by
  cases accords with
  | ok good => exact .ok (implies _ _ _ good)
  | error fault state => exact .error fault state

theorem map {Result : α' → β → State → Prop} {view : α → α'} {found : Except Fault α}
    {acted : EStateM.Result Fault State β} (accords : Accords Good found acted)
    (implies : ∀ value result state, Good value result state → Result (view value) result state) :
    Accords Result (found >>= fun value => pure (view value)) acted := by
  cases accords with
  | ok good => exact .ok (implies _ _ _ good)
  | error fault state => exact .error fault state

theorem bind {Result : α' → β' → State → Prop} {found : Except Fault α} {action : Action β}
    {next : α → Except Fault α'} {continuation : β → Action β'} {state : State}
    (first : Accords Good found (action state))
    (second : ∀ value result middle, Good value result middle →
      Accords Result (next value) (continuation result middle)) :
    Accords Result (found >>= next) ((action >>= continuation) state) := by
  simp only [Bind.bind, EStateM.bind, Except.bind]
  generalize action state = acted at first
  cases first with
  | ok good => exact second _ _ _ good
  | error fault state => exact .error fault state

end Accords

namespace Action

open ValueStack

variable {image : Image} {before : State} {lhs rhs : Bindable} {rest : ValueStack}

/-- Taking a value off the value stack. -/
def Takes (before : State) (rest : ValueStack) (value result : α) (after : State) : Prop :=
  value = result ∧ after = { before with values := rest }

/-- Leaving a value on the value stack. -/
def Leaves (before : State) (rest : ValueStack) (value : Storable) (_ : Unit)
    (after : State) : Prop :=
  after = { before with values := .storable value :: rest }

theorem accords_number (taken : before.values = .bindable lhs :: rest) :
    Accords (Takes before rest) lhs.operand.number (onValues popNumber before) := by
  simp only [onValues, popNumber, popAs, taken]
  cases lhs with
  | closure => exact .error _ _
  | storable value =>
      cases value with
      | number value => exact .ok ⟨rfl, rfl⟩
      | _ => exact .error _ _

theorem accords_boolean (taken : before.values = .bindable lhs :: rest) :
    Accords (Takes before rest) lhs.operand.boolean (onValues popBoolean before) := by
  simp only [onValues, popBoolean, popAs, taken]
  cases lhs with
  | closure => exact .error _ _
  | storable value =>
      cases value with
      | boolean value => exact .ok ⟨rfl, rfl⟩
      | _ => exact .error _ _

/-- Both take two numbers before they do anything else. -/
theorem accords_calculate {result : Float → Float → Except Fault Storable}
    {continuation : Float → Float → Action Unit}
    (taken : before.values = .bindable lhs :: .bindable rhs :: rest)
    (both : ∀ left right, Accords (Leaves before rest) (result left right)
      (continuation left right { before with values := rest })) :
    Accords (Leaves before rest) (lhs.operand.calculate rhs.operand result)
      ((onValues popNumber >>= fun left => onValues popNumber >>= continuation left) before) := by
  apply (accords_number taken).bind
  rintro left _ _ ⟨rfl, rfl⟩
  apply (accords_number rfl).bind
  rintro right _ _ ⟨rfl, rfl⟩
  exact both left right

theorem accords_arith (op : ArithOp)
    (taken : before.values = .bindable lhs :: .bindable rhs :: rest) :
    Accords (Leaves before rest) (BinaryOperator.combine (.arith op) lhs.operand rhs.operand)
      (applyArith op before) := by
  cases op with
  | div =>
      refine accords_calculate taken fun left right => ?_
      simp only [ArithOp.evaluate]
      split
      · exact .error _ _
      · exact .ok rfl
  | mul | sum | sub => exact accords_calculate taken fun _ _ => .ok rfl

theorem accords_compare (holds : Float → Float → Bool)
    (taken : before.values = .bindable lhs :: .bindable rhs :: rest) :
    Accords (Leaves before rest)
      (lhs.operand.calculate rhs.operand fun left right => .ok (.boolean (holds left right)))
      (compareNumbers holds before) :=
  accords_calculate taken fun _ _ => .ok rfl

theorem accords_connect (connective : Bool → Bool → Bool)
    (taken : before.values = .bindable lhs :: .bindable rhs :: rest) :
    Accords (Leaves before rest) (lhs.operand.connect rhs.operand connective)
      (connectBooleans connective before) := by
  apply (accords_boolean taken).bind
  rintro left _ _ ⟨rfl, rfl⟩
  apply (accords_boolean rfl).bind
  rintro right _ _ ⟨rfl, rfl⟩
  exact .ok rfl

theorem accords_not (taken : before.values = .bindable lhs :: rest) :
    Accords (Leaves before rest) lhs.operand.negate (applyNot before) := by
  apply (accords_boolean taken).bind
  rintro holds _ _ ⟨rfl, rfl⟩
  exact .ok rfl

theorem accords_equal (taken : before.values = .bindable lhs :: .bindable rhs :: rest) :
    Accords (Leaves before rest) (lhs.operand.equal rhs.operand) (compareEqual before) := by
  have first : onValues (pop "operand of EQ") before =
      .ok (.bindable lhs) { before with values := .bindable rhs :: rest } := by
    simp only [onValues, pop, taken]
  have second : onValues (pop "operand of EQ") { before with values := .bindable rhs :: rest } =
      .ok (.bindable rhs) { before with values := rest } := rfl
  rw [compareEqual, bind_of_ok first, bind_of_ok second]
  cases lhs with
  | closure => cases rhs <;> exact .error _ _
  | storable left =>
      cases rhs with
      | closure => cases left <;> exact .error _ _
      | storable right =>
          cases left with
          | number => cases right with
            | number => exact .ok rfl
            | _ => exact .error _ _
          | boolean => cases right with
            | boolean => exact .ok rfl
            | _ => exact .error _ _
          | location => cases right <;> exact .error _ _

/-- Applying an operator leaves its value. -/
theorem accords_combine (image : Image) (op : BinaryOperator)
    (taken : before.values = .bindable lhs :: .bindable rhs :: rest) :
    Accords (Leaves before rest) (op.combine lhs.operand rhs.operand)
      (apply image op.opcode before) := by
  cases op with
  | arith op => exact accords_arith op taken
  | logic op =>
      cases op with
      | eq => exact accords_equal taken
      | and | or => exact accords_connect _ taken
      | _ => exact accords_compare _ taken

/-! ## Identifiers -/

/-- What a state lets an expression read. -/
def reading (image : Image) (state : State) : Reading :=
  ⟨image.names, state.environment, state.store⟩

/-- Finding a value without changing anything. -/
def Reads (before : State) (value result : α) (after : State) : Prop :=
  value = result ∧ after = before

variable {text : String} {name : Name}

theorem accords_lookup (named : image.names.find? text = some name) :
    Accords (Reads before) ((reading image before).find text) (lookup image name before) := by
  simp only [Reading.find, reading, named, Option.bind_some, lookup]
  cases before.environment.lookup name with
  | some value => exact .ok ⟨rfl, rfl⟩
  | none =>
      have sameText : image.text name = text := NameTable.text_of_find? named
      rw [sameText]
      exact .error _ _

theorem accords_read (address : Address) :
    Accords (Reads before) (before.store.read address) (read address before) := by
  simp only [read]
  cases before.store.read address with
  | ok value => exact .ok ⟨rfl, rfl⟩
  | error fault => exact .error fault _

theorem accords_locate (named : image.names.find? text = some name) :
    Accords (Reads before) ((reading image before).locate text) (locationOf image name before) := by
  apply (accords_lookup named).bind
  rintro value _ _ ⟨rfl, rfl⟩
  have sameText : image.text name = text := NameTable.text_of_find? named
  rw [sameText]
  cases value with
  | closure => exact .error _ _
  | storable value =>
      cases value with
      | location address => exact .ok ⟨rfl, rfl⟩
      | _ => exact .error _ _

/-- Leaving a value on top of the value stack. -/
def Pushing (before : State) (value : Bindable) (_ : Unit) (after : State) : Prop :=
  after = { before with values := .bindable value :: before.values }

theorem accords_identifier (named : image.names.find? text = some name) :
    Accords (Pushing before) ((Expr.ident text).evaluate (reading image before))
      (enterIdentifier image name before) := by
  apply (accords_lookup named).bind
  rintro value _ _ ⟨rfl, rfl⟩
  cases value with
  | closure => exact .ok rfl
  | storable value =>
      cases value with
      | location address =>
          apply (accords_read address).bind
          rintro held _ _ ⟨rfl, rfl⟩
          exact .ok rfl
      | _ => exact .ok rfl

theorem accords_addressOf {site : NodeId} (named : image.names.find? text = some name) :
    Accords (Pushing before) ((Expr.addressOf text).evaluate (reading image before))
      (enterNode image site (.addressOf name) before) := by
  apply (accords_locate named).bind
  rintro address _ _ ⟨rfl, rfl⟩
  exact .ok rfl

theorem accords_valueOf (named : image.names.find? text = some name) :
    Accords (Pushing before) ((Expr.valueOf text).evaluate (reading image before))
      (enterValueOf image name before) := by
  apply (accords_locate named).bind
  rintro cell _ _ ⟨rfl, rfl⟩
  apply (accords_read cell).bind
  rintro content _ _ ⟨rfl, rfl⟩
  have sameText : image.text name = text := NameTable.text_of_find? named
  rw [sameText]
  cases content with
  | location target =>
      apply (accords_read target).bind
      rintro held _ _ ⟨rfl, rfl⟩
      exact .ok rfl
  | _ => exact .error _ _

end Action

end BlockMachine
