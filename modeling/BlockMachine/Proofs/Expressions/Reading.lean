import BlockMachine.Proofs.Expressions.Kinds
import BlockMachine.Proofs.Memory.Addresses

namespace BlockMachine

/-! # What expressions read

An expression reads its environment and the cells that it comes to from there. What holds
of these holds of its value, and cells that have been allocated since do not matter. -/

namespace Yields

variable {Good : α → Prop}

theorem bind_congr {found : Except Fault α} {left right : α → Except Fault β}
    (yields : Yields Good found) (same : ∀ value, Good value → left value = right value) :
    found >>= left = found >>= right := by
  cases found with
  | error fault => rfl
  | ok value => exact same value (yields value rfl)

end Yields

namespace Reading

variable {reading larger : Reading} {Good : Bindable → Prop}

/-- Whether all that can be read is good, and so is all that can be computed. -/
structure Provides (reading : Reading) (Good : Bindable → Prop) : Prop where
  environment : reading.environment.Holds Good
  cells : ∀ address value, reading.store.get? address = some value → Good (.storable value)
  number : ∀ value, Good (.storable (.number value))
  boolean : ∀ value, Good (.storable (.boolean value))

theorem Provides.find (provides : reading.Provides Good) (text : String) :
    Yields Good (reading.find text) := by
  intro value found
  unfold Reading.find at found
  split at found
  next looked =>
    cases found
    rcases Option.bind_eq_some_iff.mp looked with ⟨name, _, bound⟩
    exact provides.environment.lookup bound
  next => cases found

theorem Provides.locate (provides : reading.Provides Good) (text : String) :
    Yields (fun address => Good (.storable (.location address))) (reading.locate text) := by
  refine (provides.find text).bind fun value good => ?_
  cases value with
  | closure => exact .error _
  | storable value =>
      cases value with
      | location address => exact .pure good
      | _ => exact .error _

theorem Provides.read (provides : reading.Provides Good) (address : Address) :
    Yields (fun value => Good (.storable value)) (reading.store.read address) := by
  intro value found
  unfold Store.read at found
  split at found
  next held =>
    cases found
    exact provides.cells _ _ held
  next => cases found

/-- Whether another reading differs by cells that have been allocated since, at most. -/
structure Extends (larger reading : Reading) : Prop where
  names : larger.names = reading.names
  environment : larger.environment = reading.environment
  older : ∀ address, address.index < reading.store.cells.size →
    larger.store.get? address = reading.store.get? address

theorem Extends.find_eq (extension : larger.Extends reading) (text : String) :
    larger.find text = reading.find text := by
  simp only [Reading.find, extension.names, extension.environment]

theorem Extends.locate_eq (extension : larger.Extends reading) (text : String) :
    larger.locate text = reading.locate text := by
  simp only [Reading.locate, extension.find_eq]

theorem Extends.read_eq (extension : larger.Extends reading) {address : Address}
    (issued : reading.store.Issued (.storable (.location address))) :
    larger.store.read address = reading.store.read address := by
  simp only [Store.read, extension.older address issued]

/-- Whether there are no addresses to read but those that the store has given out. -/
def Issued (reading : Reading) : Prop :=
  reading.Provides reading.store.Issued

end Reading

theorem State.Issued.reading {state : State} (issued : state.Issued) (image : Image) :
    (Action.reading image state).Issued where
  environment := issued.holds.environment
  cells := issued.cells
  number := fun _ => trivial
  boolean := fun _ => trivial

namespace Expr

variable {reading larger : Reading} {Good : Bindable → Prop}

theorem yields_negate (provides : reading.Provides Good) (operand : Operand) :
    Yields (fun result => Good (.storable result)) operand.negate :=
  .after fun _ => .pure (provides.boolean _)

theorem yields_combine (provides : reading.Provides Good) (op : BinaryOperator)
    (lhs rhs : Operand) :
    Yields (fun result => Good (.storable result)) (op.combine lhs rhs) := by
  intro result found
  have admitted := op.yields_combine lhs rhs result found
  cases op with
  | arith =>
      rcases admitted with ⟨number, same⟩
      exact same ▸ provides.number number
  | logic =>
      rcases admitted with ⟨holds, same⟩
      exact same ▸ provides.boolean holds

/-- Where all that can be read is good, so is every value. -/
theorem yields_evaluate (provides : reading.Provides Good) (expr : Expr) :
    Yields Good (expr.evaluate reading) := by
  induction expr with
  | ident text =>
      refine (provides.find text).bind fun value good => ?_
      cases value with
      | closure => exact .pure good
      | storable value =>
          cases value with
          | location address => exact (provides.read address).bind fun _ held => .pure held
          | _ => exact .pure good
  | num value => exact .pure (provides.number value)
  | bool value => exact .pure (provides.boolean value)
  | binary lexeme lhs rhs =>
      refine .after fun right => .after fun left => ?_
      cases BinaryOperator.ofLexeme? lexeme with
      | some op =>
          exact (yields_combine provides op left.operand right.operand).bind fun _ result =>
            .pure result
      | none => exact .error _
  | not operand =>
      exact .after fun value => (yields_negate provides value.operand).bind fun _ result =>
        .pure result
  | addressOf text => exact (provides.locate text).bind fun _ located => .pure located
  | valueOf text =>
      refine (provides.locate text).bind fun cell _ => (provides.read cell).bind fun content _ => ?_
      cases content with
      | location target => exact (provides.read target).bind fun _ held => .pure held
      | _ => exact .error _

/-- New cells do not change the value of an expression. -/
theorem evaluate_eq_of_extends (issued : reading.Issued) (extension : larger.Extends reading)
    (expr : Expr) : expr.evaluate larger = expr.evaluate reading := by
  induction expr with
  | ident text =>
      simp only [evaluate, extension.find_eq]
      apply (issued.find text).bind_congr
      intro value found
      cases value with
      | closure => rfl
      | storable value =>
          cases value with
          | location address => simp only [extension.read_eq found]
          | _ => rfl
  | num | bool => rfl
  | binary lexeme lhs rhs inductionLhs inductionRhs =>
      simp only [evaluate, inductionLhs, inductionRhs]
  | not operand induction => simp only [evaluate, induction]
  | addressOf text => simp only [evaluate, extension.locate_eq]
  | valueOf text =>
      simp only [evaluate, extension.locate_eq]
      apply (issued.locate text).bind_congr
      intro cell located
      rw [extension.read_eq located]
      apply (issued.read cell).bind_congr
      intro content held
      cases content with
      | location target => simp only [extension.read_eq held]
      | _ => rfl

end Expr

end BlockMachine
