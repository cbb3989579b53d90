import BlockMachine.Proofs.Machine.Rules
import Mathlib.Data.List.Forall2

namespace BlockMachine

/-! # Actions in parallel

Two actions have the same effect if they do the same in states that are related, a fault
included. The second one may report a fault in its own words. An action that works on cells
and storable values alone has the same effect as itself, however the states are related, if
only they share their data. -/

/-- Results that are both of a success or both of a fault, which `report` puts in the words
of the second one. -/
inductive SameResult (report : Fault → Fault) (Value : α → β → Prop)
    (Related : State → State → Prop) :
    EStateM.Result Fault State α → EStateM.Result Fault State β → Prop where
  | ok {value : α} {otherValue : β} {state other : State} (values : Value value otherValue)
      (related : Related state other) :
      SameResult report Value Related (.ok value state) (.ok otherValue other)
  | error {fault : Fault} {state other : State} (related : Related state other) :
      SameResult report Value Related (.error fault state) (.error (report fault) other)

/-- Whether two actions do the same in all states that are related. -/
def SameEffect (report : Fault → Fault) (Related : State → State → Prop) (Value : α → β → Prop)
    (action : Action α) (other : Action β) : Prop :=
  ∀ state otherState, Related state otherState →
    SameResult report Value Related (action state) (other otherState)

variable {report : Fault → Fault} {Related : State → State → Prop} {Value : α → β → Prop}

namespace SameResult

theorem of_fault {fault otherFault : Fault} {state other : State}
    (reported : otherFault = report fault) (related : Related state other) :
    SameResult report Value Related (.error fault state) (.error otherFault other) :=
  reported ▸ .error related

theorem mono {Related' : State → State → Prop} {result : EStateM.Result Fault State α}
    {other : EStateM.Result Fault State β} (same : SameResult report Value Related result other)
    (implies : ∀ state other, Related state other → Related' state other) :
    SameResult report Value Related' result other := by
  cases same with
  | ok values related => exact .ok values (implies _ _ related)
  | error related => exact .error (implies _ _ related)

theorem bind {Value' : α' → β' → Prop} {Related' : State → State → Prop} {action : Action α}
    {other : Action β} {next : α → Action α'} {otherNext : β → Action β'}
    {before otherBefore : State}
    (first : SameResult report Value Related (action before) (other otherBefore))
    (onFault : ∀ state other, Related state other → Related' state other)
    (onward : ∀ value otherValue state other, Value value otherValue → Related state other →
      SameResult report Value' Related' (next value state) (otherNext otherValue other)) :
    SameResult report Value' Related' ((action >>= next) before)
      ((other >>= otherNext) otherBefore) := by
  simp only [Bind.bind, EStateM.bind]
  generalize action before = result at first
  generalize other otherBefore = otherResult at first
  cases first with
  | ok values related => exact onward _ _ _ _ values related
  | error related => exact .error (onFault _ _ related)

end SameResult

namespace SameEffect

theorem bind {Value' : α' → β' → Prop} {action : Action α} {other : Action β}
    {next : α → Action α'} {otherNext : β → Action β'}
    (first : SameEffect report Related Value action other)
    (onward : ∀ value otherValue, Value value otherValue →
      SameEffect report Related Value' (next value) (otherNext otherValue)) :
    SameEffect report Related Value' (action >>= next) (other >>= otherNext) := by
  intro state otherState related
  apply (first state otherState related).bind (fun _ _ => id)
  intro value otherValue middle otherMiddle values related
  exact onward value otherValue values middle otherMiddle related

theorem bind_eq {Value' : α' → β' → Prop} {action other : Action α} {next : α → Action α'}
    {otherNext : α → Action β'} (first : SameEffect report Related Eq action other)
    (onward : ∀ value, SameEffect report Related Value' (next value) (otherNext value)) :
    SameEffect report Related Value' (action >>= next) (other >>= otherNext) :=
  first.bind fun value _ same => same ▸ onward value

theorem pure {value : α} {otherValue : β} (values : Value value otherValue) :
    SameEffect report Related Value (Pure.pure value) (Pure.pure otherValue) :=
  fun _ _ related => .ok values related

theorem fail {fault other : Fault} (reported : other = report fault) :
    SameEffect report Related Value (Action.fail fault) (Action.fail other) :=
  fun _ _ related => .of_fault reported related

/-- A call is checked alike if the callee's text is that of the same faults. -/
theorem requireArity {callee other : String} (expected got : Nat)
    (missing : report (.missingParametersInCall callee expected got) =
      .missingParametersInCall other expected got)
    (excess : report (.excessParametersInCall callee expected got) =
      .excessParametersInCall other expected got) :
    SameEffect report Related Eq (Action.requireArity callee expected got)
      (Action.requireArity other expected got) := by
  unfold Action.requireArity
  split
  · exact .fail missing.symm
  · split
    · exact .fail excess.symm
    · exact .pure rfl

end SameEffect

/-! ## Shared data -/

/-- The identifier that a fault speaks of, if it speaks of one. -/
def Fault.identifier? : Fault → Option String
  | .undefinedVariable name => some name
  | .unexpectedImmutableVariable name => some name
  | .expectedLocation name => some name
  | .expectedFunctionIdentifier name => some name
  | .missingParametersInCall name _ _ => some name
  | .excessParametersInCall name _ _ => some name
  | _ => none

/-- Related states have the same cells, the same region and the same output, and related
entries on their value stacks: the same entry where one is a storable value, a node or a
region. Only faults that speak of identifiers are reported in other words. -/
structure SharesData (report : Fault → Fault) (Related : State → State → Prop)
    (Entry : StackValue → StackValue → Prop) : Prop where
  keeps : ∀ fault : Fault, fault.identifier? = none → report fault = fault
  values : ∀ {state other}, Related state other → List.Forall₂ Entry state.values other.values
  withValues : ∀ {state other values others}, Related state other →
    List.Forall₂ Entry values others →
    Related { state with values := values } { other with values := others }
  store : ∀ {state other}, Related state other → other.store = state.store
  region : ∀ {state other}, Related state other → other.region = state.region
  printer : ∀ {state other}, Related state other → other.printer = state.printer
  withStore : ∀ {state other} store, Related state other →
    Related { state with store := store } { other with store := store }
  withRegion : ∀ {state other} region, Related state other →
    Related { state with region := region } { other with region := region }
  withPrinter : ∀ {state other} printer, Related state other →
    Related { state with printer := printer } { other with printer := printer }
  storable : ∀ value, Entry (.storable value) (.storable value)
  storable?_eq : ∀ {entry other}, Entry entry other → other.storable? = entry.storable?
  pending?_eq : ∀ {entry other}, Entry entry other → other.pending? = entry.pending?
  region?_eq : ∀ {entry other}, Entry entry other → other.region? = entry.region?
  declarations : ∀ {entry other}, Entry entry other →
    Option.Rel (fun collected known => Entry (.declarations collected) (.declarations known))
      entry.declarations? other.declarations?
  typeName_eq : ∀ {entry other}, Entry entry other → other.typeName = entry.typeName

namespace StackValue

theorem number?_congr {entry other : StackValue} (same : other.storable? = entry.storable?) :
    other.number? = entry.number? := by
  have viewed (entry : StackValue) (value : Float) :
      entry.number? = some value ↔ entry.storable? = some (.number value) :=
    number?_eq_some_iff.trans storable?_eq_some_iff.symm
  apply Option.ext
  intro value
  rw [viewed, viewed, same]

theorem boolean?_congr {entry other : StackValue} (same : other.storable? = entry.storable?) :
    other.boolean? = entry.boolean? := by
  have viewed (entry : StackValue) (value : Bool) :
      entry.boolean? = some value ↔ entry.storable? = some (.boolean value) :=
    boolean?_eq_some_iff.trans storable?_eq_some_iff.symm
  apply Option.ext
  intro value
  rw [viewed, viewed, same]

end StackValue

/-- Only storable values can be compared. -/
theorem Action.areEqual?_eq_none {lhs rhs : StackValue}
    (other : lhs.storable? = none ∨ rhs.storable? = none) : areEqual? lhs rhs = none := by
  rcases other with other | other
  · rcases lhs with ((_ | _ | _) | _) | _ <;> first | rfl | cases other
  · rcases lhs with ((_ | _ | _) | _) | _ <;> try rfl
    all_goals rcases rhs with (_ | _) | _ <;> first | rfl | cases other

theorem Action.areEqual?_congr {lhs otherLhs rhs otherRhs : StackValue}
    (sameLhs : otherLhs.storable? = lhs.storable?) (sameRhs : otherRhs.storable? = rhs.storable?) :
    areEqual? otherLhs otherRhs = areEqual? lhs rhs := by
  cases left : lhs.storable? with
  | none => rw [areEqual?_eq_none (.inl left), areEqual?_eq_none (.inl (sameLhs.trans left))]
  | some value =>
      cases right : rhs.storable? with
      | none =>
          rw [areEqual?_eq_none (.inr right), areEqual?_eq_none (.inr (sameRhs.trans right))]
      | some other =>
          rw [StackValue.storable?_eq_some_iff.mp left, StackValue.storable?_eq_some_iff.mp right,
            StackValue.storable?_eq_some_iff.mp (sameLhs.trans left),
            StackValue.storable?_eq_some_iff.mp (sameRhs.trans right)]

theorem ValueStack.changeDeclarations_of_none {top : StackValue} (other : top.declarations? = none)
    (rest : ValueStack) (change : Environment → Environment) :
    changeDeclarations change (top :: rest) =
      .error (.expectedValue "declarations" top.typeName) (top :: rest) := by
  cases top with
  | declarations collected => cases other
  | _ => rfl

namespace SharesData

variable {Entry : StackValue → StackValue → Prop} (shares : SharesData report Related Entry)

include shares

/-! ## Stacks -/

theorem popAs {expected : String} {view : StackValue → Option α}
    {otherView : StackValue → Option β}
    (views : ∀ top otherTop, Entry top otherTop →
      Option.Rel Value (view top) (otherView otherTop)) :
    SameEffect report Related Value (Action.onValues (ValueStack.popAs expected view))
      (Action.onValues (ValueStack.popAs expected otherView)) := by
  intro state otherState related
  rcases state with ⟨control, values, store, environment, region, closures, printer, steps⟩
  rcases otherState with ⟨_, otherValues, _, _, _, _, _, _⟩
  have entries := shares.values related
  simp only at entries
  cases entries with
  | nil => exact .of_fault (shares.keeps _ rfl).symm (shares.withValues related .nil)
  | @cons top otherTop rest otherRest same below =>
      have related := shares.withValues related below
      have viewed := views top otherTop same
      simp only [Action.onValues, ValueStack.popAs]
      generalize view top = seen at viewed
      generalize otherView otherTop = otherSeen at viewed
      cases viewed with
      | some values => exact .ok values related
      | none =>
          rw [shares.typeName_eq same]
          exact .of_fault (shares.keeps _ rfl).symm related

/-- A pop by a view that tells no related entries apart. -/
theorem popSame {expected : String} {view : StackValue → Option α}
    (views : ∀ entry other, Entry entry other → view other = view entry) :
    SameEffect report Related Eq (Action.onValues (ValueStack.popAs expected view))
      (Action.onValues (ValueStack.popAs expected view)) := by
  apply shares.popAs
  intro top otherTop same
  rw [views top otherTop same]
  cases view top with
  | none => exact .none
  | some value => exact .some rfl

theorem pop (expected : String) :
    SameEffect report Related Entry (Action.onValues (ValueStack.pop expected))
      (Action.onValues (ValueStack.pop expected)) := by
  intro state otherState related
  rcases state with ⟨control, values, store, environment, region, closures, printer, steps⟩
  rcases otherState with ⟨_, otherValues, _, _, _, _, _, _⟩
  have entries := shares.values related
  simp only at entries
  cases entries with
  | nil => exact .of_fault (shares.keeps _ rfl).symm (shares.withValues related .nil)
  | cons same below => exact .ok same (shares.withValues related below)

theorem push {entry otherEntry : StackValue} (same : Entry entry otherEntry) :
    SameEffect report Related Eq (Action.push entry) (Action.push otherEntry) :=
  fun _ _ related => .ok rfl (shares.withValues related (.cons same (shares.values related)))

theorem changeDeclarations {change otherChange : Environment → Environment}
    (changed : ∀ collected known, Entry (.declarations collected) (.declarations known) →
      Entry (.declarations (change collected)) (.declarations (otherChange known))) :
    SameEffect report Related Eq (Action.onValues (ValueStack.changeDeclarations change))
      (Action.onValues (ValueStack.changeDeclarations otherChange)) := by
  intro state otherState related
  rcases state with ⟨control, values, store, environment, region, closures, printer, steps⟩
  rcases otherState with ⟨_, otherValues, _, _, _, _, _, _⟩
  have entries := shares.values related
  simp only at entries
  cases entries with
  | nil => exact .of_fault (shares.keeps _ rfl).symm (shares.withValues related .nil)
  | @cons top otherTop rest otherRest same below =>
      have found := shares.declarations same
      generalize seen : top.declarations? = collected at found
      generalize otherSeen : otherTop.declarations? = known at found
      cases found with
      | some entry =>
          cases StackValue.declarations?_eq_some_iff.mp seen
          cases StackValue.declarations?_eq_some_iff.mp otherSeen
          exact .ok rfl (shares.withValues related (.cons (changed _ _ entry) below))
      | none =>
          simp only [Action.onValues, ValueStack.changeDeclarations_of_none seen,
            ValueStack.changeDeclarations_of_none otherSeen, shares.typeName_eq same]
          exact .of_fault (shares.keeps _ rfl).symm related

theorem pushStorable (value : Storable) :
    SameEffect report Related Eq (Action.push (.storable value)) (Action.push (.storable value)) :=
  shares.push (shares.storable value)

theorem popNumber : SameEffect report Related Eq (Action.onValues ValueStack.popNumber)
    (Action.onValues ValueStack.popNumber) :=
  shares.popSame fun _ _ same => StackValue.number?_congr (shares.storable?_eq same)

theorem popBoolean : SameEffect report Related Eq (Action.onValues ValueStack.popBoolean)
    (Action.onValues ValueStack.popBoolean) :=
  shares.popSame fun _ _ same => StackValue.boolean?_congr (shares.storable?_eq same)

theorem popStorable : SameEffect report Related Eq (Action.onValues ValueStack.popStorable)
    (Action.onValues ValueStack.popStorable) :=
  shares.popSame fun _ _ => shares.storable?_eq

theorem popPending : SameEffect report Related Eq (Action.onValues ValueStack.popPending)
    (Action.onValues ValueStack.popPending) :=
  shares.popSame fun _ _ => shares.pending?_eq

theorem popRegion : SameEffect report Related Eq (Action.onValues ValueStack.popRegion)
    (Action.onValues ValueStack.popRegion) :=
  shares.popSame fun _ _ => shares.region?_eq

/-! ## Cells and output -/

theorem read (address : Address) :
    SameEffect report Related Eq (Action.read address) (Action.read address) := by
  intro state other related
  simp only [Action.read, shares.store related]
  cases held : state.store.read address with
  | ok value => exact .ok rfl related
  | error fault =>
      have silent : fault.identifier? = none := by
        simp only [Store.read] at held
        split at held <;> cases held
        rfl
      exact .of_fault (shares.keeps fault silent).symm related

theorem write (address : Address) (value : Storable) :
    SameEffect report Related Eq (Action.write address value) (Action.write address value) := by
  intro state other related
  simp only [Action.write, shares.store related]
  cases written : state.store.write address value with
  | ok store => exact .ok rfl (shares.withStore store related)
  | error fault =>
      have silent : fault.identifier? = none := by
        simp only [Store.write] at written
        split at written <;> cases written
        rfl
      exact .of_fault (shares.keeps fault silent).symm related

theorem allocate (value : Storable) :
    SameEffect report Related Eq (Action.allocate value) (Action.allocate value) := by
  intro state other related
  simp only [Action.allocate, shares.store related, shares.region related]
  rcases state.store.allocate value with ⟨address, store⟩
  have placed := shares.withStore store related
  exact .ok rfl (shares.withRegion (state.region.push address) placed)

theorem println (line : String) :
    SameEffect report Related Eq (Action.println line) (Action.println line) := by
  intro state other related
  simp only [Action.println, shares.printer related]
  exact .ok rfl (shares.withPrinter _ related)

/-! ## Operators -/

theorem applyArith (op : ArithOp) :
    SameEffect report Related Eq (Action.applyArith op) (Action.applyArith op) := by
  refine shares.popNumber.bind_eq fun lhs => shares.popNumber.bind_eq fun rhs => ?_
  cases evaluated : op.evaluate lhs rhs with
  | ok result => exact shares.pushStorable _
  | error fault =>
      rw [(ArithOp.evaluate_eq_error_iff.mp evaluated).2.2]
      exact .fail (shares.keeps _ rfl).symm

theorem compareNumbers (holds : Float → Float → Bool) :
    SameEffect report Related Eq (Action.compareNumbers holds) (Action.compareNumbers holds) :=
  shares.popNumber.bind_eq fun _ => shares.popNumber.bind_eq fun _ => shares.pushStorable _

theorem connectBooleans (connective : Bool → Bool → Bool) :
    SameEffect report Related Eq (Action.connectBooleans connective)
      (Action.connectBooleans connective) :=
  shares.popBoolean.bind_eq fun _ => shares.popBoolean.bind_eq fun _ => shares.pushStorable _

theorem compareEqual : SameEffect report Related Eq Action.compareEqual Action.compareEqual := by
  refine (shares.pop _).bind fun lhs otherLhs sameLhs =>
    (shares.pop _).bind fun rhs otherRhs sameRhs => ?_
  rw [Action.areEqual?_congr (shares.storable?_eq sameLhs) (shares.storable?_eq sameRhs),
    shares.typeName_eq sameLhs, shares.typeName_eq sameRhs]
  split
  · exact shares.pushStorable _
  · exact .fail (shares.keeps _ rfl).symm

theorem applyLogic (op : LogicOp) :
    SameEffect report Related Eq (Action.applyLogic op) (Action.applyLogic op) := by
  cases op with
  | eq => exact shares.compareEqual
  | and => exact shares.connectBooleans _
  | or => exact shares.connectBooleans _
  | _ => exact shares.compareNumbers _

theorem applyNot : SameEffect report Related Eq Action.applyNot Action.applyNot :=
  shares.popBoolean.bind_eq fun _ => shares.pushStorable _

theorem applyRef : SameEffect report Related Eq Action.applyRef Action.applyRef :=
  shares.popStorable.bind_eq fun _ => (shares.allocate _).bind_eq fun _ => shares.pushStorable _

end SharesData

end BlockMachine
