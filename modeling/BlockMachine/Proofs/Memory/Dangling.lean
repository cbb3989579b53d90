import BlockMachine.Proofs.Machine.Faults
import BlockMachine.Proofs.Machine.Horizon

namespace BlockMachine

/-! # Dangling references

An address can outlive its cell only by being assigned to a cell of a scope
further out. In a run without such assignments every address that occurs in the
environment, on the value stack, in a closure or in a live cell is live. -/

/-! ## Actions that need no live cell -/

namespace Action

/-- Whether no state makes an action fail for want of a live cell. -/
def StoreSafe (action : Action α) : Prop :=
  ∀ before address after, action before ≠ .error (.undefinedStorageAddress address) after

namespace StoreSafe

theorem bind {action : Action α} {next : α → Action β} (safe : action.StoreSafe)
    (nextSafe : ∀ value, (next value).StoreSafe) : (action >>= next).StoreSafe := by
  intro before address after failed
  rcases bind_eq_error_iff.mp failed with raised | ⟨value, middle, _, raised⟩
  · exact safe before address after raised
  · exact nextSafe value middle address after raised

theorem of_total {action : Action α}
    (total : ∀ before, ∃ value after, action before = .ok value after) : action.StoreSafe := by
  intro before address after failed
  rcases total before with ⟨value, last, succeeded⟩
  cases succeeded.symm.trans failed

theorem pure (value : α) : StoreSafe (Pure.pure value) :=
  of_total fun _ => ⟨_, _, rfl⟩

theorem fail {fault : Fault} (other : ∀ address, fault ≠ .undefinedStorageAddress address) :
    StoreSafe (fail fault : Action α) := by
  intro before address after failed
  cases failed
  exact other address rfl

theorem onValues {operation : StackAction α}
    (safe : ∀ stack address rest, operation stack ≠ .error (.undefinedStorageAddress address) rest) :
    StoreSafe (onValues operation) := by
  intro before address after failed
  simp only [Action.onValues] at failed
  split at failed
  next => cases failed
  next raised =>
    cases failed
    exact safe before.values address _ raised

theorem popAs (expected : String) (view : StackValue → Option α) :
    StoreSafe (Action.onValues (ValueStack.popAs expected view)) := by
  apply onValues
  intro stack address rest
  cases stack with
  | nil => simp [ValueStack.popAs]
  | cons top below => cases viewed : view top <;> simp [ValueStack.popAs, viewed]

theorem pop (expected : String) : StoreSafe (Action.onValues (ValueStack.pop expected)) := by
  apply onValues
  intro stack address rest
  cases stack <;> simp [ValueStack.pop]

theorem changeDeclarations (change : Environment → Environment) :
    StoreSafe (Action.onValues (ValueStack.changeDeclarations change)) := by
  apply onValues
  intro stack address rest
  cases stack with
  | nil => simp [ValueStack.changeDeclarations]
  | cons top below => cases top <;> simp [ValueStack.changeDeclarations]

theorem push (value : StackValue) : StoreSafe (push value) :=
  of_total fun _ => ⟨_, _, rfl⟩

theorem schedule (entries : List Control) : StoreSafe (schedule entries) :=
  of_total fun _ => ⟨_, _, rfl⟩

theorem fetch (image : Image) (site : NodeId) : StoreSafe (fetch image site) := by
  unfold Action.fetch
  split
  · exact pure _
  · exact fail (by simp)

theorem lookup (image : Image) (name : Name) : StoreSafe (lookup image name) := by
  intro before address after failed
  simp only [Action.lookup] at failed
  split at failed <;> cases failed

theorem closureAt (id : ClosureId) : StoreSafe (closureAt id) := by
  intro before address after failed
  simp only [Action.closureAt] at failed
  split at failed <;> cases failed

theorem unfold (id : GroupId) : StoreSafe (unfold id) := by
  intro before address after failed
  simp only [Action.unfold] at failed
  split at failed <;> cases failed

theorem locationOf (image : Image) (name : Name) : StoreSafe (locationOf image name) := by
  apply (lookup image name).bind
  intro value
  split
  · exact pure _
  · exact fail (by simp)

/-! ## Nodes and opcodes other than those that read or write cells -/

theorem requireFunctions (image : Image) (group : List Binding) :
    StoreSafe (requireFunctions image group) := by
  induction group with
  | nil => exact pure _
  | cons member rest induction =>
      apply (fetch image member.2).bind
      intro node
      split
      · exact induction
      · exact fail (by simp)

theorem enterNode {image : Image} {site : NodeId} {node : Node}
    (notIdentifier : ∀ name, node ≠ .identifier name) (notValueOf : ∀ name, node ≠ .valueOf name) :
    StoreSafe (enterNode image site node) := by
  cases node with
  | identifier name => exact absurd rfl (notIdentifier name)
  | valueOf name => exact absurd rfl (notValueOf name)
  | addressOf name => exact (locationOf image name).bind fun _ => push _
  | recBind span => exact (requireFunctions image _).bind fun _ => schedule _
  | _ => exact of_total fun _ => ⟨_, _, rfl⟩

theorem popMembers (group : List Binding) : StoreSafe (popMembers group) := by
  induction group with
  | nil => exact pure _
  | cons member rest induction =>
      exact (popAs _ _).bind fun _ => induction.bind fun _ => pure _

theorem bindActuals (home : Environment) (formals : List Name) :
    StoreSafe (bindActuals home formals) := by
  induction formals generalizing home with
  | nil => exact pure _
  | cons formal rest induction => exact (popAs _ _).bind fun _ => induction _

theorem applyLogic (op : LogicOp) : StoreSafe (applyLogic op) := by
  have order (holds : Float → Float → Bool) : StoreSafe (compareNumbers holds) :=
    (popAs _ _).bind fun _ => (popAs _ _).bind fun _ => push _
  have connect (connective : Bool → Bool → Bool) : StoreSafe (connectBooleans connective) :=
    (popAs _ _).bind fun _ => (popAs _ _).bind fun _ => push _
  cases op with
  | eq =>
      refine (pop _).bind fun lhs => (pop _).bind fun rhs => ?_
      split
      · exact push _
      · exact fail (by simp)
  | and => exact connect _
  | or => exact connect _
  | _ => exact order _

theorem applyCall (image : Image) (callee : Name) (count : Nat) :
    StoreSafe (applyCall image callee count) := by
  apply (lookup image callee).bind
  intro value
  split
  next reference =>
    refine (closureAt reference.closure).bind fun closure => bind ?_ fun _ => bind ?_ fun home =>
      (bindActuals home _).bind fun _ => bind (of_total fun _ => ⟨_, _, rfl⟩) fun _ =>
      bind (of_total fun _ => ⟨_, _, rfl⟩) fun _ => schedule _
    · unfold requireArity
      split
      · exact fail (by simp)
      · split
        · exact fail (by simp)
        · exact pure _
    · cases reference.group with
      | none => exact pure _
      | some group => exact (unfold group).bind fun _ => pure _
  next => exact fail (by simp)

theorem apply {image : Image} {opcode : Opcode} (notAssign : opcode ≠ .assign) :
    StoreSafe (apply image opcode) := by
  cases opcode with
  | assign => exact absurd rfl notAssign
  | arith op =>
      refine (popAs _ _).bind fun lhs => (popAs _ _).bind fun rhs => ?_
      cases evaluated : op.evaluate lhs rhs with
      | ok result => exact push _
      | error fault =>
          have zero := (ArithOp.evaluate_eq_error_iff.mp evaluated).2.2
          exact fail (by simp [zero])
  | logic op => exact applyLogic op
  | not => exact (popAs _ _).bind fun _ => push _
  | bind => exact (popAs _ _).bind fun _ => (popAs _ _).bind fun _ => changeDeclarations _
  | recBind site =>
      refine (fetch image site).bind fun node => ?_
      split
      · exact (popMembers _).bind fun _ =>
          bind (of_total fun _ => ⟨_, _, rfl⟩) fun _ => changeDeclarations _
      · exact fail (by simp)
  | ref =>
      exact (popAs _ _).bind fun _ => bind (of_total fun _ => ⟨_, _, rfl⟩) fun _ => push _
  | blockDeclarations =>
      exact (popAs _ _).bind fun _ => bind (of_total fun _ => ⟨_, _, rfl⟩) fun _ =>
        of_total fun _ => ⟨_, _, rfl⟩
  | blockCommands =>
      exact (popAs _ _).bind fun _ => (popAs _ _).bind fun _ => (popAs _ _).bind fun _ =>
        of_total fun _ => ⟨_, _, rfl⟩
  | cond =>
      refine (popAs _ _).bind fun condition => (popAs _ _).bind fun site =>
        (fetch image site).bind fun node => ?_
      split
      next elseBranch =>
        split
        · exact schedule _
        · cases elseBranch with
          | none => exact pure _
          | some elseBranch => exact schedule _
      next => exact fail (by simp)
  | loop =>
      refine (popAs _ _).bind fun condition => (popAs _ _).bind fun site =>
        (fetch image site).bind fun node => ?_
      split
      · split
        · exact schedule _
        · exact pure _
      · exact fail (by simp)
  | print => exact (popAs _ _).bind fun _ => of_total fun _ => ⟨_, _, rfl⟩
  | call callee count => exact applyCall image callee count

end StoreSafe

end Action

/-! ## Where addresses occur -/

/-- Whether a value is no address or one of a live cell. -/
def Store.Supports (store : Store) : Bindable → Prop
  | .storable (.location address) => store.isLive address
  | _ => True

/-- No address that occurs in a state outlives its cell. -/
structure State.NoDangling (state : State) : Prop where
  environment : state.environment.Holds state.store.Supports
  values : ∀ entry ∈ state.values, entry.Holds state.store.Supports
  captured : ∀ id closure, state.closures.closure? id = some closure →
    closure.captured.Holds state.store.Supports
  cells : ∀ address value, state.store.get? address = some value →
    state.store.Supports (.storable value)

namespace State

variable {image : Image} {state : State}

theorem read_ne_error {address : Address} (live : state.store.isLive address) (fault : Fault)
    (after : State) : Action.read address state ≠ .error fault after := by
  rcases Option.isSome_iff_exists.mp live with ⟨value, held⟩
  simp [Action.read, Store.read, held]

namespace NoDangling

theorem enterIdentifier (safe : state.NoDangling) (name : Name) (address : Address)
    (after : State) : Action.enterIdentifier image name state ≠
      .error (.undefinedStorageAddress address) after := by
  intro failed
  rcases Action.bind_eq_error_iff.mp failed with raised | ⟨value, _, found, failed⟩
  · exact Action.StoreSafe.lookup image name state address after raised
  · rcases Action.lookup_eq_ok_iff.mp found with ⟨bound, rfl⟩
    split at failed
    next cell =>
      rcases Action.bind_eq_error_iff.mp failed with raised | ⟨_, _, _, pushed⟩
      · exact read_ne_error (safe.environment.lookup bound) _ _ raised
      · cases pushed
    next => cases failed

theorem enterValueOf (safe : state.NoDangling) (name : Name) (address : Address)
    (after : State) : Action.enterValueOf image name state ≠
      .error (.undefinedStorageAddress address) after := by
  intro failed
  rcases Action.bind_eq_error_iff.mp failed with raised | ⟨cell, _, found, failed⟩
  · exact Action.StoreSafe.locationOf image name state address after raised
  · rcases Action.locationOf_eq_ok_iff.mp found with ⟨bound, rfl⟩
    rcases Action.bind_eq_error_iff.mp failed with raised | ⟨content, _, wasRead, failed⟩
    · exact read_ne_error (safe.environment.lookup bound) _ _ raised
    · rcases Action.read_eq_ok_iff.mp wasRead with ⟨held, rfl⟩
      split at failed
      next target =>
        rcases Action.bind_eq_error_iff.mp failed with raised | ⟨_, _, _, pushed⟩
        · exact read_ne_error (safe.cells cell _ held) _ _ raised
        · cases pushed
      next => cases failed

theorem applyAssign (safe : state.NoDangling) (address : Address) (after : State) :
    Action.applyAssign image state ≠ .error (.undefinedStorageAddress address) after := by
  intro failed
  rcases Action.bind_eq_error_iff.mp failed with raised | ⟨value, _, popped, failed⟩
  · exact Action.StoreSafe.popAs _ _ state address after raised
  · rcases Action.bind_eq_error_iff.mp failed with raised | ⟨target, _, poppedNext, failed⟩
    · exact Action.StoreSafe.popAs _ _ _ address after raised
    · rcases Action.popAs_eq_ok_iff.mp popped with ⟨_, _, rest, _, rfl⟩
      rcases Action.popAs_eq_ok_iff.mp poppedNext with ⟨_, _, below, _, rfl⟩
      rcases Action.bind_eq_error_iff.mp failed with raised | ⟨bound, _, found, failed⟩
      · exact Action.StoreSafe.lookup image target _ address after raised
      · rcases Action.lookup_eq_ok_iff.mp found with ⟨isBound, rfl⟩
        split at failed
        next cell =>
          have live := safe.environment.lookup isBound
          simp [Action.write, Store.write, show state.store.isLive cell from live] at failed
        next => cases failed

/-- No entry fails for want of a live cell in a state without dangling
references. -/
theorem execute (safe : state.NoDangling) (entry : Control) (address : Address)
    (after : State) :
    entry.execute image state ≠ .error (.undefinedStorageAddress address) after := by
  cases entry with
  | op opcode =>
      by_cases isAssign : opcode = .assign
      · subst isAssign
        exact safe.applyAssign address after
      · exact Action.StoreSafe.apply isAssign state address after
  | node site =>
      intro failed
      rcases Action.bind_eq_error_iff.mp failed with raised | ⟨node, _, found, failed⟩
      · exact Action.StoreSafe.fetch image site state address after raised
      · rcases Action.fetch_eq_ok_iff.mp found with ⟨_, rfl⟩
        cases node with
        | identifier name => exact safe.enterIdentifier name address after failed
        | valueOf name => exact safe.enterValueOf name address after failed
        | _ => exact Action.StoreSafe.enterNode (by simp) (by simp) state address after failed

end NoDangling

end State

/-! ## Levels -/

/-- An address lies within a horizon if one of its regions owns it. -/
def Horizon.Admits (horizon : Horizon) : Bindable → Prop
  | .storable (.location address) => horizon.Owns address
  | _ => True

theorem Horizon.carried_admits : Carried Horizon.Admits where
  widen := by
    intro inner outer value within admitted
    unfold Admits at admitted ⊢
    split
    · exact within.owns _ admitted
    · trivial
  number := fun _ _ => trivial
  boolean := fun _ _ => trivial
  location := id
  plain := fun _ => trivial
  recursive := fun _ _ => trivial

namespace State

variable {state : State}

/-- The level of a live address: how many scopes are open around the one that
owns it. -/
def level? (state : State) (address : Address) : Option Nat :=
  state.regions.findIdx? fun region => region.addresses.contains address

/-- Whether an assignment about to be made writes an address to a cell of the same
level or of one further in, if it writes an address. -/
def AssignsInward (state : State) : Prop :=
  ∀ source target rest cell, state.values = .location source :: .identifier target :: rest →
    state.environment.lookup target = some (.storable (.location cell)) →
    ∀ sourceLevel cellLevel, state.level? source = some sourceLevel →
      state.level? cell = some cellLevel → sourceLevel ≤ cellLevel

theorem findIdx?_isSome_iff {regions : List Region} {mark : Mark} {address : Address} :
    (regions.findIdx? fun region => region.addresses.contains address).isSome ↔
      Horizon.Owns ⟨regions, mark⟩ address := by
  simp [List.findIdx?_isSome, Horizon.Owns]

theorem level?_isSome_iff {address : Address} :
    (state.level? address).isSome ↔ state.horizon.Owns address :=
  findIdx?_isSome_iff

/-- The first few of the open regions own just the addresses of the levels below
their number. -/
theorem owns_prefix_iff {regions : List Region} {address : Address} {level : Nat} (mark : Mark)
    (isPrefix : regions <+: state.regions) (atLevel : state.level? address = some level) :
    Horizon.Owns ⟨regions, mark⟩ address ↔ level < regions.length := by
  rcases isPrefix with ⟨others, split⟩
  rw [level?, ← split, List.findIdx?_append] at atLevel
  rw [← findIdx?_isSome_iff]
  cases found : regions.findIdx? fun region => region.addresses.contains address with
  | none =>
      rw [found, Option.none_or, Option.map_eq_some_iff] at atLevel
      rcases atLevel with ⟨later, _, rfl⟩
      simp
  | some index =>
      rw [found, Option.some_or, Option.some.injEq] at atLevel
      have inside := (List.findIdx?_eq_some_iff_findIdx_eq.mp found).1
      simpa [atLevel] using inside

/-- What is assigned inward lies within the horizon of every scope that sees the
target. -/
theorem AssignsInward.within (inward : state.AssignsInward)
    (settled : state.Settled Horizon.Admits) :
    state.AssignsWithin Horizon.Admits := by
  intro value target rest cell taken bound regions mark isPrefix ownsCell
  cases value with
  | location source =>
      have admitted := (settled.popBindable taken).1
      have ownsSource : state.horizon.Owns source := by
        simpa [State.horizon, State.regions, Horizon.Admits, taken, ValueStack.savedRegions,
          StackValue.storable] using admitted
      rcases Option.isSome_iff_exists.mp (level?_isSome_iff.mpr ownsSource) with
        ⟨sourceLevel, atSource⟩
      have ownsCellNow : state.horizon.Owns cell := by
        rcases List.mem_flatMap.mp ownsCell with ⟨region, isOpen, inRegion⟩
        exact List.mem_flatMap.mpr ⟨region, isPrefix.subset isOpen, inRegion⟩
      rcases Option.isSome_iff_exists.mp (level?_isSome_iff.mpr ownsCellNow) with
        ⟨cellLevel, atCell⟩
      have ordered := inward source target rest cell taken bound _ _ atSource atCell
      have below := (owns_prefix_iff mark isPrefix atCell).mp ownsCell
      exact (owns_prefix_iff mark isPrefix atSource).mpr (Nat.lt_of_le_of_lt ordered below)
  | number value => trivial
  | boolean value => trivial

theorem Settled.noDangling (settled : state.Settled Horizon.Admits) (owns : state.Owns) :
    state.NoDangling := by
  have supports (value : Bindable) (admitted : state.horizon.Admits value) :
      state.store.Supports value := by
    unfold Horizon.Admits at admitted
    unfold Store.Supports
    split
    · exact (owns.live _).mp admitted
    · trivial
  constructor
  · exact settled.environment.imp supports
  · intro entry member
    exact (settled.stack.holds Horizon.carried_admits entry member).imp supports
  · intro id closure found
    exact (settled.horizon.captured id closure
      (ClosureTable.index_lt_of_closure? found) found).imp supports
  · intro address value held
    exact supports _ (settled.horizon.cells address value (owns.owns_of_get? held) held)

end State

namespace Machine

/-- A step that succeeds and, if it assigns an address, assigns it inward. -/
def AdvancesInward (before after : Machine) : Prop :=
  before.Advances after ∧
    ∀ rest, before.state.control = .op .assign :: rest → before.state.AssignsInward

theorem Advances.inward {before after : Machine} (advances : before.Advances after)
    (other : before.state.control.head? ≠ some (.op .assign)) : AdvancesInward before after := by
  refine ⟨advances, ?_⟩
  intro rest scheduled
  simp [scheduled] at other

theorem settled_of_advancesInward {image : Image} {options : Options} {printer : Printer}
    {machine : Machine}
    (run : Relation.ReflTransGen AdvancesInward (load image options printer) machine) :
    machine.state.Settled Horizon.Admits ∧ machine.state.Owns := by
  induction run with
  | refl => exact ⟨State.settled_start _ _, State.owns_start _ _⟩
  | tail _ last induction =>
      rcases last.1.rule with ⟨entry, rest, scheduled, rule⟩
      have begun : (begin _ rest).Owns := ⟨induction.2.increasing, induction.2.live⟩
      have settled : (begin _ rest).Settled Horizon.Admits := induction.1.frame rest _ _
      refine ⟨settled.rule Horizon.carried_admits rule begun ?_, ?_⟩
      · intro assigns
        have inward : (begin _ rest).AssignsInward := last.2 rest (assigns ▸ scheduled)
        exact inward.within settled
      · exact begun.change (.of_rule rule)

/-- In a run that assigns addresses only inward every address that occurs in a
state is live, and no step fails for want of a live cell. -/
theorem no_dangling_reference {image : Image} {options : Options} {printer : Printer}
    {machine : Machine}
    (run : Relation.ReflTransGen AdvancesInward (load image options printer) machine) :
    machine.state.NoDangling ∧
      ∀ failure after address, machine.step = (.failed failure, after) →
        failure.fault ≠ .undefinedStorageAddress address := by
  rcases settled_of_advancesInward run with ⟨settled, owns⟩
  have safe := settled.noDangling owns
  refine ⟨safe, ?_⟩
  intro failure after address failed
  rcases step_eq_failed failed with ⟨entry, rest, _, ⟨limit, exceeded⟩ | raised⟩
  · simp [exceeded]
  · intro undefined
    have begun : (begin machine.state rest).NoDangling :=
      ⟨safe.environment, safe.values, safe.captured, safe.cells⟩
    rw [undefined] at raised
    exact begun.execute entry address _ raised

/-- A cell with a flag, and in a block inside a cell to which the address of the
first is assigned. -/
def inwardAssignment : Image where
  program := {
    code := { Code.empty with
      nodes := #[.truth true, .allocateReference ⟨0⟩, .bind ⟨1⟩ ⟨1⟩,
        .addressOf ⟨1⟩, .allocateReference ⟨3⟩, .bind ⟨2⟩ ⟨4⟩, .addressOf ⟨1⟩,
        .assign ⟨2⟩ ⟨6⟩, .block ⟨5⟩ ⟨7⟩, .block ⟨2⟩ ⟨8⟩] }
    root := ⟨9⟩ }
  names := .initial

/-- The inner cell may hold the address of the outer one. -/
theorem no_dangling_reference_inwardAssignment :
    let start := load inwardAssignment .unbounded .silent
    let assigned := (start.runFor 17).2
    Relation.ReflTransGen AdvancesInward start assigned ∧ assigned.state.NoDangling ∧
      assigned.state.store.get? ⟨1⟩ = some (.location ⟨0⟩) := by
  intro start assigned
  have untilAssignment : Relation.ReflTransGen AdvancesInward start (start.runFor 16).2 := by
    iterate 16 refine .head (Advances.inward rfl (by decide)) ?_
    exact .refl
  have assignment : AdvancesInward (start.runFor 16).2 assigned := by
    refine ⟨rfl, ?_⟩
    intro rest _ source target below cell taken bound sourceLevel cellLevel atSource atCell
    cases taken
    cases bound
    cases atSource
    cases atCell
    decide
  have run := untilAssignment.tail assignment
  exact ⟨run, (no_dangling_reference run).1, rfl⟩

end Machine

end BlockMachine
