import BlockMachine.Proofs.Machine.Faults

namespace BlockMachine

/-! # Lookups

A few entries look an identifier up in the environment: nodes that read a variable or
ask for its address, assignments and calls. No other entry finds an identifier
unbound. -/

namespace Node

/-- The name that entering a node looks up. -/
def lookedUp? : Node → Option Name
  | identifier name | addressOf name | valueOf name => some name
  | _ => none

end Node

namespace Control

/-- Whether carrying out an entry looks a name up, on a given value stack. -/
inductive LooksUp (code : Code) (values : ValueStack) : Control → Name → Prop where
  | node {entered : Node} (fetched : code.node? site = some entered)
      (looked : entered.lookedUp? = some name) :
      LooksUp code values (.node site) name
  | assign (taken : values = .storable value :: .identifier name :: rest) :
      LooksUp code values (.op .assign) name
  | call (name : Name) (count : Nat) : LooksUp code values (.op (.call name count)) name

end Control

namespace Action

/-- Whether a fault is no unbound identifier. -/
def FindsNames (fault : Fault) : Prop :=
  ∀ text, fault ≠ .undefinedVariable text

/-- Whether an action finds no identifier unbound, in whichever state it is run. -/
def NeverUnbound (action : Action α) : Prop :=
  ∀ before, RaisesOnly FindsNames action before

theorem lookup_eq_error_iff {image : Image} {name : Name} {before after : State} {fault : Fault} :
    lookup image name before = .error fault after ↔ before.environment.lookup name = none ∧
      .undefinedVariable (image.text name) = fault ∧ before = after := by
  simp only [lookup]
  cases before.environment.lookup name <;> simp

namespace NeverUnbound

variable {image : Image}

theorem iff_ne {action : Action α} : NeverUnbound action ↔
    ∀ before after text, action before ≠ .error (.undefinedVariable text) after := by
  constructor
  · intro never before after text failed
    exact never before _ after failed text rfl
  · rintro never before _ after failed text rfl
    exact never before after text failed

theorem bind {action : Action α} {next : α → Action β} (first : NeverUnbound action)
    (second : ∀ value, NeverUnbound (next value)) : NeverUnbound (action >>= next) :=
  fun before => RaisesOnly.bind (first before) fun value middle _ => second value middle

theorem of_ok {action : Action α} (succeeds : ∀ before, ∃ value after,
    action before = .ok value after) : NeverUnbound action := by
  intro before
  rcases succeeds before with ⟨value, after, ran⟩
  exact RaisesOnly.of_ok ran

theorem fail {fault : Fault} (other : FindsNames fault) :
    NeverUnbound (Action.fail fault : Action α) :=
  fun _ => RaisesOnly.fail other

theorem pure (value : α) : NeverUnbound (pure value : Action α) :=
  of_ok fun before => ⟨value, before, rfl⟩

theorem push (value : StackValue) : NeverUnbound (push value) :=
  of_ok fun _ => ⟨_, _, rfl⟩

theorem schedule (entries : List Control) : NeverUnbound (schedule entries) :=
  of_ok fun _ => ⟨_, _, rfl⟩

theorem pop (expected : String) : NeverUnbound (onValues (ValueStack.pop expected)) := by
  refine iff_ne.mpr fun before after text failed => ?_
  simp only [onValues] at failed
  cases stack : before.values <;> simp [stack, ValueStack.pop] at failed

theorem popAs (expected : String) (view : StackValue → Option α) :
    NeverUnbound (onValues (ValueStack.popAs expected view)) :=
  fun _ => RaisesOnly.popAs (fun _ => nofun) fun _ _ _ _ => nofun

theorem changeDeclarations (change : Environment → Environment) :
    NeverUnbound (onValues (ValueStack.changeDeclarations change)) := by
  refine iff_ne.mpr fun before after text failed => ?_
  simp only [onValues] at failed
  cases stack : before.values with
  | nil => simp [stack, ValueStack.changeDeclarations] at failed
  | cons top rest => cases top <;> simp [stack, ValueStack.changeDeclarations] at failed

theorem fetch (site : NodeId) : NeverUnbound (fetch image site) := by
  unfold Action.fetch
  split
  · exact pure _
  · exact fail nofun

theorem read (address : Address) : NeverUnbound (read address) := by
  refine iff_ne.mpr fun before after text failed => ?_
  simp only [Action.read, Store.read] at failed
  cases held : before.store.get? address <;> simp [held] at failed

theorem write (address : Address) (value : Storable) : NeverUnbound (write address value) := by
  refine iff_ne.mpr fun before after text failed => ?_
  simp only [Action.write, Store.write] at failed
  split at failed
  next => simp at failed
  next wrong =>
    split at wrong
    · cases wrong
    · cases wrong
      cases failed

theorem closureAt (id : ClosureId) : NeverUnbound (closureAt id) := by
  refine iff_ne.mpr fun before after text failed => ?_
  simp only [Action.closureAt] at failed
  cases found : before.closures.closure? id <;> simp [found] at failed

theorem unfold (id : GroupId) : NeverUnbound (unfold id) := by
  refine iff_ne.mpr fun before after text failed => ?_
  simp only [Action.unfold] at failed
  cases found : before.closures.groupEnvironment? id <;> simp [found] at failed

/-! ## Nodes -/

theorem scheduleOperands (operands : List NodeId) (opcode : Opcode) :
    NeverUnbound (scheduleOperands operands opcode) :=
  schedule _

theorem requireFunctions (group : List Binding) : NeverUnbound (requireFunctions image group) := by
  induction group with
  | nil => exact pure ()
  | cons member rest induction =>
      refine .bind (fetch _) fun node => ?_
      cases node with
      | abstraction => exact induction
      | _ => exact fail nofun

theorem enterNode {site : NodeId} {node : Node} (looked : node.lookedUp? = none) :
    NeverUnbound (enterNode image site node) := by
  cases node with
  | identifier | addressOf | valueOf => cases looked
  | number | truth => exact push _
  | noOp => exact pure ()
  | block =>
      exact .bind (of_ok fun _ => ⟨_, _, rfl⟩) fun _ => .bind (push _) fun _ => schedule _
  | assign | conditional | loop | bind =>
      exact .bind (push _) fun _ => scheduleOperands _ _
  | recBind => exact .bind (requireFunctions _) fun _ => scheduleOperands _ _
  | abstraction =>
      exact .bind (of_ok fun _ => ⟨_, _, rfl⟩) fun _ =>
        .bind (of_ok fun _ => ⟨_, _, rfl⟩) fun _ => push _
  | _ => exact schedule _

/-! ## Opcodes -/

theorem compareNumbers (holds : Float → Float → Bool) : NeverUnbound (compareNumbers holds) :=
  .bind (popAs _ _) fun _ => .bind (popAs _ _) fun _ => push _

theorem connectBooleans (connective : Bool → Bool → Bool) :
    NeverUnbound (connectBooleans connective) :=
  .bind (popAs _ _) fun _ => .bind (popAs _ _) fun _ => push _

theorem compareEqual : NeverUnbound compareEqual := by
  refine .bind (pop _) fun lhs => .bind (pop _) fun rhs => ?_
  split
  · exact push _
  · exact fail nofun

theorem applyArith (op : ArithOp) : NeverUnbound (applyArith op) := by
  refine .bind (popAs _ _) fun lhs => .bind (popAs _ _) fun rhs => ?_
  split
  · exact push _
  next fault failed =>
    rw [(ArithOp.evaluate_eq_error_iff.mp failed).2.2]
    exact fail nofun

theorem applyLogic (op : LogicOp) : NeverUnbound (applyLogic op) := by
  cases op with
  | lt | le | gt | ge => exact compareNumbers _
  | eq => exact compareEqual
  | and | or => exact connectBooleans _

theorem popMembers (group : List Binding) : NeverUnbound (popMembers group) := by
  induction group with
  | nil => exact pure []
  | cons member rest induction =>
      exact .bind (popAs _ _) fun _ => .bind induction fun _ => pure _

theorem requireArity (callee : String) (expected got : Nat) :
    NeverUnbound (requireArity callee expected got) := by
  unfold Action.requireArity
  split
  · exact fail nofun
  · split
    · exact fail nofun
    · exact pure ()

theorem bindActuals (home : Environment) (formals : List Name) :
    NeverUnbound (bindActuals home formals) := by
  induction formals generalizing home with
  | nil => exact pure home
  | cons formal formals induction => exact .bind (popAs _ _) fun _ => induction _

theorem homeEnvironment (closure : Closure) (group : Option GroupId) :
    NeverUnbound (homeEnvironment closure group) := by
  cases group with
  | none => exact pure _
  | some group => exact .bind (unfold _) fun _ => pure _

/-- Only assignments and calls look names up. -/
theorem apply {opcode : Opcode} (notAssign : opcode ≠ .assign)
    (notCall : ∀ callee count, opcode ≠ .call callee count) :
    NeverUnbound (apply image opcode) := by
  cases opcode with
  | assign => exact absurd rfl notAssign
  | call callee count => exact absurd rfl (notCall callee count)
  | arith op => exact applyArith op
  | logic op => exact applyLogic op
  | not => exact .bind (popAs _ _) fun _ => push _
  | bind => exact .bind (popAs _ _) fun _ => .bind (popAs _ _) fun _ => changeDeclarations _
  | recBind node =>
      refine .bind (fetch _) fun node => ?_
      cases node with
      | recBind =>
          exact .bind (popMembers _) fun _ =>
            .bind (of_ok fun _ => ⟨_, _, rfl⟩) fun _ => changeDeclarations _
      | _ => exact fail nofun
  | ref =>
      exact .bind (popAs _ _) fun _ => .bind (of_ok fun _ => ⟨_, _, rfl⟩) fun _ => push _
  | blockDeclarations =>
      exact .bind (popAs _ _) fun _ =>
        .bind (of_ok fun _ => ⟨_, _, rfl⟩) fun _ => of_ok fun _ => ⟨_, _, rfl⟩
  | blockCommands =>
      exact .bind (popAs _ _) fun _ => .bind (popAs _ _) fun _ =>
        .bind (popAs _ _) fun _ => of_ok fun _ => ⟨_, _, rfl⟩
  | cond =>
      refine .bind (popAs _ _) fun condition => .bind (popAs _ _) fun _ => ?_
      refine .bind (fetch _) fun node => ?_
      cases node with
      | conditional test thenBranch elseBranch =>
          cases condition with
          | true => exact schedule _
          | false => cases elseBranch <;> first | exact schedule _ | exact pure ()
      | _ => exact fail nofun
  | loop =>
      refine .bind (popAs _ _) fun condition => .bind (popAs _ _) fun _ => ?_
      refine .bind (fetch _) fun node => ?_
      cases node with
      | loop => cases condition <;> first | exact schedule _ | exact pure ()
      | _ => exact fail nofun
  | print => exact .bind (popAs _ _) fun _ => of_ok fun _ => ⟨_, _, rfl⟩

end NeverUnbound

variable {image : Image} {before after : State} {name : Name} {text : String}

/-- An action that starts with a lookup finds nothing else unbound. -/
theorem unbound_of_lookup {next : Bindable → Action α} (others : ∀ value, NeverUnbound (next value))
    (failed : (lookup image name >>= next) before = .error (.undefinedVariable text) after) :
    before.environment.lookup name = none ∧ image.text name = text := by
  rcases bind_eq_error_iff.mp failed with raised | ⟨value, middle, _, raised⟩
  · rcases lookup_eq_error_iff.mp raised with ⟨unbound, same, _⟩
    cases same
    exact ⟨unbound, rfl⟩
  · exact absurd raised (NeverUnbound.iff_ne.mp (others value) middle after text)

theorem unbound_of_locationOf {next : Address → Action α}
    (others : ∀ address, NeverUnbound (next address))
    (failed : (locationOf image name >>= next) before = .error (.undefinedVariable text) after) :
    before.environment.lookup name = none ∧ image.text name = text := by
  rcases bind_eq_error_iff.mp failed with raised | ⟨address, middle, _, raised⟩
  · refine unbound_of_lookup (fun value => ?_) raised
    split
    · exact .pure _
    · exact .fail nofun
  · exact absurd raised (NeverUnbound.iff_ne.mp (others address) middle after text)

/-- A node that finds an identifier unbound has looked it up. -/
theorem unbound_of_enterNode {site : NodeId} {node : Node} (looked : node.lookedUp? = some name)
    (failed : enterNode image site node before = .error (.undefinedVariable text) after) :
    before.environment.lookup name = none ∧ image.text name = text := by
  cases node with
  | identifier =>
      cases looked
      refine unbound_of_lookup (fun value => ?_) failed
      split
      · exact .bind (.read _) fun _ => .push _
      · exact .push _
  | addressOf =>
      cases looked
      exact unbound_of_locationOf (fun address => .push _) failed
  | valueOf =>
      cases looked
      refine unbound_of_locationOf (fun address => .bind (.read _) fun held => ?_) failed
      split
      · exact .bind (.read _) fun _ => .push _
      · exact .fail nofun
  | _ => cases looked

end Action

open BlockMachine.Action ValueStack StackValue in
/-- An entry that finds an identifier unbound has looked it up. -/
theorem Control.looksUp_of_unbound {image : Image} {entry : Control} {before after : State}
    {text : String}
    (failed : entry.execute image before = .error (.undefinedVariable text) after) :
    ∃ name, entry.LooksUp image.code before.values name ∧
      before.environment.lookup name = none ∧ image.text name = text := by
  cases entry with
  | node site =>
      rcases bind_eq_error_iff.mp failed with raised | ⟨node, middle, found, raised⟩
      · exact absurd raised (NeverUnbound.iff_ne.mp (.fetch site) before after text)
      · rcases fetch_eq_ok_iff.mp found with ⟨fetched, rfl⟩
        cases looked : node.lookedUp? with
        | none => exact absurd raised (NeverUnbound.iff_ne.mp (.enterNode looked) before after text)
        | some name => exact ⟨name, .node fetched looked, unbound_of_enterNode looked raised⟩
  | op opcode =>
      by_cases isAssign : opcode = .assign
      · subst isAssign
        rcases bind_eq_error_iff.mp failed with raised | ⟨value, middle, popped, raised⟩
        · exact absurd raised (NeverUnbound.iff_ne.mp (.popAs _ _) before after text)
        rcases bind_eq_error_iff.mp raised with raised | ⟨target, last, poppedTarget, raised⟩
        · exact absurd raised (NeverUnbound.iff_ne.mp (.popAs _ _) middle after text)
        rcases popAs_eq_ok_iff.mp popped with ⟨top, isStorable, rest, stack, rfl⟩
        rcases popAs_eq_ok_iff.mp poppedTarget with ⟨second, isIdentifier, rest, rfl, rfl⟩
        rw [storable?_eq_some_iff.mp isStorable, identifier?_eq_some_iff.mp isIdentifier] at stack
        have unbound := unbound_of_lookup (fun bound => ?_) raised
        · exact ⟨target, .assign stack, unbound⟩
        · split
          · exact .write _ _
          · exact .fail nofun
      · by_cases isCall : ∃ callee count, opcode = .call callee count
        · rcases isCall with ⟨callee, count, rfl⟩
          refine ⟨callee, .call callee count, unbound_of_lookup (fun bound => ?_) failed⟩
          split
          · refine .bind (.closureAt _) fun closure => .bind (.requireArity _ _ _) fun _ =>
              .bind (.homeEnvironment _ _) fun home => .bind (.bindActuals _ _) fun extended => ?_
            exact .bind (.of_ok fun _ => ⟨_, _, rfl⟩) fun _ =>
              .bind (.of_ok fun _ => ⟨_, _, rfl⟩) fun _ => .schedule _
          · exact .fail nofun
        · have notCall (callee : Name) (count : Nat) : opcode ≠ .call callee count :=
            fun same => isCall ⟨callee, count, same⟩
          exact absurd failed (NeverUnbound.iff_ne.mp (.apply isAssign notCall) before after text)

end BlockMachine
