import BlockMachine.Proofs.Machine.Reachability

namespace BlockMachine

/-! # Counting steps

A step is counted before its entry is carried out, and nothing that an entry does
touches the count. A step that fails is therefore counted like one that succeeds. -/

namespace Action

/-- The state that an action left behind, whether it succeeded or not. -/
def leftBy : EStateM.Result Fault State α → State
  | .ok _ state | .error _ state => state

/-- Whether an action leaves the count of steps as it is, however it ends. -/
def KeepsCount (action : Action α) : Prop :=
  ∀ before, (leftBy (action before)).steps = before.steps

namespace KeepsCount

variable {image : Image}

theorem bind {action : Action α} {next : α → Action β} (first : KeepsCount action)
    (second : ∀ value, KeepsCount (next value)) : KeepsCount (action >>= next) := by
  intro before
  have counted := first before
  simp only [Bind.bind, EStateM.bind]
  cases ran : action before with
  | ok value middle =>
      rw [ran] at counted
      exact (second value middle).trans counted
  | error fault middle =>
      rw [ran] at counted
      exact counted

theorem pure (value : α) : KeepsCount (pure value : Action α) :=
  fun _ => rfl

theorem fail (fault : Fault) : KeepsCount (Action.fail fault : Action α) :=
  fun _ => rfl

/-- Work on the value stack does not touch the count. -/
theorem onValues (operation : StackAction α) : KeepsCount (onValues operation) := by
  intro before
  simp only [Action.onValues]
  cases operation before.values <;> rfl

theorem push (value : StackValue) : KeepsCount (push value) :=
  fun _ => rfl

theorem schedule (entries : List Control) : KeepsCount (schedule entries) :=
  fun _ => rfl

theorem setEnvironment (environment : Environment) : KeepsCount (setEnvironment environment) :=
  fun _ => rfl

theorem openScope : KeepsCount openScope :=
  fun _ => rfl

theorem fetch (site : NodeId) : KeepsCount (fetch image site) := by
  unfold Action.fetch
  split
  · exact pure _
  · exact fail _

theorem lookup (name : Name) : KeepsCount (lookup image name) := by
  intro before
  simp only [Action.lookup]
  cases before.environment.lookup name <;> rfl

theorem locationOf (name : Name) : KeepsCount (locationOf image name) := by
  refine .bind (lookup name) fun value => ?_
  split
  · exact pure _
  · exact fail _

theorem read (address : Address) : KeepsCount (read address) := by
  intro before
  simp only [Action.read]
  cases before.store.read address <;> rfl

theorem write (address : Address) (value : Storable) : KeepsCount (write address value) := by
  intro before
  simp only [Action.write]
  cases before.store.write address value <;> rfl

theorem closureAt (id : ClosureId) : KeepsCount (closureAt id) := by
  intro before
  simp only [Action.closureAt]
  cases before.closures.closure? id <;> rfl

theorem unfold (id : GroupId) : KeepsCount (unfold id) := by
  intro before
  simp only [Action.unfold]
  cases before.closures.groupEnvironment? id <;> rfl

/-! ## Nodes -/

theorem requireFunctions (group : List Binding) : KeepsCount (requireFunctions image group) := by
  induction group with
  | nil => exact pure ()
  | cons member rest induction =>
      refine .bind (fetch _) fun node => ?_
      cases node with
      | abstraction => exact induction
      | _ => exact fail _

theorem enterNode (site : NodeId) (node : Node) : KeepsCount (enterNode image site node) := by
  cases node with
  | identifier name =>
      refine .bind (lookup name) fun value => ?_
      split
      · exact .bind (read _) fun _ => push _
      · exact push _
  | addressOf name => exact .bind (locationOf name) fun _ => push _
  | valueOf name =>
      refine .bind (locationOf name) fun cell => .bind (read cell) fun held => ?_
      split
      · exact .bind (read _) fun _ => push _
      · exact fail _
  | number | truth => exact push _
  | noOp => exact pure ()
  | block => exact .bind openScope fun _ => .bind (push _) fun _ => schedule _
  | assign | conditional | loop | bind => exact .bind (push _) fun _ => schedule _
  | recBind => exact .bind (requireFunctions _) fun _ => schedule _
  | abstraction => exact .bind (fun _ => rfl) fun _ => .bind (fun _ => rfl) fun _ => push _
  | _ => exact schedule _

/-! ## Opcodes -/

theorem applyArith (op : ArithOp) : KeepsCount (applyArith op) := by
  refine .bind (onValues _) fun lhs => .bind (onValues _) fun rhs => ?_
  split
  · exact push _
  · exact fail _

theorem compareNumbers (holds : Float → Float → Bool) : KeepsCount (compareNumbers holds) :=
  .bind (onValues _) fun _ => .bind (onValues _) fun _ => push _

theorem connectBooleans (connective : Bool → Bool → Bool) :
    KeepsCount (connectBooleans connective) :=
  .bind (onValues _) fun _ => .bind (onValues _) fun _ => push _

theorem compareEqual : KeepsCount compareEqual := by
  refine .bind (onValues _) fun lhs => .bind (onValues _) fun rhs => ?_
  split
  · exact push _
  · exact fail _

theorem popMembers (group : List Binding) : KeepsCount (popMembers group) := by
  induction group with
  | nil => exact pure []
  | cons member rest induction => exact .bind (onValues _) fun _ => .bind induction fun _ => pure _

theorem requireArity (callee : String) (expected got : Nat) :
    KeepsCount (requireArity callee expected got) := by
  unfold Action.requireArity
  split
  · exact fail _
  · split
    · exact fail _
    · exact pure ()

theorem bindActuals (home : Environment) (formals : List Name) :
    KeepsCount (bindActuals home formals) := by
  induction formals generalizing home with
  | nil => exact pure home
  | cons formal formals induction => exact .bind (onValues _) fun _ => induction _

theorem homeEnvironment (closure : Closure) (group : Option GroupId) :
    KeepsCount (homeEnvironment closure group) := by
  cases group with
  | none => exact pure _
  | some group => exact .bind (unfold _) fun _ => pure _

theorem applyCall (callee : Name) (count : Nat) : KeepsCount (applyCall image callee count) := by
  refine .bind (lookup callee) fun value => ?_
  split
  · refine .bind (closureAt _) fun closure => .bind (requireArity _ _ _) fun _ =>
      .bind (homeEnvironment _ _) fun home => .bind (bindActuals _ _) fun extended => ?_
    exact .bind openScope fun _ => .bind (setEnvironment _) fun _ => schedule _
  · exact fail _

theorem applyCond : KeepsCount (applyCond image) := by
  refine .bind (onValues _) fun condition => .bind (onValues _) fun _ => .bind (fetch _) fun node => ?_
  cases node with
  | conditional test thenBranch elseBranch =>
      cases condition with
      | true => exact schedule _
      | false =>
          cases elseBranch with
          | none => exact pure ()
          | some elseBranch => exact schedule _
  | _ => exact fail _

theorem applyLoop : KeepsCount (applyLoop image) := by
  refine .bind (onValues _) fun condition => .bind (onValues _) fun _ => .bind (fetch _) fun node => ?_
  cases node with
  | loop test body =>
      cases condition with
      | true => exact schedule _
      | false => exact pure ()
  | _ => exact fail _

theorem apply (opcode : Opcode) : KeepsCount (apply image opcode) := by
  cases opcode with
  | arith op => exact applyArith op
  | logic op =>
      cases op with
      | lt | le | gt | ge => exact compareNumbers _
      | eq => exact compareEqual
      | and | or => exact connectBooleans _
  | not => exact .bind (onValues _) fun _ => push _
  | assign =>
      refine .bind (onValues _) fun value => .bind (onValues _) fun target =>
        .bind (lookup target) fun bound => ?_
      split
      · exact write _ _
      · exact fail _
  | bind => exact .bind (onValues _) fun _ => .bind (onValues _) fun _ => onValues _
  | recBind =>
      refine .bind (fetch _) fun node => ?_
      cases node with
      | recBind =>
          exact .bind (popMembers _) fun _ => .bind (fun _ => rfl) fun _ => onValues _
      | _ => exact fail _
  | ref => exact .bind (onValues _) fun _ => .bind (fun _ => rfl) fun _ => push _
  | blockDeclarations =>
      exact .bind (onValues _) fun _ => .bind (fun _ => rfl) fun _ => setEnvironment _
  | blockCommands =>
      exact .bind (onValues _) fun _ => .bind (onValues _) fun _ =>
        .bind (onValues _) fun _ => fun _ => rfl
  | cond => exact applyCond
  | loop => exact applyLoop
  | print => exact .bind (onValues _) fun _ => fun _ => rfl
  | call callee count => exact applyCall callee count

theorem execute (entry : Control) : KeepsCount (entry.execute image) := by
  cases entry with
  | node site => exact .bind (fetch site) fun node => enterNode site node
  | op opcode => exact apply opcode

end KeepsCount

end Action

end BlockMachine
