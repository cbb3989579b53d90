import BlockMachine.Proofs.Machine.Execution
import BlockMachine.Proofs.Machine.Faults

namespace BlockMachine

/-! # What a failing step leaves behind

Before anything else is changed an entry takes its operands, and all that can go wrong
goes wrong by then. A step that fails has therefore removed entries from the top of the
value stack and nothing more. The one exception is the opcode of a recursive group, which
adds the group to its table before it looks for the declarations that the group joins. -/

/-- Whether a fault says that the step budget is used up. -/
def Fault.IsBudget : Fault → Prop
  | .stepBudgetExceeded _ => True
  | _ => False

/-- Whether a state is an earlier one less some entries from the top of its value stack. -/
def State.Popped (before after : State) : Prop :=
  ∃ left, left <:+ before.values ∧ after = { before with values := left }

namespace State.Popped

variable {first second third : State}

theorem refl (state : State) : state.Popped state :=
  ⟨state.values, List.suffix_refl _, rfl⟩

theorem trans (before : first.Popped second) (after : second.Popped third) :
    first.Popped third := by
  rcases before with ⟨middle, isSuffix, rfl⟩
  rcases after with ⟨left, isSuffixLeft, rfl⟩
  exact ⟨left, List.IsSuffix.trans isSuffixLeft isSuffix, rfl⟩

end State.Popped

namespace Action

/-- Whether an action never fails. -/
def Total (action : Action α) : Prop :=
  ∀ before, ∃ value after, action before = .ok value after

/-- Whether an action that fails has only taken entries off the value stack; and it does
not fail for the budget. -/
def FailsPopped (action : Action α) : Prop :=
  ∀ before fault after, action before = .error fault after →
    ¬fault.IsBudget ∧ before.Popped after

/-- Whether an action takes entries off the value stack, if it changes anything at all. -/
structure Pops (action : Action α) : Prop where
  fails : FailsPopped action
  succeeds : ∀ before value after, action before = .ok value after → before.Popped after

theorem Total.bind {action : Action α} {next : α → Action β} (first : Total action)
    (second : ∀ value, Total (next value)) : Total (action >>= next) := by
  intro before
  rcases first before with ⟨value, middle, ran⟩
  rcases second value middle with ⟨result, after, ranNext⟩
  exact ⟨result, after, bind_eq_ok_iff.mpr ⟨value, middle, ran, ranNext⟩⟩

namespace Total

theorem push (value : StackValue) : Total (push value) :=
  fun _ => ⟨_, _, rfl⟩

theorem schedule (entries : List Control) : Total (schedule entries) :=
  fun _ => ⟨_, _, rfl⟩

theorem setEnvironment (environment : Environment) : Total (setEnvironment environment) :=
  fun _ => ⟨_, _, rfl⟩

theorem openScope : Total openScope :=
  fun _ => ⟨_, _, rfl⟩

end Total

namespace FailsPopped

theorem of_total {action : Action α} (total : Total action) : FailsPopped action := by
  intro before fault after failed
  rcases total before with ⟨value, last, succeeded⟩
  cases succeeded.symm.trans failed

theorem fail {fault : Fault} (other : ¬fault.IsBudget) :
    FailsPopped (fail fault : Action α) := by
  intro before raised after failed
  cases failed
  exact ⟨other, .refl before⟩

/-- Where all pops come first, a failure that only pops is one of the whole. -/
theorem bind {action : Action α} {next : α → Action β} (first : Pops action)
    (second : ∀ value, FailsPopped (next value)) : FailsPopped (action >>= next) := by
  intro before fault after failed
  rcases bind_eq_error_iff.mp failed with raised | ⟨value, middle, succeeded, raised⟩
  · exact first.fails before fault after raised
  · rcases second value middle fault after raised with ⟨other, popped⟩
    exact ⟨other, (first.succeeds before value middle succeeded).trans popped⟩

theorem write (address : Address) (value : Storable) : FailsPopped (write address value) := by
  intro before fault after failed
  simp only [Action.write, Store.write] at failed
  split at failed
  next => cases failed
  next raised =>
    cases failed
    split at raised <;> cases raised
    exact ⟨id, .refl before⟩

theorem changeDeclarations (change : Environment → Environment) :
    FailsPopped (onValues (ValueStack.changeDeclarations change)) := by
  intro before fault after failed
  simp only [onValues] at failed
  cases stack : before.values with
  | nil =>
      simp only [stack, ValueStack.changeDeclarations] at failed
      cases failed
      exact ⟨id, [], List.nil_suffix, rfl⟩
  | cons top rest =>
      cases top with
      | declarations collected => simp [stack, ValueStack.changeDeclarations] at failed
      | _ =>
          simp only [stack, ValueStack.changeDeclarations] at failed
          cases failed
          exact ⟨id, _, ⟨[], stack.symm⟩, rfl⟩

end FailsPopped

namespace Pops

variable {image : Image}

theorem bind {action : Action α} {next : α → Action β} (first : Pops action)
    (second : ∀ value, Pops (next value)) : Pops (action >>= next) where
  fails := .bind first fun value => (second value).fails
  succeeds := by
    intro before result after succeeded
    rcases bind_eq_ok_iff.mp succeeded with ⟨value, middle, ran, ranNext⟩
    exact (first.succeeds before value middle ran).trans
      ((second value).succeeds middle result after ranNext)

/-- An action that leaves the state alone, whether it succeeds or not. -/
theorem of_unchanged {action : Action α}
    (unchanged : ∀ before, (∃ value, action before = .ok value before) ∨
      ∃ fault, action before = .error fault before ∧ ¬fault.IsBudget) : Pops action where
  fails := by
    intro before fault after failed
    rcases unchanged before with ⟨value, ran⟩ | ⟨raised, ran, other⟩
    · cases ran.symm.trans failed
    · cases ran.symm.trans failed
      exact ⟨other, .refl before⟩
  succeeds := by
    intro before value after succeeded
    rcases unchanged before with ⟨found, ran⟩ | ⟨raised, ran, _⟩
    · cases ran.symm.trans succeeded
      exact .refl before
    · cases ran.symm.trans succeeded

theorem pure (value : α) : Pops (Pure.pure value) :=
  of_unchanged fun _ => .inl ⟨value, rfl⟩

theorem fail {fault : Fault} (other : ¬fault.IsBudget) : Pops (fail fault : Action α) :=
  of_unchanged fun _ => .inr ⟨fault, rfl, other⟩

/-! ## Stacks -/

theorem popAs (expected : String) (view : StackValue → Option α) :
    Pops (onValues (ValueStack.popAs expected view)) where
  fails := by
    intro before fault after failed
    simp only [onValues, ValueStack.popAs] at failed
    cases stack : before.values with
    | nil =>
        simp only [stack] at failed
        cases failed
        exact ⟨id, [], List.nil_suffix, rfl⟩
    | cons top rest =>
        cases viewed : view top with
        | none =>
            simp only [stack, viewed] at failed
            cases failed
            exact ⟨id, rest, by rw [stack]; exact List.suffix_cons top rest, rfl⟩
        | some value => simp [stack, viewed] at failed
  succeeds := by
    intro before value after popped
    rcases popAs_eq_ok_iff.mp popped with ⟨top, _, rest, stack, rfl⟩
    exact ⟨rest, by rw [stack]; exact List.suffix_cons top rest, rfl⟩

theorem pop (expected : String) : Pops (onValues (ValueStack.pop expected)) where
  fails := by
    intro before fault after failed
    simp only [onValues] at failed
    cases stack : before.values with
    | nil =>
        simp only [stack, ValueStack.pop] at failed
        cases failed
        exact ⟨id, [], List.nil_suffix, rfl⟩
    | cons top rest => simp [stack, ValueStack.pop] at failed
  succeeds := by
    intro before value after popped
    rcases pop_eq_ok_iff.mp popped with ⟨rest, stack, rfl⟩
    exact ⟨rest, by rw [stack]; exact List.suffix_cons value rest, rfl⟩

/-! ## Reading -/

theorem fetch (site : NodeId) : Pops (fetch image site) := by
  unfold Action.fetch
  split
  · exact pure _
  · exact fail id

theorem lookup (name : Name) : Pops (lookup image name) := by
  apply of_unchanged
  intro before
  simp only [Action.lookup]
  cases before.environment.lookup name with
  | some value => exact .inl ⟨value, rfl⟩
  | none => exact .inr ⟨_, rfl, id⟩

theorem locationOf (name : Name) : Pops (locationOf image name) := by
  apply (lookup name).bind
  intro value
  split
  · exact pure _
  · exact fail id

theorem read (address : Address) : Pops (read address) := by
  apply of_unchanged
  intro before
  simp only [Action.read, Store.read]
  cases before.store.get? address with
  | some value => exact .inl ⟨value, rfl⟩
  | none => exact .inr ⟨_, rfl, id⟩

theorem closureAt (id : ClosureId) : Pops (closureAt id) := by
  apply of_unchanged
  intro before
  simp only [Action.closureAt]
  cases before.closures.closure? id with
  | some closure => exact .inl ⟨closure, rfl⟩
  | none => exact .inr ⟨_, rfl, fun isBudget => isBudget⟩

theorem unfold (id : GroupId) : Pops (unfold id) := by
  apply of_unchanged
  intro before
  simp only [Action.unfold]
  cases before.closures.groupEnvironment? id with
  | some bindings => exact .inl ⟨bindings, rfl⟩
  | none => exact .inr ⟨_, rfl, fun isBudget => isBudget⟩

theorem requireFunctions (group : List Binding) : Pops (requireFunctions image group) := by
  induction group with
  | nil => exact pure ()
  | cons member rest induction =>
      apply (fetch member.2).bind
      intro node
      split
      · exact induction
      · exact fail id

theorem requireArity (callee : String) (expected got : Nat) :
    Pops (requireArity callee expected got) := by
  unfold Action.requireArity
  split
  · exact fail id
  · split
    · exact fail id
    · exact pure ()

theorem homeEnvironment (closure : Closure) (group : Option GroupId) :
    Pops (homeEnvironment closure group) := by
  cases group with
  | none => exact pure _
  | some group => exact (unfold group).bind fun _ => pure _

theorem bindActuals (home : Environment) (formals : List Name) :
    Pops (bindActuals home formals) := by
  induction formals generalizing home with
  | nil => exact pure home
  | cons formal formals induction => exact (popAs _ _).bind fun _ => induction _

theorem popMembers (group : List Binding) : Pops (popMembers group) := by
  induction group with
  | nil => exact pure []
  | cons member rest induction =>
      exact (popAs _ _).bind fun _ => induction.bind fun _ => pure _

end Pops

namespace FailsPopped

variable {image : Image}

/-! ## Nodes -/

theorem enterNode (site : NodeId) (node : Node) : FailsPopped (enterNode image site node) := by
  cases node with
  | identifier name =>
      apply bind (.lookup name)
      intro value
      split
      · exact bind (.read _) fun _ => of_total (.push _)
      · exact of_total (.push _)
  | addressOf name => exact bind (.locationOf name) fun _ => of_total (.push _)
  | valueOf name =>
      refine bind (.locationOf name) fun cell => bind (.read cell) fun held => ?_
      split
      · exact bind (.read _) fun _ => of_total (.push _)
      · exact fail id
  | recBind span => exact bind (.requireFunctions _) fun _ => of_total (.schedule _)
  | _ => exact of_total fun _ => ⟨_, _, rfl⟩

theorem enter (site : NodeId) : FailsPopped (enter image site) :=
  bind (.fetch site) fun node => enterNode site node

/-! ## Opcodes -/

theorem applyLogic (op : LogicOp) : FailsPopped (applyLogic op) := by
  have order (holds : Float → Float → Bool) : FailsPopped (compareNumbers holds) :=
    bind (.popAs _ _) fun _ => bind (.popAs _ _) fun _ => of_total (.push _)
  have connect (connective : Bool → Bool → Bool) : FailsPopped (connectBooleans connective) :=
    bind (.popAs _ _) fun _ => bind (.popAs _ _) fun _ => of_total (.push _)
  cases op with
  | lt | le | gt | ge => exact order _
  | and | or => exact connect _
  | eq =>
      refine bind (.pop _) fun lhs => bind (.pop _) fun rhs => ?_
      split
      · exact of_total (.push _)
      · exact fail id

theorem applyCond : FailsPopped (applyCond image) := by
  refine bind (.popAs _ _) fun condition => bind (.popAs _ _) fun site =>
    bind (.fetch site) fun node => ?_
  split
  next elseBranch =>
    split
    · exact of_total (.schedule _)
    · cases elseBranch with
      | none => exact (Pops.pure ()).fails
      | some elseBranch => exact of_total (.schedule _)
  next => exact fail id

theorem applyLoop : FailsPopped (applyLoop image) := by
  refine bind (.popAs _ _) fun condition => bind (.popAs _ _) fun site =>
    bind (.fetch site) fun node => ?_
  split
  · split
    · exact of_total (.schedule _)
    · exact (Pops.pure ()).fails
  · exact fail id

/-- A call may have taken some actuals when it fails, and has opened no scope. -/
theorem applyCall (callee : Name) (count : Nat) : FailsPopped (applyCall image callee count) := by
  apply bind (.lookup callee)
  intro value
  split
  next reference =>
    refine bind (.closureAt _) fun closure => bind (.requireArity _ _ _) fun _ =>
      bind (.homeEnvironment _ _) fun home => bind (.bindActuals _ _) fun environment => ?_
    exact of_total (Total.openScope.bind fun _ => (Total.setEnvironment _).bind fun _ =>
      .schedule _)
  next => exact fail id

theorem apply {opcode : Opcode} (noGroup : ∀ site, opcode ≠ .recBind site) :
    FailsPopped (apply image opcode) := by
  cases opcode with
  | recBind site => exact absurd rfl (noGroup site)
  | arith op =>
      refine bind (.popAs _ _) fun lhs => bind (.popAs _ _) fun rhs => ?_
      cases evaluated : op.evaluate lhs rhs with
      | ok result => exact of_total (.push _)
      | error fault =>
          rcases ArithOp.evaluate_eq_error_iff.mp evaluated with ⟨_, _, rfl⟩
          exact fail id
  | logic op => exact applyLogic op
  | not => exact bind (.popAs _ _) fun _ => of_total (.push _)
  | assign =>
      refine bind (.popAs _ _) fun value => bind (.popAs _ _) fun target =>
        bind (.lookup target) fun bound => ?_
      split
      · exact write _ value
      · exact fail id
  | bind => exact bind (.popAs _ _) fun _ => bind (.popAs _ _) fun _ => changeDeclarations _
  | ref =>
      exact bind (.popAs _ _) fun _ =>
        of_total (Total.bind (fun _ => ⟨_, _, rfl⟩) fun _ => .push _)
  | blockDeclarations =>
      exact bind (.popAs _ _) fun _ => bind (.of_unchanged fun _ => .inl ⟨_, rfl⟩) fun _ =>
        of_total (.setEnvironment _)
  | blockCommands =>
      exact bind (.popAs _ _) fun _ => bind (.popAs _ _) fun _ => bind (.popAs _ _) fun _ =>
        of_total fun _ => ⟨_, _, rfl⟩
  | cond => exact applyCond
  | loop => exact applyLoop
  | print => exact bind (.popAs _ _) fun _ => of_total fun _ => ⟨_, _, rfl⟩
  | call callee count => exact applyCall callee count

theorem execute {entry : Control} (noGroup : ∀ site, entry ≠ .op (.recBind site)) :
    FailsPopped (entry.execute image) := by
  cases entry with
  | node site => exact enter site
  | op opcode => exact apply fun site isGroup => noGroup site (congrArg Control.op isGroup)

end FailsPopped

end Action

/-! ## Recursive groups -/

/-- Whether the opcode of a recursive group, finding `values` on the stack, takes a closure
for each of the members and then finds no declarations on top of what is left. -/
inductive Strands (image : Image) (values : ValueStack) :
    Control → List Member → ValueStack → Prop where
  | mk {site : NodeId} {span : Span Binding} {references : List ClosureRef} {left : ValueStack}
      (fetched : image.code.node? site = some (.recBind span))
      (members : references.length = (image.code.group span).length)
      (taken : values = references.map .closure ++ left)
      (undeclared : left.head?.bind StackValue.declarations? = none) :
      Strands image values (.op (.recBind site))
        (Binding.members (image.code.group span) references) left

namespace Strands

open BlockMachine.Action

variable {image : Image} {before after : State} {entry : Control} {members : List Member}
  {left : ValueStack} {fault : Fault}

theorem changeDeclarations_eq_error {stack : ValueStack} (change : Environment → Environment)
    (undeclared : stack.head?.bind StackValue.declarations? = none) :
    ∃ fault, ValueStack.changeDeclarations change stack = .error fault stack ∧ ¬fault.IsBudget := by
  cases stack with
  | nil => exact ⟨_, rfl, id⟩
  | cons top rest =>
      cases top with
      | declarations collected => cases undeclared
      | _ => exact ⟨_, rfl, id⟩

/-- A stranded group is in its table, although no name was bound to a member. -/
theorem execute_eq_error (strands : Strands image before.values entry members left) :
    ∃ fault, ¬fault.IsBudget ∧ entry.execute image before = .error fault { before with
      values := left
      closures := (before.closures.addGroup members).2 } := by
  cases strands with
  | @mk site span references left fetched matched taken undeclared =>
      let stripped : State := { before with values := left }
      have fetches : Action.fetch image site before = .ok (.recBind span) before :=
        fetch_eq_ok_iff.mpr ⟨fetched, rfl⟩
      have pops : Action.popMembers (image.code.group span) before =
          .ok (Binding.members (image.code.group span) references) stripped :=
        popMembers_eq_ok_iff.mpr ⟨references, left, matched, taken, rfl, rfl⟩
      rcases changeDeclarations_eq_error (fun declared =>
        bindMembers ⟨before.closures.groupCount⟩ declared
          (Binding.members (image.code.group span) references)) undeclared with ⟨fault, raised, other⟩
      refine ⟨fault, other, ?_⟩
      show applyRecBind image site before = _
      rw [applyRecBind, bind_of_ok fetches]
      simp only []
      rw [bind_of_ok pops]
      refine bind_eq_error_iff.mpr (.inr ⟨⟨before.closures.groupCount⟩, { stripped with
        closures := (before.closures.addGroup
          (Binding.members (image.code.group span) references)).2 }, rfl, ?_⟩)
      simp only [onValues, stripped, raised]

/-- Where no group is stranded, an entry that fails has only popped. -/
theorem popped_of_not (failed : entry.execute image before = .error fault after)
    (notStranded : ∀ members left, ¬Strands image before.values entry members left) :
    ¬fault.IsBudget ∧ before.Popped after := by
  by_cases isGroup : ∃ site, entry = .op (.recBind site)
  · rcases isGroup with ⟨site, rfl⟩
    have failed : applyRecBind image site before = .error fault after := failed
    rcases bind_eq_error_iff.mp failed with raised | ⟨node, _, found, failed⟩
    · exact (Pops.fetch site).fails before fault after raised
    · rcases fetch_eq_ok_iff.mp found with ⟨fetched, rfl⟩
      split at failed
      next span =>
        rcases bind_eq_error_iff.mp failed with raised | ⟨members, middle, popped, failed⟩
        · exact (Pops.popMembers _).fails before fault after raised
        · rcases popMembers_eq_ok_iff.mp popped with ⟨references, left, matched, taken, rfl, rfl⟩
          -- Declarations on top would have let the group join them.
          cases undeclared : left.head?.bind StackValue.declarations? with
          | none => exact absurd (.mk fetched matched taken undeclared) (notStranded _ left)
          | some collected =>
              rcases Option.bind_eq_some_iff.mp undeclared with ⟨top, isTop, isDeclarations⟩
              rcases List.head?_eq_some_iff.mp isTop with ⟨rest, rfl⟩
              cases StackValue.declarations?_eq_some_iff.mp isDeclarations
              cases failed
      next => exact FailsPopped.fail id before fault after failed
  · exact FailsPopped.execute (fun site same => isGroup ⟨site, same⟩) before fault after failed

end Strands

namespace Machine

theorem step_of_exceeded (image : Image) {options : Options} {state : State} {entry : Control}
    {rest : List Control} {limit : Nat} (scheduled : state.control = entry :: rest)
    (exceeded : options.exceeded? state.steps = some limit) :
    step ⟨image, options, state⟩ =
      (.failed (failureOf options state (.stepBudgetExceeded limit)), ⟨image, options, state⟩) := by
  simp only [step, scheduled, exceeded]

/-- What a failing step may change, in whatever state the machine is. A step that fails for
the budget changes nothing. Any other one is counted, is gone from the control stack and has
taken entries off the value stack, without putting any there; and it has added a recursive
group to the table just if it found all closures of its members but no declarations below
them. -/
theorem failing_step_residue {machine after : Machine} {failure : Failure}
    (failed : machine.step = (.failed failure, after)) :
    (failure.fault.IsBudget ∧ after = machine) ∨
    (¬failure.fault.IsBudget ∧ ∃ entry rest left closures,
      machine.state.control = entry :: rest ∧ left <:+ machine.state.values ∧
      after = { machine with state := { machine.state with
        control := rest
        values := left
        closures := closures
        steps := machine.state.steps + 1 } } ∧
      ((closures = machine.state.closures ∧ ∀ members remaining,
          ¬Strands machine.image machine.state.values entry members remaining) ∨
        ∃ members, Strands machine.image machine.state.values entry members left ∧
          closures = (machine.state.closures.addGroup members).2)) := by
  rcases machine with ⟨image, options, state⟩
  cases scheduled : state.control with
  | nil =>
      have halted : step ⟨image, options, state⟩ = _ := step_of_empty scheduled
      cases halted.symm.trans failed
  | cons entry rest =>
      cases exceeded : options.exceeded? state.steps with
      | some limit =>
          cases (step_of_exceeded image scheduled exceeded).symm.trans failed
          exact .inl ⟨trivial, rfl⟩
      | none =>
          have stepped := (step_of_scheduled image scheduled exceeded).symm.trans failed
          by_cases stranded : ∃ members left, Strands image state.values entry members left
          · rcases stranded with ⟨members, left, strands⟩
            have strandsBegun : Strands image (begin state rest).values entry members left := strands
            rcases strandsBegun.execute_eq_error with ⟨fault, other, executed⟩
            rw [executed] at stepped
            cases stepped
            have isSuffix : left <:+ state.values := by
              cases strands with
              | mk _ _ taken => exact ⟨_, taken.symm⟩
            exact .inr ⟨other, entry, rest, left, _, rfl, isSuffix, rfl,
              .inr ⟨members, strands, rfl⟩⟩
          · have notStranded (members : List Member) (left : ValueStack) :
                ¬Strands image state.values entry members left :=
              fun strands => stranded ⟨members, left, strands⟩
            cases executed : entry.execute image (begin state rest) with
            | ok value next =>
                rw [executed] at stepped
                cases stepped
            | error fault next =>
                rw [executed] at stepped
                cases stepped
                rcases Strands.popped_of_not executed notStranded with ⟨other, left, isSuffix, rfl⟩
                exact .inr ⟨other, entry, rest, left, _, rfl, isSuffix, rfl,
                  .inl ⟨rfl, notStranded⟩⟩

/-- The group of one function, about to be declared where there is no block. -/
def stranding : Machine :=
  let code : Code := ⟨#[.noOp, .abstraction .empty ⟨0⟩, .recBind ⟨0, 1⟩], .empty, .empty,
    ⟨#[(⟨1⟩, ⟨1⟩)]⟩⟩
  ⟨⟨⟨code, ⟨2⟩⟩, (NameTable.initial.intern "self").2⟩, ⟨none, false⟩, { State.start ⟨2⟩ .silent with
    control := [.op (.recBind ⟨2⟩), .node ⟨0⟩]
    values := [.closure (.plain ⟨0⟩), .number 7]
    closures := (ClosureTable.empty.insert ⟨.empty, ⟨0⟩, .empty⟩).2
    steps := 3 }⟩

/-- The closure is taken, the number is not, and the group is left behind. -/
theorem failing_step_residue_stranding :
    let after : Machine := { stranding with state := { stranding.state with
      control := [.node ⟨0⟩]
      values := [.number 7]
      closures := (stranding.state.closures.addGroup [(⟨1⟩, ⟨0⟩)]).2
      steps := 4 } }
    let failure : Failure := ⟨.expectedValue "declarations" "number", some 4, none⟩
    stranding.step = (.failed failure, after) ∧
      ((failure.fault.IsBudget ∧ after = stranding) ∨
      (¬failure.fault.IsBudget ∧ ∃ entry rest left closures,
        stranding.state.control = entry :: rest ∧ left <:+ stranding.state.values ∧
        after = { stranding with state := { stranding.state with
          control := rest
          values := left
          closures := closures
          steps := stranding.state.steps + 1 } } ∧
        ((closures = stranding.state.closures ∧ ∀ members remaining,
            ¬Strands stranding.image stranding.state.values entry members remaining) ∨
          ∃ members, Strands stranding.image stranding.state.values entry members left ∧
            closures = (stranding.state.closures.addGroup members).2))) := by
  intro after failure
  have failed : stranding.step = (.failed failure, after) := rfl
  exact ⟨failed, failing_step_residue failed⟩

end Machine

end BlockMachine
