import BlockMachine.Proofs.Machine.Reachability

namespace BlockMachine

/-! # Execution by rules

Where a rule applies, the machine does what it says. -/

namespace Action

variable {image : Image} {state : State}

theorem bind_of_ok {action : Action α} {next : α → Action β} {middle : State} {value : α}
    (ran : action state = .ok value middle) : (action >>= next) state = next value middle := by
  simp only [Bind.bind, EStateM.bind, ran]

theorem enter_of_fetched {site : NodeId} {node : Node}
    (fetched : image.code.node? site = some node) :
    enter image site state = enterNode image site node state := by
  simp only [enter, fetch, fetched]
  rfl

open ValueStack StackValue

theorem applyLogic_number (lhs rhs : Float) (rest : ValueStack) (holds : Float → Float → Bool)
    (taken : state.values = .storable (.number lhs) :: .storable (.number rhs) :: rest) :
    compareNumbers holds state =
      .ok () { state with values := .storable (.boolean (holds lhs rhs)) :: rest } := by
  simp only [compareNumbers, popNumber, bind_eq_ok_iff, popAs_eq_ok_iff, number?_eq_some_iff,
    exists_eq_left]
  exact ⟨lhs, _, ⟨_, taken, rfl⟩, rhs, _, ⟨rest, rfl, rfl⟩, rfl⟩

theorem connectBooleans_boolean (lhs rhs : Bool) (rest : ValueStack)
    (connective : Bool → Bool → Bool)
    (taken : state.values = .storable (.boolean lhs) :: .storable (.boolean rhs) :: rest) :
    connectBooleans connective state =
      .ok () { state with values := .storable (.boolean (connective lhs rhs)) :: rest } := by
  simp only [connectBooleans, popBoolean, bind_eq_ok_iff, popAs_eq_ok_iff, boolean?_eq_some_iff,
    exists_eq_left]
  exact ⟨lhs, _, ⟨_, taken, rfl⟩, rhs, _, ⟨rest, rfl, rfl⟩, rfl⟩

theorem apply_combines {opcode : Opcode} {operands : List Storable} {result : Storable}
    {rest : ValueStack} (combines : Opcode.Combines opcode operands result)
    (taken : state.values = operands.map .storable ++ rest) :
    apply image opcode state = .ok () { state with values := .storable result :: rest } := by
  cases combines with
  | @arith op lhs rhs result evaluated =>
      simp only [apply, applyArith, popNumber, bind_eq_ok_iff, popAs_eq_ok_iff,
        number?_eq_some_iff, exists_eq_left]
      exact ⟨lhs, _, ⟨_, taken, rfl⟩, rhs, _, ⟨rest, rfl, rfl⟩, by simp only [evaluated]; rfl⟩
  | lt => exact applyLogic_number _ _ rest _ taken
  | le => exact applyLogic_number _ _ rest _ taken
  | gt => exact applyLogic_number _ _ rest _ taken
  | ge => exact applyLogic_number _ _ rest _ taken
  | and => exact connectBooleans_boolean _ _ rest _ taken
  | or => exact connectBooleans_boolean _ _ rest _ taken
  | sameNumber =>
      simp only [apply, applyLogic, compareEqual, bind_eq_ok_iff, pop_eq_ok_iff]
      exact ⟨_, _, ⟨_, taken, rfl⟩, _, _, ⟨rest, rfl, rfl⟩, rfl⟩
  | sameTruth =>
      simp only [apply, applyLogic, compareEqual, bind_eq_ok_iff, pop_eq_ok_iff]
      exact ⟨_, _, ⟨_, taken, rfl⟩, _, _, ⟨rest, rfl, rfl⟩, rfl⟩
  | not =>
      simp only [apply, applyNot, popBoolean, bind_eq_ok_iff, popAs_eq_ok_iff,
        boolean?_eq_some_iff, exists_eq_left]
      exact ⟨_, _, ⟨rest, taken, rfl⟩, rfl⟩

end Action

open BlockMachine.Action ValueStack StackValue in
/-- An entry that a rule is about is carried out as the rule says. -/
theorem Rule.execute {image : Image} {entry : Control} {before after : State}
    (rule : Rule image entry before after) : entry.execute image before = .ok () after := by
  cases rule with
  | @literal _ node _ _ fetched literal =>
      cases node with
      | number value => cases literal; exact enter_of_fetched fetched
      | truth value => cases literal; exact enter_of_fetched fetched
      | _ => cases literal
  | identifier fetched bound held =>
      exact (enter_of_fetched fetched).trans
        (enterIdentifier_eq_ok_iff.mpr ⟨_, _, bound, held, rfl⟩)
  | addressOf fetched bound =>
      apply (enter_of_fetched fetched).trans
      simp only [enterNode, bind_eq_ok_iff, locationOf_eq_ok_iff]
      exact ⟨_, _, ⟨bound, rfl⟩, rfl⟩
  | valueOf fetched bound pointer held =>
      exact (enter_of_fetched fetched).trans
        (enterValueOf_eq_ok_iff.mpr ⟨_, _, _, bound, pointer, held, rfl⟩)
  | @agenda _ node _ _ _ fetched agenda functions =>
      apply (enter_of_fetched fetched).trans
      cases node with
      | recBind span =>
          cases agenda
          simp only [enterNode, bind_eq_ok_iff, requireFunctions_eq_ok_iff]
          exact ⟨(), _, ⟨functions span rfl, rfl⟩, rfl⟩
      | _ => cases agenda <;> rfl
  | block fetched => exact enter_of_fetched fetched
  | abstraction fetched => exact enter_of_fetched fetched
  | operator combines taken => exact apply_combines combines taken
  | assign taken bound written =>
      simp only [Control.execute, apply, applyAssign, popStorable, popIdentifier, bind_eq_ok_iff,
        popAs_eq_ok_iff, storable?_eq_some_iff, identifier?_eq_some_iff, exists_eq_left,
        lookup_eq_ok_iff]
      exact ⟨_, _, ⟨_, taken, rfl⟩, _, _, ⟨_, rfl, rfl⟩, _, _, ⟨bound, rfl⟩,
        write_eq_ok_iff.mpr ⟨_, written, rfl⟩⟩
  | bind taken =>
      simp only [Control.execute, apply, applyBind, popBindable, popIdentifier, bind_eq_ok_iff,
        popAs_eq_ok_iff, bindable?_eq_some_iff, identifier?_eq_some_iff, exists_eq_left,
        declare, changeDeclarations_eq_ok_iff]
      exact ⟨_, _, ⟨_, taken, rfl⟩, _, _, ⟨_, rfl, rfl⟩, _, _, rfl, rfl⟩
  | recBind fetched members taken =>
      simp only [Control.execute, apply, applyRecBind, bind_eq_ok_iff, fetch_eq_ok_iff]
      refine ⟨_, _, ⟨fetched, rfl⟩, ?_⟩
      simp only [bind_eq_ok_iff, popMembers_eq_ok_iff, changeDeclarations_eq_ok_iff,
        bindMembers_eq_bindAll]
      exact ⟨_, _, ⟨_, _, members, taken, rfl, rfl⟩, _, _, rfl, _, _, rfl, rfl⟩
  | ref taken =>
      simp only [Control.execute, apply, applyRef, popStorable, bind_eq_ok_iff, popAs_eq_ok_iff,
        storable?_eq_some_iff, exists_eq_left]
      exact ⟨_, _, ⟨_, taken, rfl⟩, _, _, rfl, rfl⟩
  | blockDeclarations taken =>
      simp only [Control.execute, apply, applyBlockDeclarations, popDeclarations, bind_eq_ok_iff,
        popAs_eq_ok_iff, declarations?_eq_some_iff, exists_eq_left]
      exact ⟨_, _, ⟨_, taken, rfl⟩, _, _, rfl, rfl⟩
  | blockCommands taken =>
      simp only [Control.execute, apply, closeScope, popMark, popRegion, bind_eq_ok_iff,
        popAs_eq_ok_iff, mark?_eq_some_iff, region?_eq_some_iff, exists_eq_left]
      refine ⟨_, _, ⟨_, taken, rfl⟩, _, _, ⟨_, rfl, rfl⟩, ?_⟩
      exact bind_eq_ok_iff.mpr ⟨_, _,
        popAs_eq_ok_iff.mpr ⟨_, environment?_eq_some_iff.mpr rfl, _, rfl, rfl⟩, rfl⟩
  | @cond _ _ _ _ elseBranch _ condition taken fetched =>
      simp only [Control.execute, apply, applyCond, popBoolean, popPending, bind_eq_ok_iff,
        popAs_eq_ok_iff, boolean?_eq_some_iff, pending?_eq_some_iff, exists_eq_left,
        fetch_eq_ok_iff]
      refine ⟨_, _, ⟨_, taken, rfl⟩, _, _, ⟨_, rfl, rfl⟩, _, _, ⟨fetched, rfl⟩, ?_⟩
      cases condition with
      | true => rfl
      | false => cases elseBranch <;> rfl
  | @loop _ _ _ _ _ condition taken fetched =>
      simp only [Control.execute, apply, applyLoop, popBoolean, popPending, bind_eq_ok_iff,
        popAs_eq_ok_iff, boolean?_eq_some_iff, pending?_eq_some_iff, exists_eq_left,
        fetch_eq_ok_iff]
      refine ⟨_, _, ⟨_, taken, rfl⟩, _, _, ⟨_, rfl, rfl⟩, _, _, ⟨fetched, rfl⟩, ?_⟩
      cases condition <;> rfl
  | print taken =>
      simp only [Control.execute, apply, applyPrint, popBindable, bind_eq_ok_iff,
        popAs_eq_ok_iff, bindable?_eq_some_iff, exists_eq_left]
      exact ⟨_, _, ⟨_, taken, rfl⟩, rfl⟩
  | call bound found arity matched taken entered =>
      simp only [Control.execute, apply, applyCall, bind_eq_ok_iff, lookup_eq_ok_iff]
      refine ⟨_, _, ⟨bound, rfl⟩, ?_⟩
      simp only [bind_eq_ok_iff, closureAt_eq_ok_iff, requireArity_eq_ok_iff,
        homeEnvironment_eq_ok_iff, bindActuals_eq_ok_iff]
      exact ⟨_, _, ⟨found, rfl⟩, (), _, ⟨arity, rfl⟩, _, _, ⟨entered, rfl⟩, _, _,
        ⟨_, _, matched, taken, rfl, rfl⟩, _, _, rfl, _, _, rfl, rfl⟩

/-- An entry changes a state in one way only. -/
theorem Rule.unique {image : Image} {entry : Control} {before first second : State}
    (left : Rule image entry before first) (right : Rule image entry before second) :
    first = second := by
  have same := left.execute.symm.trans right.execute
  cases same
  rfl

theorem Rule.enterNode_eq_ok {image : Image} {site : NodeId} {node : Node} {before after : State}
    (rule : Rule image (.node site) before after)
    (fetched : image.code.node? site = some node) :
    Action.enterNode image site node before = .ok () after :=
  (Action.enter_of_fetched fetched).symm.trans rule.execute

/-- A machine within its budget does what the rule for its top entry says. -/
theorem Machine.advances_of_rule {image : Image} {options : Options} {state next : State}
    {entry : Control} {rest : List Control} (scheduled : state.control = entry :: rest)
    (within : options.exceeded? state.steps = none)
    (rule : Rule image entry (begin state rest) next) :
    Advances ⟨image, options, state⟩ ⟨image, options, next⟩ := by
  rw [Advances, step_of_scheduled image scheduled within, rule.execute]

end BlockMachine
