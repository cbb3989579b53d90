import BlockMachine.Proofs.Correctness.Blocks

namespace BlockMachine

/-! # Commands

Every command runs as it is evaluated, by induction on the fuel: what is nested in
a command, and the rounds of a loop that are still to come, have less of it. -/

section

open BlockMachine.Action ValueStack

variable {image : Image} {table : ClosureTable} {printer : Printer} {world : World} {before : State}
  {scope : Scope} {text : String} {name : Name} {value : Value} {bound : Bindable}
  {rest : ValueStack}

/-! ## Assignments -/

/-- Changing a cell without allocating one. -/
def Writes (printer : Printer) (before : State) (world : World) (rest : ValueStack)
    (_ : Unit) (after : World) (_ : Unit) (state : State) : Prop :=
  after.Agrees printer state ∧ after.next = world.next ∧
    state = { before with values := rest, store := state.store }

theorem mirrors_write (agrees : world.Agrees printer before) (address : Address)
    (content : Storable) :
    Mirrors (Writes printer before world before.values) (World.Agrees printer)
      (Evaluation.write address content world) (Action.write address content before) := by
  have held := agrees.cells address
  simp only [Evaluation.write, Action.write]
  cases found : world.cells address with
  | none =>
      have dead : ¬before.store.isLive address := by simp [Store.isLive, held, found]
      rw [Store.write, if_neg dead]
      exact .fault agrees
  | some old =>
      have live : before.store.isLive address := by simp [Store.isLive, held, found]
      have written := Store.write_of_isLive live content
      rw [written]
      exact .ok ⟨agrees.write written rfl rfl, rfl, rfl⟩

theorem mirrors_assign (agrees : world.Agrees printer before)
    (same : image.draft.AgreesOn table scope before.environment)
    (named : image.draft.Names text name)
    (agreed : image.draft.Agrees table (some value) (some bound))
    (taken : before.values = .bindable bound :: .identifier name :: rest) :
    Mirrors (Writes printer before world rest) (World.Agrees printer)
      (Evaluation.assign scope text value world) (applyAssign image before) := by
  apply (mirrors_storable agrees agreed taken).bind
  intro content _ _ _ pops
  rcases pops with ⟨rfl, rfl, rfl⟩
  let bare : State := { before with values := rest }
  have bareAgrees : world.Agrees printer bare := agrees.frame rfl rfl
  have sameBare : image.draft.AgreesOn table scope bare.environment := same
  have popped : onValues popIdentifier { before with values := .identifier name :: rest } =
    .ok name bare := rfl
  rw [bind_of_ok popped]
  apply (mirrors_find bareAgrees sameBare named).bind
  intro _ _ _ _ finds
  rcases finds with ⟨rfl, rfl, found⟩
  have sameText : image.text name = text := NameTable.text_of_find? named
  rw [sameText]
  cases found with
  | storable value =>
      cases value with
      | location address => exact (mirrors_write bareAgrees address content).mono fun _ _ _ _ => id
      | _ => exact .fault bareAgrees
  | function => exact .fault bareAgrees

end

namespace Setting

variable {setting : Setting} {fuel : Nat} {start : State} {rest : List Control} {world : World}
  {scope : Scope} {id : NodeId}

theorem follows_assign {text : String} {expr : Expr}
    (laid : setting.draft.LaysCommand (.assign text expr) id)
    (same : setting.draft.AgreesOn start.closures scope start.environment)
    (agrees : world.Agrees setting.printer start) (scheduled : start.control = .node id :: rest) :
    setting.Follows (fuel + 1) start (fun _ => setting.Restores start rest world)
      (Evaluation.command (fuel + 1) scope (.assign text expr) world) := by
  cases laid with
  | assign laid named fetched =>
      refine .after_agenda scheduled fetched rfl (by simp) ?_
      refine .bind (follows_expression laid same (agrees.frame rfl rfl) rfl) ?_
      intro value _ _ leaves
      rcases leaves with ⟨rfl, bound, steps, agreed, rfl⟩
      refine .of_mirrors rfl (.mono (mirrors_assign ?_ ?_ named agreed rfl) ?_)
      · exact agrees.frame rfl rfl
      · exact same
      · intro _ after _ state writes
        rcases writes with ⟨agreesAfter, next, stored⟩
        exact restores_of_agrees agreesAfter next (by rw [stored]; rfl)

theorem follows_print {expr : Expr} (laid : setting.draft.LaysCommand (.print expr) id)
    (same : setting.draft.AgreesOn start.closures scope start.environment)
    (agrees : world.Agrees setting.printer start) (scheduled : start.control = .node id :: rest) :
    setting.Follows (fuel + 1) start (fun _ => setting.Restores start rest world)
      (Evaluation.command (fuel + 1) scope (.print expr) world) := by
  cases laid with
  | print laid fetched =>
      refine .after_agenda scheduled fetched rfl (by simp) ?_
      refine .bind (follows_expression laid same (agrees.frame rfl rfl) rfl) ?_
      intro value _ _ leaves
      rcases leaves with ⟨rfl, bound, steps, agreed, rfl⟩
      refine ⟨_, reaches_of_rule rfl (.print rfl), ?_⟩
      refine restores_of_agrees ?_ rfl rfl
      exact agrees.println _ rfl (agreed.text ▸ rfl)

/-! ## Conditions -/

/-- A condition leaves a boolean for the opcode that takes it. -/
theorem follows_condition {test : Expr} {condition : NodeId} {opcode : Opcode}
    {next : Bool → Action Unit}
    (takes : Action.apply setting.image opcode = Action.onValues ValueStack.popBoolean >>= next)
    (laid : setting.draft.LaysExpr test condition)
    (same : setting.draft.AgreesOn start.closures scope start.environment)
    (agrees : world.Agrees setting.printer start)
    (scheduled : start.control = .node condition :: .op opcode :: rest) :
    setting.Follows fuel start
      (fun holds after state => world = after ∧ ∃ steps, state = { start with
        control := .op opcode :: rest
        values := .boolean holds :: start.values
        steps := steps })
      (Evaluation.condition scope test world) := by
  refine .bind (follows_expression laid same agrees scheduled) ?_
  intro value _ _ leaves
  rcases leaves with ⟨rfl, bound, steps, agreed, rfl⟩
  have popped : World.Agrees setting.printer world { start with
    control := rest
    steps := steps + 1 } := agrees.frame rfl rfl
  cases agreed with
  | storable value =>
      cases value with
      | boolean holds => exact ⟨_, .refl, rfl, steps, rfl⟩
      | _ => exact .of_fault rfl (by rw [Control.execute, takes]; rfl) popped
  | function => exact .of_fault rfl (by rw [Control.execute, takes]; rfl) popped

theorem follows_body (runs : setting.RunsCommands fuel) {body : List Command} {bodyId : NodeId}
    {commanded : List NodeId} (laid : setting.draft.LaysCommands body commanded)
    (flat : setting.image.code.Flattens bodyId commanded)
    (same : setting.draft.AgreesOn start.closures scope start.environment)
    (agrees : world.Agrees setting.printer start) {steps : Nat} :
    setting.Follows fuel { start with control := .node bodyId :: rest, steps := steps }
      (fun _ => setting.Restores start rest world)
      (body.forM (Evaluation.command fuel scope) world) := by
  let entered : State := { start with control := .node bodyId :: rest, steps := steps }
  have control : entered.control = .node bodyId :: rest := rfl
  rcases reaches_flattens flat control with ⟨stepsAfter, reached⟩
  refine .after_reaches reached (.finish (follows_commands runs laid.forall₂ ?_ ?_ rfl) ?_)
  · exact same
  · exact agrees.frame rfl rfl
  · intro _ after state restores
    exact ⟨state, .refl, restores.frame rfl rfl rfl rfl⟩

theorem follows_ifThen (runs : setting.RunsCommands fuel) {test : Expr} {body : List Command}
    (laid : setting.draft.LaysCommand (.ifThen test body) id)
    (same : setting.draft.AgreesOn start.closures scope start.environment)
    (agrees : world.Agrees setting.printer start) (scheduled : start.control = .node id :: rest) :
    setting.Follows (fuel + 1) start (fun _ => setting.Restores start rest world)
      (Evaluation.command (fuel + 1) scope (.ifThen test body) world) := by
  cases laid with
  | ifThen testLaid bodyLaid flat fetched =>
      refine .after_agenda scheduled fetched rfl (by simp) ?_
      refine .bind (follows_condition rfl testLaid same (agrees.frame rfl rfl) rfl) ?_
      intro holds _ _ decided
      rcases decided with ⟨rfl, steps, rfl⟩
      refine .after_reaches (reaches_of_rule rfl (.cond rfl fetched)) ?_
      cases holds with
      | false => exact ⟨_, .refl, restores_of_agrees (agrees.frame rfl rfl) rfl rfl⟩
      | true => exact follows_body runs bodyLaid flat same agrees

theorem follows_ifThenElse (runs : setting.RunsCommands fuel) {test : Expr}
    {thenCommands elseCommands : List Command}
    (laid : setting.draft.LaysCommand (.ifThenElse test thenCommands elseCommands) id)
    (same : setting.draft.AgreesOn start.closures scope start.environment)
    (agrees : world.Agrees setting.printer start) (scheduled : start.control = .node id :: rest) :
    setting.Follows (fuel + 1) start (fun _ => setting.Restores start rest world)
      (Evaluation.command (fuel + 1) scope (.ifThenElse test thenCommands elseCommands) world) := by
  cases laid with
  | ifThenElse testLaid thenLaid thenFlat elseLaid elseFlat fetched =>
      refine .after_agenda scheduled fetched rfl (by simp) ?_
      refine .bind (follows_condition rfl testLaid same (agrees.frame rfl rfl) rfl) ?_
      intro holds _ _ decided
      rcases decided with ⟨rfl, steps, rfl⟩
      refine .after_reaches (reaches_of_rule rfl (.cond rfl fetched)) ?_
      cases holds with
      | false => exact follows_body runs elseLaid elseFlat same agrees
      | true => exact follows_body runs thenLaid thenFlat same agrees

/-- A round of a loop leaves the loop to be entered again. -/
theorem follows_loop (runs : setting.RunsCommands fuel) {test : Expr} {body : List Command}
    (laid : setting.draft.LaysCommand (.loop test body) id)
    (same : setting.draft.AgreesOn start.closures scope start.environment)
    (agrees : world.Agrees setting.printer start) (scheduled : start.control = .node id :: rest) :
    setting.Follows (fuel + 1) start (fun _ => setting.Restores start rest world)
      (Evaluation.command (fuel + 1) scope (.loop test body) world) := by
  have again := laid
  cases laid with
  | @loop _ _ condition bodyId _ commanded testLaid bodyLaid flat fetched =>
      refine .after_agenda scheduled fetched rfl (by simp) ?_
      refine .bind (follows_condition rfl testLaid same (agrees.frame rfl rfl) rfl) ?_
      intro holds _ _ decided
      rcases decided with ⟨rfl, steps, rfl⟩
      refine .after_reaches (reaches_of_rule rfl (.loop rfl fetched)) ?_
      cases holds with
      | false => exact ⟨_, .refl, restores_of_agrees (agrees.frame rfl rfl) rfl rfl⟩
      | true =>
          refine .bind (follows_body runs bodyLaid flat same agrees) ?_
          intro _ middle between round
          have sameBetween : setting.draft.AgreesOn between.closures scope between.environment := by
            rw [round.closures, round.environment]
            exact same
          apply (runs again sameBetween round.agrees round.control).reaching.finish
          intro _ after state finished
          rcases finished with ⟨reaches, others⟩
          exact ⟨state, .refl, round.trans others (Machine.Reaches.grows reaches)⟩

/-- Every command runs as it is evaluated. -/
theorem runs_commands (setting : Setting) (fuel : Nat) : setting.RunsCommands fuel := by
  induction fuel with
  | zero =>
      -- Out of fuel nothing is asked of the machine but to have come this far.
      intro scope current id start rest world laid same agrees scheduled
      exact ⟨start, .refl, Nat.le_refl _⟩
  | succ fuel induction =>
      intro scope current id start rest world laid same agrees scheduled
      cases current with
      | nop =>
          cases laid with
          | nop fetched =>
              refine .after_agenda scheduled fetched rfl (by simp) ?_
              exact ⟨_, .refl, restores_of_agrees (agrees.frame rfl rfl) rfl rfl⟩
      | assign text expr => exact follows_assign laid same agrees scheduled
      | loop test body => exact follows_loop induction laid same agrees scheduled
      | ifThen test body => exact follows_ifThen induction laid same agrees scheduled
      | ifThenElse test thenCommands elseCommands =>
          exact follows_ifThenElse induction laid same agrees scheduled
      | block inner =>
          cases laid with
          | block laid => exact follows_block induction laid same agrees scheduled
      | print expr => exact follows_print laid same agrees scheduled
      | call text exprs => exact follows_call induction laid same agrees scheduled

end Setting

end BlockMachine
