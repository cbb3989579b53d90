import BlockMachine.Proofs.Correctness.Declarations
import BlockMachine.Proofs.Memory.Ownership

namespace BlockMachine

/-! # Blocks and calls

A command leaves nothing behind but what it did to the cells that were there
before it, and what it printed. A block and a call do so if the commands inside
them do. -/

namespace Setting

variable {setting : Setting}

/-- What a command leaves as it was, and what it may have changed. -/
structure Restores (setting : Setting) (start : State) (rest : List Control) (world after : World)
    (state : State) : Prop where
  agrees : after.Agrees setting.printer state
  control : state.control = rest
  values : state.values = start.values
  environment : state.environment = start.environment
  region : state.region = start.region
  closures : state.closures = start.closures
  gone : ∀ address : Address, world.next ≤ address.index → state.store.get? address = none
  next : world.next ≤ after.next

variable {fuel : Nat} {start : State} {rest : List Control} {world : World} {scope : Scope}

/-- A command that allocates nothing restores what it does not touch. -/
theorem restores_of_agrees {after : World} {state : State}
    (agrees : after.Agrees setting.printer state) (next : after.next = world.next)
    (same : state = { start with
      control := rest
      store := state.store
      printer := state.printer
      steps := state.steps }) : setting.Restores start rest world after state where
  agrees := agrees
  control := by rw [same]
  values := by rw [same]
  environment := by rw [same]
  region := by rw [same]
  closures := by rw [same]
  gone := fun _ beyond => agrees.get?_of_next_le (next ▸ beyond)
  next := Nat.le_of_eq next.symm

/-- Only what a command restores matters of the state it started in. -/
theorem Restores.frame {other state : State} {after : World}
    (restores : setting.Restores start rest world after state)
    (values : start.values = other.values)
    (environment : start.environment = other.environment) (region : start.region = other.region)
    (closures : start.closures = other.closures) :
    setting.Restores other rest world after state where
  agrees := restores.agrees
  control := restores.control
  values := restores.values.trans values
  environment := restores.environment.trans environment
  region := restores.region.trans region
  closures := restores.closures.trans closures
  gone := restores.gone
  next := restores.next

theorem Restores.trans {middle after : World} {between state : State} {restBetween : List Control}
    (left : setting.Restores start restBetween world middle between)
    (right : setting.Restores between rest middle after state)
    (grows : between.store.Grows state.store) :
    setting.Restores start rest world after state where
  agrees := right.agrees
  control := right.control
  values := right.values.trans left.values
  environment := right.environment.trans left.environment
  region := right.region.trans left.region
  closures := right.closures.trans left.closures
  gone := by
    intro address beyond
    by_cases known : address.index < middle.next
    · have dead := left.gone address beyond
      cases held : state.store.get? address with
      | none => rfl
      | some value =>
          have live := grows.live address (left.agrees.next ▸ known) (by simp [Store.isLive, held])
          simp [Store.isLive, dead] at live
    · exact right.gone address (Nat.le_of_not_lt known)
  next := Nat.le_trans left.next right.next

/-- Whether all commands laid out run as they are evaluated with so much fuel. -/
def RunsCommands (setting : Setting) (fuel : Nat) : Prop :=
  ∀ {scope : Scope} {current : Command} {id : NodeId} {start : State} {rest : List Control}
    {world : World}, setting.draft.LaysCommand current id →
    setting.draft.AgreesOn start.closures scope start.environment →
    world.Agrees setting.printer start → start.control = .node id :: rest →
    setting.Follows fuel start (fun _ => setting.Restores start rest world)
      (Evaluation.command fuel scope current world)

theorem follows_commands (runs : setting.RunsCommands fuel) {body : List Command}
    {ids : List NodeId} (laid : List.Forall₂ setting.draft.LaysCommand body ids)
    (same : setting.draft.AgreesOn start.closures scope start.environment)
    (agrees : world.Agrees setting.printer start)
    (scheduled : start.control = ids.map .node ++ rest) :
    setting.Follows fuel start (fun _ => setting.Restores start rest world)
      (body.forM (Evaluation.command fuel scope) world) := by
  induction laid generalizing start world with
  | nil =>
      refine ⟨start, .refl, restores_of_agrees agrees rfl ?_⟩
      rw [← show start.control = rest from scheduled]
  | @cons current id body ids head _ induction =>
      show setting.Follows fuel start _
        ((Evaluation.command fuel scope current >>= fun _ =>
          body.forM (Evaluation.command fuel scope)) world)
      refine .bind (runs head same agrees scheduled) ?_
      intro _ middle between first
      have sameBetween : setting.draft.AgreesOn between.closures scope between.environment := by
        rw [first.closures, first.environment]
        exact same
      apply (induction sameBetween first.agrees first.control).reaching.finish
      intro _ after state finished
      rcases finished with ⟨reaches, second⟩
      exact ⟨state, .refl, first.trans second (Machine.Reaches.grows reaches)⟩

/-! ## Blocks -/

/-- A block whose declarations are visible and whose commands are about to run. -/
structure Opened (setting : Setting) (start : State) (rest : List Control) (scope : Scope)
    (world : World) (commanded : List NodeId) (declared : List (String × Value)) (middle : World)
    (state : State) : Prop where
  agrees : middle.Agrees setting.printer state
  control : state.control = commanded.map .node ++ (.op .blockCommands :: rest)
  values : state.values = .mark start.closures.mark :: .region start.region ::
    .environment start.environment :: start.values
  same : setting.draft.AgreesOn state.closures (declared.reverse ++ scope) state.environment
  grows : start.closures.Grows state.closures
  region : ∀ address, address ∈ state.region.addresses ↔
    world.next ≤ address.index ∧ address.index < middle.next
  next : world.next ≤ middle.next

/-- The state after a block was entered. -/
def entered (start : State) (rest : List Control) (declarations commands : NodeId) : State :=
  { start with
    control := .node declarations :: (.op .blockDeclarations :: .node commands ::
      .op .blockCommands :: rest)
    values := .declarations .empty :: .mark start.closures.mark :: .region start.region ::
      .environment start.environment :: start.values
    region := .empty
    steps := start.steps + 1 }

theorem follows_opening {parts : List Declaration} {declared commanded : List NodeId}
    {declarations commands : NodeId} (partsLaid : setting.draft.LaysDeclarations parts declared)
    (declarationsFlat : setting.image.code.Flattens declarations declared)
    (commandsFlat : setting.image.code.Flattens commands commanded)
    (same : setting.draft.AgreesOn start.closures scope start.environment)
    (agrees : world.Agrees setting.printer start) :
    setting.Follows fuel (entered start rest declarations commands)
      (setting.Opened start rest scope world commanded)
      (Evaluation.declarations scope parts world) := by
  have control : (entered start rest declarations commands).control = .node declarations ::
    (.op .blockDeclarations :: .node commands :: .op .blockCommands :: rest) := rfl
  rcases reaches_flattens declarationsFlat control with ⟨steps, reached⟩
  let flattened : State := { entered start rest declarations commands with
    control := declared.map .node ++ (.op .blockDeclarations :: .node commands ::
      .op .blockCommands :: rest)
    steps := steps }
  have sameFlattened : setting.draft.AgreesOn flattened.closures scope flattened.environment := same
  refine .after_reaches reached ((follows_declarations partsLaid.forall₂ sameFlattened
    (agrees.frame rfl rfl) rfl rfl).finish ?_)
  intro values middle between declares
  rcases declares.values with ⟨bindings, binds, taken⟩
  let visible : State := { between with
    control := .node commands :: .op .blockCommands :: rest
    values := .mark start.closures.mark :: .region start.region ::
      .environment start.environment :: start.values
    environment := between.environment.extend (Environment.empty.bindAll bindings)
    steps := between.steps + 1 }
  have declared : setting.Reaches between visible :=
    reaches_of_rule declares.control (.blockDeclarations taken)
  have visibleControl : visible.control = .node commands :: (.op .blockCommands :: rest) := rfl
  rcases reaches_flattens commandsFlat visibleControl with ⟨stepsAfter, reachedCommands⟩
  refine ⟨_, Relation.ReflTransGen.trans declared reachedCommands, ?_⟩
  exact {
    agrees := declares.agrees.frame rfl rfl
    control := rfl
    values := rfl
    same := by
      have sameBetween : setting.draft.AgreesOn between.closures scope between.environment :=
        declares.environment ▸ same.grow declares.grows
      exact sameBetween.extend binds
    grows := declares.grows
    region := by
      intro address
      refine (declares.region address).trans (or_iff_right ?_)
      exact List.not_mem_nil
    next := declares.next }

/-- Closing a block removes the cells allocated since it was opened. -/
theorem Opened.close {commanded : List NodeId} {declared : List (String × Value)}
    {middle after : World} {between state : State}
    (opened : setting.Opened start rest scope world commanded declared middle between)
    (restores : setting.Restores between (.op .blockCommands :: rest) middle after state) :
    ∃ closed, setting.Reaches state closed ∧
      setting.Restores start rest world (after.removeFrom world.next) closed := by
  have taken := restores.values.trans opened.values
  -- The region holds the cells of the declarations; those of the commands are gone already.
  have cells (address : Address) :
      (state.region.release state.store).get? address =
        if address.index < world.next then after.cells address else none := by
    rw [Region.get?_release, restores.region, ← restores.agrees.cells]
    have inside := opened.region address
    have ordered := opened.next
    by_cases outer : address.index < world.next
    · have kept : address ∉ between.region.addresses := fun member => by
        have bounds := inside.mp member
        omega
      rw [if_neg kept, if_pos outer]
    · rw [if_neg outer]
      by_cases member : address ∈ between.region.addresses
      · rw [if_pos member]
      · rw [if_neg member]
        apply restores.gone
        have beyond : ¬(world.next ≤ address.index ∧ address.index < middle.next) :=
          fun bounds => member (inside.mpr bounds)
        omega
  refine ⟨_, reaches_of_rule restores.control (.blockCommands taken), ?_⟩
  exact {
    agrees := {
      cells := cells
      next := (Store.size_release _ _).trans restores.agrees.next
      printer := restores.agrees.printer }
    control := rfl
    values := rfl
    environment := rfl
    region := rfl
    closures := by
      show state.closures.truncate start.closures.mark = start.closures
      rw [restores.closures, opened.grows.truncate_mark]
    gone := by
      intro address beyond
      exact (cells address).trans (if_neg (Nat.not_lt_of_le beyond))
    next := Nat.le_trans opened.next restores.next }

theorem follows_block (runs : setting.RunsCommands fuel) {tree : Block} {id : NodeId}
    (laid : setting.draft.LaysBlock tree id)
    (same : setting.draft.AgreesOn start.closures scope start.environment)
    (agrees : world.Agrees setting.printer start) (scheduled : start.control = .node id :: rest) :
    setting.Follows (fuel + 1) start (fun _ => setting.Restores start rest world)
      (Evaluation.block (Evaluation.command fuel) scope tree world) := by
  cases laid with
  | @mk parts body declared commanded declarations commands _ partsLaid declarationsFlat bodyLaid
      commandsFlat fetched =>
      show setting.Follows (fuel + 1) start _
        ((Evaluation.declarations scope parts >>= fun declared =>
          body.forM (Evaluation.command fuel (declared.reverse ++ scope)) >>= fun _ =>
          Evaluation.change (World.removeFrom world.next)) world)
      refine .after_step (advances_of_rule scheduled (.block fetched)) ?_
      refine .bind (follows_opening partsLaid declarationsFlat commandsFlat same agrees) ?_
      intro values middle between opened
      refine .bind (follows_commands runs bodyLaid.forall₂ opened.same opened.agrees
        opened.control) ?_
      intro _ after state restores
      exact opened.close restores

/-! ## Calls -/

/-- The actuals of a call leave their values on the value stack, the first one's on
top. -/
theorem follows_actuals {exprs : List Expr} {ids : List NodeId}
    (laid : List.Forall₂ setting.draft.LaysExpr exprs ids)
    (same : setting.draft.AgreesOn start.closures scope start.environment)
    (agrees : world.Agrees setting.printer start)
    (scheduled : start.control = ids.reverse.map .node ++ rest) :
    setting.Follows fuel start
      (fun values after state => world = after ∧ values.length = exprs.length ∧
        ∃ bounds steps, List.Forall₂ (fun value bound =>
          setting.draft.Agrees start.closures (some value) (some bound)) values bounds ∧
        state = { start with
          control := rest
          values := bounds.map .bindable ++ start.values
          steps := steps })
      (Evaluation.actuals scope exprs world) := by
  induction laid generalizing rest with
  | nil =>
      have control : start.control = rest := scheduled
      subst control
      exact ⟨start, .refl, rfl, rfl, [], start.steps, .nil, rfl⟩
  | @cons expr id exprs ids head _ induction =>
      have control : start.control = ids.reverse.map .node ++ (.node id :: rest) := by
        simpa using scheduled
      refine .bind (induction control) ?_
      intro values _ _ leaves
      rcases leaves with ⟨rfl, length, bounds, steps, agreed, rfl⟩
      refine .bind (follows_expression head same (agrees.frame rfl rfl) rfl) ?_
      intro value _ _ leaves
      rcases leaves with ⟨rfl, bound, steps, agreedFirst, rfl⟩
      exact ⟨_, .refl, rfl, congrArg (· + 1) length, bound :: bounds, _,
        .cons agreedFirst agreed, rfl⟩

theorem binds_zip {table : ClosureTable} {formals : List String} {names : List Name}
    {values : List Value} {bounds : List Bindable}
    (named : List.Forall₂ setting.draft.Names formals names)
    (agreed : List.Forall₂ (fun value bound =>
      setting.draft.Agrees table (some value) (some bound)) values bounds) :
    List.Forall₂ (setting.draft.Binds table) (formals.zip values) (names.zip bounds) := by
  induction named generalizing values bounds with
  | nil => exact .nil
  | cons head _ induction =>
      cases agreed with
      | nil => exact .nil
      | cons agreedHead agreedRest => exact .cons ⟨head, agreedHead⟩ (induction agreedRest)

/-- The home environment of a closure agrees with what a callee sees but for its
formals. -/
theorem exists_homeEnvironment {table : ClosureTable} {closure : Closure} {captured : Scope}
    {group : List Function} {id : Option GroupId}
    (same : setting.draft.AgreesOn table captured closure.captured)
    (laid : setting.draft.LaysGroup table closure.captured group id) :
    ∃ home, table.homeEnvironment? closure id = some home ∧
      setting.draft.AgreesOn table
        ((group.map fun member => (member.name, member.toValue captured group)).reverse ++ captured)
        home := by
  cases laid with
  | alone => exact ⟨closure.captured, rfl, same⟩
  | @group _ id members listed laid =>
      refine ⟨_, ?_, same.extend (binds_group same listed laid)⟩
      simp only [ClosureTable.homeEnvironment?, ClosureTable.groupEnvironment?, listed,
        Option.map_some, Environment.ofList]

section

variable {callee : Name} {reference : ClosureRef} {closure : Closure} {formals : List String}
  {body : Block} {captured : Scope} {group : List Function} {values : List Value}
  {bounds : List Bindable} {below : ValueStack} {count : Nat}

/-- The state after a callee was entered. -/
def called (start : State) (rest : List Control) (below : ValueStack) (body : NodeId)
    (environment : Environment) : State :=
  { start with
    control := .node body :: (.op .blockCommands :: rest)
    values := .mark start.closures.mark :: .region start.region ::
      .environment start.environment :: below
    region := .empty
    environment := environment
    steps := start.steps + 1 }

/-- A call whose callee is found and has as many formals as there are actuals enters the
callee's body, in an environment that agrees with the callee's scope. -/
theorem reaches_callee (scheduled : start.control = .op (.call callee count) :: rest)
    (bound : start.environment.lookup callee = some (.closure reference))
    (found : start.closures.closure? reference.closure = some closure)
    (laid : setting.draft.LaysClosure formals body closure)
    (same : setting.draft.AgreesOn start.closures captured closure.captured)
    (groupLaid : setting.draft.LaysGroup start.closures closure.captured group reference.group)
    (agreed : List.Forall₂ (fun value bound =>
      setting.draft.Agrees start.closures (some value) (some bound)) values bounds)
    (taken : start.values = bounds.map .bindable ++ below) (arity : formals.length = count)
    (supplied : values.length = count) :
    ∃ environment, setting.Reaches start (called start rest below closure.body environment) ∧
      setting.draft.AgreesOn start.closures
        (Evaluation.calleeScope formals captured group values) environment := by
  rcases exists_homeEnvironment same groupLaid with ⟨home, entered, sameHome⟩
  have names : (setting.image.code.formals closure.formals).length = formals.length :=
    laid.formals.length_eq.symm
  have matched : bounds.length = (setting.image.code.formals closure.formals).length := by
    rw [← agreed.length_eq, supplied, names, arity]
  refine ⟨_, reaches_of_rule scheduled ?_, sameHome.bindAll (binds_zip laid.formals agreed)⟩
  exact .call bound found (names.trans arity) matched taken entered

/-- What a callee's body restores is restored, but for the actuals, when the call is over. -/
theorem Restores.leave {body : NodeId} {environment : Environment} {after : World} {state : State}
    (restores : setting.Restores (called start rest below body environment)
      (.op .blockCommands :: rest) world after state) :
    ∃ left, setting.Reaches state left ∧
      setting.Restores { start with values := below } rest world after left := by
  refine ⟨_, reaches_of_rule restores.control (.blockCommands restores.values), ?_⟩
  have released : state.region.release state.store = state.store := by
    rw [restores.region]
    rfl
  exact {
    agrees := restores.agrees.frame released rfl
    control := rfl
    values := rfl
    environment := rfl
    region := rfl
    closures := by
      show state.closures.truncate start.closures.mark = start.closures
      rw [restores.closures]
      exact ClosureTable.truncate_mark _
    gone := by
      intro address beyond
      show (state.region.release state.store).get? address = none
      rw [released]
      exact restores.gone address beyond
    next := restores.next }

/-- A call runs its callee's body as a block in the callee's scope. -/
theorem follows_callee (runs : setting.RunsCommands fuel)
    (agrees : world.Agrees setting.printer start)
    (scheduled : start.control = .op (.call callee count) :: rest)
    (bound : start.environment.lookup callee = some (.closure reference))
    (found : start.closures.closure? reference.closure = some closure)
    (laid : setting.draft.LaysClosure formals body closure)
    (same : setting.draft.AgreesOn start.closures captured closure.captured)
    (groupLaid : setting.draft.LaysGroup start.closures closure.captured group reference.group)
    (agreed : List.Forall₂ (fun value bound =>
      setting.draft.Agrees start.closures (some value) (some bound)) values bounds)
    (taken : start.values = bounds.map .bindable ++ below) (arity : formals.length = count)
    (supplied : values.length = count) :
    setting.Follows fuel start
      (fun _ => setting.Restores { start with values := below } rest world)
      (Evaluation.block (Evaluation.command fuel)
        (Evaluation.calleeScope formals captured group values) body world) := by
  rcases reaches_callee scheduled bound found laid same groupLaid agreed taken arity supplied with
    ⟨environment, reached, sameInside⟩
  have control : (called start rest below closure.body environment).control =
    .node closure.body :: (.op .blockCommands :: rest) := rfl
  have begun : world.Agrees setting.printer (called start rest below closure.body environment) :=
    agrees.frame rfl rfl
  refine .after_reaches reached ((follows_block runs laid.body sameInside begun
    control).of_succ.finish ?_)
  intro _ after state restores
  exact restores.leave

end

section

open BlockMachine.Action

variable {image : Image} {callee : Name} {count : Nat} {before : State}

theorem apply_call_of_unbound (bound : before.environment.lookup callee = none) :
    apply image (.call callee count) before =
      .error (.undefinedVariable (image.text callee)) before := by
  simp only [apply, applyCall, Bind.bind, EStateM.bind, lookup, bound]

theorem apply_call_of_storable {value : Storable}
    (bound : before.environment.lookup callee = some (.storable value)) :
    apply image (.call callee count) before =
      .error (.expectedFunctionIdentifier (image.text callee)) before := by
  simp only [apply, applyCall, Bind.bind, EStateM.bind, lookup, bound]
  rfl

theorem apply_call_of_arity {reference : ClosureRef} {closure : Closure} {fault : Fault}
    (bound : before.environment.lookup callee = some (.closure reference))
    (found : before.closures.closure? reference.closure = some closure)
    {after : State}
    (mismatch : requireArity (image.text callee) (image.code.formals closure.formals).length count
      before = .error fault after) :
    apply image (.call callee count) before = .error fault after := by
  simp only [apply, applyCall, Bind.bind, EStateM.bind, lookup, bound, closureAt, found, mismatch]

end

theorem mirrors_requireArity (callee : String) (expected got : Nat) {before : State}
    (agrees : world.Agrees setting.printer before) :
    Mirrors (fun _ after _ state => world = after ∧ before = state ∧ expected = got)
      (World.Agrees setting.printer) (Evaluation.requireArity callee expected got world)
      (Action.requireArity callee expected got before) := by
  simp only [Evaluation.requireArity, Action.requireArity]
  by_cases missing : got < expected
  · rw [if_pos missing, if_pos missing]
    exact .fault agrees
  · rw [if_neg missing, if_neg missing]
    by_cases excess : expected < got
    · rw [if_pos excess, if_pos excess]
      exact .fault agrees
    · rw [if_neg excess, if_neg excess]
      exact .ok ⟨rfl, rfl, by omega⟩

theorem follows_call (runs : setting.RunsCommands fuel) {text : String} {exprs : List Expr}
    {id : NodeId} (laid : setting.draft.LaysCommand (.call text exprs) id)
    (same : setting.draft.AgreesOn start.closures scope start.environment)
    (agrees : world.Agrees setting.printer start) (scheduled : start.control = .node id :: rest) :
    setting.Follows (fuel + 1) start (fun _ => setting.Restores start rest world)
      (Evaluation.call (Evaluation.command fuel) scope text exprs world) := by
  cases laid with
  | @call _ _ ids span name _ laid named listed fetched =>
      have listed : setting.image.code.actuals span = ids := listed
      refine .after_agenda scheduled fetched rfl (by simp) ?_
      rw [listed, List.append_assoc]
      refine .bind (follows_actuals laid same (agrees.frame rfl rfl) rfl) ?_
      intro values _ _ evaluated
      rcases evaluated with ⟨rfl, length, bounds, steps, agreed, rfl⟩
      let called : State := { start with
        control := .op (.call name ids.length) :: rest
        values := bounds.map .bindable ++ start.values
        steps := steps }
      show setting.Follows fuel called _ _
      have calling : called.control = .op (.call name ids.length) :: rest := rfl
      have calledAgrees : world.Agrees setting.printer called := agrees.frame rfl rfl
      have begun : world.Agrees setting.printer (Machine.begin called rest) := agrees.frame rfl rfl
      have callee : setting.draft.Agrees (Machine.begin called rest).closures (scope.lookup text)
        ((Machine.begin called rest).environment.lookup name) := same text name named
      have sameText : setting.image.text name = text := NameTable.text_of_find? named
      simp only [Evaluation.find]
      generalize scope.lookup text = value at callee
      generalize bound : (Machine.begin called rest).environment.lookup name = reference at callee
      cases callee with
      | unbound => exact sameText ▸ .of_fault calling (apply_call_of_unbound bound) begun
      | storable value => exact sameText ▸ .of_fault calling (apply_call_of_storable bound) begun
      | @function formals body captured group reference closure closureFound closureLaid
          sameCaptured groupLaid =>
          have arity : formals.length = (setting.image.code.formals closure.formals).length :=
            closureLaid.formals.length_eq
          have supplied : exprs.length = ids.length := laid.length_eq
          have checked := mirrors_requireArity text formals.length exprs.length begun
          show setting.Follows fuel called _
            ((Evaluation.requireArity text formals.length exprs.length >>= fun _ =>
              Evaluation.block (Evaluation.command fuel)
                (Evaluation.calleeScope formals captured group values) body) world)
          simp only [Bind.bind, EStateM.bind]
          generalize evaluated : Evaluation.requireArity text formals.length exprs.length world =
            result at checked
          generalize acted : Action.requireArity text formals.length exprs.length
            (Machine.begin called rest) = action at checked
          cases checked with
          | fault bad =>
              rw [← sameText, arity, supplied] at acted
              refine .of_fault calling ?_ bad
              exact apply_call_of_arity bound closureFound acted
          | ok good =>
              rcases good with ⟨rfl, _, equal⟩
              refine (follows_callee runs calledAgrees calling bound closureFound
                closureLaid sameCaptured groupLaid agreed rfl (equal.trans supplied)
                (length.trans supplied)).finish ?_
              intro _ after state restores
              exact ⟨state, .refl, restores.frame rfl rfl rfl rfl⟩

end Setting

end BlockMachine
