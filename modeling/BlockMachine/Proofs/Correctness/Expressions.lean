import BlockMachine.Proofs.Correctness.Following
import BlockMachine.Proofs.Expressions.Timing

namespace BlockMachine

/-! # Expressions

An expression has the same value in a scope and a world as in an environment and a store
that agree with them. The machine runs it as it is evaluated in these; so it leaves the
value on the value stack and nothing else behind. -/

/-- Whether an evaluation and an action of the machine both succeed or both come
up with the same fault. -/
inductive Mirrors (Good : α → World → β → State → Prop) (Bad : World → State → Prop) :
    EStateM.Result Stop World α → EStateM.Result Fault State β → Prop where
  | ok {value : α} {world : World} {result : β} {state : State}
      (good : Good value world result state) :
      Mirrors Good Bad (.ok value world) (.ok result state)
  | fault {fault : Fault} {world : World} {state : State} (bad : Bad world state) :
      Mirrors Good Bad (.error (.fault fault) world) (.error fault state)

namespace Mirrors

variable {Good : α → World → β → State → Prop} {Bad : World → State → Prop}

theorem mono {Weaker : α → World → β → State → Prop} {evaluated : EStateM.Result Stop World α}
    {acted : EStateM.Result Fault State β} (mirrors : Mirrors Good Bad evaluated acted)
    (implies : ∀ value world result state, Good value world result state →
      Weaker value world result state) : Mirrors Weaker Bad evaluated acted := by
  cases mirrors with
  | ok good => exact .ok (implies _ _ _ _ good)
  | fault bad => exact .fault bad

theorem bind {Result : α' → World → β' → State → Prop} {evaluation : Evaluation α}
    {action : Action β} {next : α → Evaluation α'} {continuation : β → Action β'} {world : World}
    {state : State} (first : Mirrors Good Bad (evaluation world) (action state))
    (second : ∀ value middle result between, Good value middle result between →
      Mirrors Result Bad (next value middle) (continuation result between)) :
    Mirrors Result Bad ((evaluation >>= next) world) ((action >>= continuation) state) := by
  simp only [Bind.bind, EStateM.bind]
  generalize evaluation world = evaluated at first
  generalize action state = acted at first
  cases first with
  | ok good => exact second _ _ _ _ good
  | fault bad => exact .fault bad

end Mirrors

/-- A step that mirrors an evaluation follows it. -/
theorem Setting.Follows.of_mirrors {setting : Setting} {fuel : Nat} {start : State}
    {entry : Control} {rest : List Control} {Done : α → World → State → Prop}
    {result : EStateM.Result Stop World α} (scheduled : start.control = entry :: rest)
    (mirrors : Mirrors (fun value world _ after => Done value world after)
      (World.Agrees setting.printer) result
      (entry.execute setting.image (Machine.begin start rest))) :
    setting.Follows fuel start Done result := by
  generalize acted : entry.execute setting.image (Machine.begin start rest) = action at mirrors
  cases mirrors with
  | @ok value world _ after done =>
      refine ⟨after, .single ?_, done⟩
      rw [Machine.Advances, step_of_scheduled scheduled, acted]
  | @fault fault world after agrees =>
      exact ⟨start, after, .refl, fails_of_execute scheduled acted, agrees⟩

/-! ## Evaluations that leave the world as it is -/

/-- Whether an evaluation comes, without a change of the world, to what a computation
without a world comes to, or both come up with the same fault. -/
inductive Evaluation.Matches (Good : α → β → Prop) (world : World) :
    EStateM.Result Stop World α → Except Fault β → Prop where
  | ok {value : α} {result : β} (good : Good value result) :
      Matches Good world (.ok value world) (.ok result)
  | fault (fault : Fault) : Matches Good world (.error (.fault fault) world) (.error fault)

namespace Evaluation.Matches

variable {Good : α → β → Prop} {world : World}

theorem bind {Result : α' → β' → Prop} {evaluation : Evaluation α} {found : Except Fault β}
    {next : α → Evaluation α'} {continuation : β → Except Fault β'}
    (first : Matches Good world (evaluation world) found)
    (second : ∀ value result, Good value result →
      Matches Result world (next value world) (continuation result)) :
    Matches Result world ((evaluation >>= next) world) (found >>= continuation) := by
  simp only [Bind.bind, EStateM.bind, Except.bind]
  generalize evaluation world = evaluated at first
  cases first with
  | ok good => exact second _ _ good
  | fault fault => exact .fault fault

theorem ofExcept (found : Except Fault α) :
    Matches Eq world (Evaluation.ofExcept found world) found := by
  cases found with
  | ok value => exact .ok rfl
  | error fault => exact .fault fault

end Evaluation.Matches

/-- An action that accords with what an evaluation matches mirrors the evaluation. -/
theorem Mirrors.of_matches {Good : α → β → Prop} {After : β → γ → State → Prop} {world : World}
    {Bad : World → State → Prop} {evaluated : EStateM.Result Stop World α}
    {found : Except Fault β} {acted : EStateM.Result Fault State γ}
    (same : Evaluation.Matches Good world evaluated found) (accords : Accords After found acted)
    (fails : ∀ fault state, acted = .error fault state → Bad world state) :
    Mirrors (fun value after result state =>
      world = after ∧ ∃ middle, Good value middle ∧ After middle result state)
      Bad evaluated acted := by
  cases same with
  | ok good =>
      cases accords with
      | ok after => exact .ok ⟨rfl, _, good, after⟩
  | fault fault =>
      cases accords with
      | error _ state => exact .fault (fails fault state rfl)

/-! ## Values in a scope and in an environment -/

/-- Whether an expression can read the same in an environment and a store as in a scope
and a world. -/
structure Reading.Shows (draft : Draft) (table : ClosureTable) (scope : Scope) (world : World)
    (reading : Reading) : Prop where
  names : reading.names = draft.names
  scope : draft.AgreesOn table scope reading.environment
  cells : ∀ address, reading.store.get? address = world.cells address

theorem World.Agrees.shows {printer : Printer} {world : World} {image : Image} {state : State}
    {table : ClosureTable} {scope : Scope} (agrees : world.Agrees printer state)
    (same : image.draft.AgreesOn table scope state.environment) :
    (Action.reading image state).Shows image.draft table scope world :=
  ⟨rfl, same, agrees.cells⟩

/-- An operator cannot tell values that agree. -/
theorem Draft.Agrees.operand_eq {draft : Draft} {table : ClosureTable} {value : Value}
    {bound : Bindable} (agrees : draft.Agrees table (some value) (some bound)) :
    value.operand = bound.operand := by
  cases agrees <;> rfl

namespace Reading.Shows

variable {draft : Draft} {table : ClosureTable} {scope : Scope} {world : World} {reading : Reading}
  {text : String} {name : Name} {expr : Expr} {id : NodeId}

theorem find (shows : reading.Shows draft table scope world) (named : draft.Names text name) :
    Evaluation.Matches (fun value bound => draft.Agrees table (some value) (some bound)) world
      (Evaluation.find scope text world) (reading.find text) := by
  have agreed := shows.scope text name named
  have known : reading.names.find? text = some name := shows.names ▸ named
  simp only [Evaluation.find, Reading.find, known, Option.bind_some]
  generalize scope.lookup text = value at agreed
  generalize reading.environment.lookup name = bound at agreed
  cases agreed with
  | unbound => exact .fault _
  | storable value => exact .ok (.storable value)
  | function found laid scope groupLaid => exact .ok (.function found laid scope groupLaid)

theorem locate (shows : reading.Shows draft table scope world) (named : draft.Names text name) :
    Evaluation.Matches Eq world (Evaluation.locate scope text world) (reading.locate text) := by
  apply (shows.find named).bind
  intro value bound agreed
  cases agreed with
  | storable value =>
      cases value with
      | location address => exact .ok rfl
      | _ => exact .fault _
  | function => exact .fault _

theorem read (shows : reading.Shows draft table scope world) (address : Address) :
    Evaluation.Matches Eq world (Evaluation.read address world) (reading.store.read address) := by
  simp only [Evaluation.read, Store.read, shows.cells]
  cases world.cells address with
  | none => exact .fault _
  | some value => exact .ok rfl

/-- An expression has the same value in a scope as in an environment that agrees with it. -/
theorem expression (shows : reading.Shows draft table scope world)
    (laid : draft.LaysExpr expr id) :
    Evaluation.Matches (fun value bound => draft.Agrees table (some value) (some bound)) world
      (Evaluation.expression scope expr world) (expr.evaluate reading) := by
  induction laid with
  | ident named =>
      apply (shows.find named).bind
      intro value bound agreed
      cases agreed with
      | storable value =>
          cases value with
          | location address =>
              apply (shows.read address).bind
              rintro held _ rfl
              exact .ok (.storable held)
          | _ => exact .ok (.storable _)
      | function found laid scope groupLaid => exact .ok (.function found laid scope groupLaid)
  | num | bool => exact .ok (.storable _)
  | binary known _ _ _ inductionLhs inductionRhs =>
      apply inductionRhs.bind
      intro right rightBound rightAgreed
      apply inductionLhs.bind
      intro left leftBound leftAgreed
      simp only [known, leftAgreed.operand_eq, rightAgreed.operand_eq]
      apply (Evaluation.Matches.ofExcept _).bind
      rintro result _ rfl
      exact .ok (.storable result)
  | not _ _ induction =>
      apply induction.bind
      intro value bound agreed
      simp only [agreed.operand_eq]
      apply (Evaluation.Matches.ofExcept _).bind
      rintro result _ rfl
      exact .ok (.storable result)
  | addressOf named =>
      apply (shows.locate named).bind
      rintro address _ rfl
      exact .ok (.storable _)
  | valueOf named =>
      apply (shows.locate named).bind
      rintro cell _ rfl
      apply (shows.read cell).bind
      rintro content _ rfl
      cases content with
      | location target =>
          apply (shows.read target).bind
          rintro held _ rfl
          exact .ok (.storable held)
      | _ => exact .fault _

end Reading.Shows

/-! ## Parts of commands and declarations -/

section

open BlockMachine.Action ValueStack

variable {draft : Draft} {table : ClosureTable} {printer : Printer} {world : World} {before : State}
  {value : Value} {bound : Bindable} {rest : ValueStack} {image : Image} {scope : Scope}
  {text : String} {name : Name}

/-- Taking the top of the value stack as a value of some kind. -/
def TakesTop (before : State) (world : World) (rest : ValueStack) (value : α) (after : World)
    (popped : α) (state : State) : Prop :=
  value = popped ∧ world = after ∧ state = { before with values := rest }

theorem mirrors_storable (agrees : world.Agrees printer before)
    (same : draft.Agrees table (some value) (some bound))
    (taken : before.values = .bindable bound :: rest) :
    Mirrors (TakesTop before world rest) (World.Agrees printer)
      (Evaluation.storable value world) (onValues popStorable before) := by
  have popped : world.Agrees printer { before with values := rest } := agrees.frame rfl rfl
  simp only [onValues, popStorable, popAs, taken]
  cases same with
  | storable value => exact .ok ⟨rfl, rfl, rfl⟩
  | function => exact .fault popped

/-- Looking a name up without changing anything. -/
def Finds (draft : Draft) (table : ClosureTable) (before : State) (world : World) (value : Value)
    (after : World) (bound : Bindable) (state : State) : Prop :=
  world = after ∧ state = before ∧ draft.Agrees table (some value) (some bound)

theorem mirrors_find (agrees : world.Agrees printer before)
    (same : image.draft.AgreesOn table scope before.environment)
    (named : image.draft.Names text name) :
    Mirrors (Finds image.draft table before world) (World.Agrees printer)
      (Evaluation.find scope text world) (lookup image name before) := by
  have found := (agrees.shows same).find named
  refine (Mirrors.of_matches found (accords_lookup named) ?_).mono ?_
  · intro fault state raised
    have popped := ((Pops.lookup name).fails before fault state raised).2
    have memory : before.SameMemory state := .of_popped popped
    exact agrees.frame memory.store memory.printer
  · rintro value _ bound state ⟨sameWorld, _, agreed, rfl, unchanged⟩
    exact ⟨sameWorld, unchanged, agreed⟩

end

/-! ## Runs -/

namespace Setting

variable {setting : Setting}

/-- What an expression leaves: its value on top of the value stack. -/
def Leaves (setting : Setting) (start : State) (rest : List Control) (world : World)
    (value : Value) (after : World) (state : State) : Prop :=
  world = after ∧ ∃ bound steps,
    setting.draft.Agrees start.closures (some value) (some bound) ∧
    state = { start with
      control := rest
      values := .bindable bound :: start.values
      steps := steps }

theorem follows_expression {scope : Scope} {expr : Expr} {id : NodeId}
    (laid : setting.draft.LaysExpr expr id) {fuel : Nat} {start : State} {rest : List Control}
    {world : World} (same : setting.draft.AgreesOn start.closures scope start.environment)
    (agrees : world.Agrees setting.printer start)
    (scheduled : start.control = .node id :: rest) :
    setting.Follows fuel start (setting.Leaves start rest world)
      (Evaluation.expression scope expr world) := by
  have evaluated := (agrees.shows same).expression laid
  cases found : expr.evaluate (Action.reading setting.image start) with
  | ok bound =>
      have settles := settles_expression laid scheduled
      rw [found] at evaluated settles
      generalize Evaluation.expression scope expr world = result at evaluated
      cases evaluated with
      | ok agreed =>
          exact ⟨valued start rest expr.cost bound, Machine.reaches_of_reachesOver settles, rfl,
            bound, _, agreed, rfl⟩
  | error fault =>
      obtain ⟨last, _, final, reaches, fails, memory, _⟩ := fails_within laid scheduled found
      rw [found] at evaluated
      generalize Evaluation.expression scope expr world = result at evaluated
      cases evaluated with
      | fault =>
          exact ⟨last, final, reaches, fails, agrees.frame memory.store memory.printer⟩

end Setting

end BlockMachine
