import BlockMachine.Proofs.Correctness.Agreement
import BlockMachine.Proofs.Machine.Endings
import BlockMachine.Proofs.Machine.Execution
import BlockMachine.Proofs.Memory.Liveness

namespace BlockMachine

/-! # Following an evaluation

A machine follows an evaluation if it comes to a state that has the evaluation's
result and world, fails with its fault, or, where the evaluation runs out of fuel,
makes as many steps as there was fuel. -/

/-- A machine that has no step budget, and what it had printed at its start. -/
structure Setting where
  image : Image
  options : Options
  printer : Printer
  unlimited : options.maxSteps = none

/-- Whether a state has the cells of a world, gives out the same address next, and
has printed its lines. -/
structure World.Agrees (printer : Printer) (world : World) (state : State) : Prop where
  cells : ∀ address, state.store.get? address = world.cells address
  next : state.store.cells.size = world.next
  printer : state.printer = world.lines.foldl (fun printer line => printer.println line) printer

namespace World.Agrees

variable {printer : Printer} {world : World} {state after : State}

/-- Only the store and the output of a state matter. -/
theorem frame (agrees : world.Agrees printer state) (store : after.store = state.store)
    (printed : after.printer = state.printer) : world.Agrees printer after :=
  ⟨store ▸ agrees.cells, store ▸ agrees.next, printed ▸ agrees.printer⟩

theorem allocate (agrees : world.Agrees printer state) (value : Storable)
    (store : after.store = (state.store.allocate value).2)
    (printed : after.printer = state.printer) : (world.allocate value).Agrees printer after where
  cells := by
    intro address
    rw [store, Store.get?_allocate, agrees.cells, Store.allocate, agrees.next]
    rfl
  next := by simp [store, Store.allocate, World.allocate, agrees.next]
  printer := printed ▸ agrees.printer

theorem println (agrees : world.Agrees printer state) (line : String)
    (store : after.store = state.store) (printed : after.printer = state.printer.println line) :
    (world.println line).Agrees printer after where
  cells := store ▸ agrees.cells
  next := store ▸ agrees.next
  printer := by rw [printed, agrees.printer, World.println, List.foldl_append]; rfl

theorem write (agrees : world.Agrees printer state) {address : Address} {value : Storable}
    {store : Store} (written : state.store.write address value = .ok store)
    (stored : after.store = store) (printed : after.printer = state.printer) :
    (world.write address value).Agrees printer after where
  cells := by
    intro other
    rw [stored, Store.get?_of_write written, agrees.cells]
    rfl
  next := by rw [stored, Store.size_of_write written, agrees.next]; rfl
  printer := printed ▸ agrees.printer

theorem get?_of_next_le (agrees : world.Agrees printer state) {address : Address}
    (beyond : world.next ≤ address.index) : state.store.get? address = none := by
  have outside : state.store.cells.size ≤ address.index := agrees.next ▸ beyond
  simp [Store.get?, Array.getElem?_eq_none outside]

end World.Agrees

namespace Setting

variable (setting : Setting)

def machine (state : State) : Machine :=
  ⟨setting.image, setting.options, state⟩

def draft : Draft :=
  setting.image.draft

def Reaches (before after : State) : Prop :=
  (setting.machine before).Reaches (setting.machine after)

/-- Whether the machine, from a state on, does what an evaluation did. `Done` says
what the final state is to be. -/
def Follows (fuel : Nat) (start : State) (Done : α → World → State → Prop) :
    EStateM.Result Stop World α → Prop
  | .ok value world => ∃ after, setting.Reaches start after ∧ Done value world after
  | .error (.fault fault) world =>
    ∃ last after, setting.Reaches start last ∧
      (setting.machine last).Fails fault (setting.machine after) ∧
      world.Agrees setting.printer after
  | .error .outOfFuel _ => ∃ last, setting.Reaches start last ∧ start.steps + fuel ≤ last.steps

variable {setting}

/-! ## Steps -/

theorem step_of_scheduled {state : State} {entry : Control} {rest : List Control}
    (scheduled : state.control = entry :: rest) :
    (setting.machine state).step =
      match entry.execute setting.image (Machine.begin state rest) with
      | .ok () next => (.advanced, setting.machine next)
      | .error fault next =>
        (.failed (Machine.failureOf setting.options next fault), setting.machine next) := by
  have unlimited : setting.options.exceeded? state.steps = none := by
    simp [Options.exceeded?, setting.unlimited]
  exact Machine.step_of_scheduled setting.image scheduled unlimited

theorem advances_of_rule {state next : State} {entry : Control} {rest : List Control}
    (scheduled : state.control = entry :: rest)
    (rule : Rule setting.image entry (Machine.begin state rest) next) :
    (setting.machine state).Advances (setting.machine next) := by
  rw [Machine.Advances, step_of_scheduled scheduled, rule.execute]

theorem reaches_of_rule {state next : State} {entry : Control} {rest : List Control}
    (scheduled : state.control = entry :: rest)
    (rule : Rule setting.image entry (Machine.begin state rest) next) :
    setting.Reaches state next :=
  .single (advances_of_rule scheduled rule)

theorem fails_of_execute {state after : State} {entry : Control} {rest : List Control}
    {fault : Fault} (scheduled : state.control = entry :: rest)
    (raised : entry.execute setting.image (Machine.begin state rest) = .error fault after) :
    (setting.machine state).Fails fault (setting.machine after) :=
  ⟨_, by rw [step_of_scheduled scheduled, raised], rfl⟩

/-! ## Composition -/

theorem steps_le_of_reaches {before after : State} (reaches : setting.Reaches before after) :
    before.steps ≤ after.steps :=
  Machine.Reaches.steps_le reaches

namespace Follows

variable {fuel : Nat} {start next : State} {Done : α → World → State → Prop}
  {result : EStateM.Result Stop World α}

/-- What is left to the machine when the evaluation is done. -/
theorem finish {Result : α → World → State → Prop}
    (follows : setting.Follows fuel start Done result)
    (finishes : ∀ value world state, Done value world state →
      ∃ after, setting.Reaches state after ∧ Result value world after) :
    setting.Follows fuel start Result result := by
  cases result with
  | ok value world =>
      rcases follows with ⟨state, reaches, done⟩
      rcases finishes value world state done with ⟨after, reachesAfter, finished⟩
      exact ⟨after, reaches.trans reachesAfter, finished⟩
  | error reason world => cases reason <;> exact follows

theorem of_fault {entry : Control} {rest : List Control} {fault : Fault} {world : World}
    {after : State} (scheduled : start.control = entry :: rest)
    (raised : entry.execute setting.image (Machine.begin start rest) = .error fault after)
    (agrees : world.Agrees setting.printer after) :
    setting.Follows fuel start Done (.error (.fault fault) world) :=
  ⟨start, after, .refl, fails_of_execute scheduled raised, agrees⟩

theorem reaching (follows : setting.Follows fuel start Done result) :
    setting.Follows fuel start
      (fun value world after => setting.Reaches start after ∧ Done value world after) result := by
  cases result with
  | ok value world =>
      rcases follows with ⟨after, reaches, done⟩
      exact ⟨after, reaches, reaches, done⟩
  | error reason world => cases reason <;> exact follows

/-- What is done after some steps is done from the start. -/
theorem after_reaches (reaches : setting.Reaches start next)
    (follows : setting.Follows fuel next Done result) : setting.Follows fuel start Done result := by
  cases result with
  | ok value world =>
      rcases follows with ⟨after, reachesAfter, done⟩
      exact ⟨after, reaches.trans reachesAfter, done⟩
  | error reason world =>
      cases reason with
      | fault fault =>
          rcases follows with ⟨last, after, reachesLast, failed⟩
          exact ⟨last, after, reaches.trans reachesLast, failed⟩
      | outOfFuel =>
          rcases follows with ⟨last, reachesLast, enough⟩
          have started := steps_le_of_reaches reaches
          exact ⟨last, reaches.trans reachesLast, by omega⟩

/-- A step accounts for a unit of fuel. -/
theorem after_step (advances : (setting.machine start).Advances (setting.machine next))
    (follows : setting.Follows fuel next Done result) :
    setting.Follows (fuel + 1) start Done result := by
  cases result with
  | ok value world => exact after_reaches (.single advances) follows
  | error reason world =>
      cases reason with
      | fault fault => exact after_reaches (.single advances) follows
      | outOfFuel =>
          rcases follows with ⟨last, reachesLast, enough⟩
          have counted : next.steps = start.steps + 1 := advances.steps_eq
          exact ⟨last, .head advances reachesLast, by omega⟩

theorem of_succ (follows : setting.Follows (fuel + 1) start Done result) :
    setting.Follows fuel start Done result := by
  cases result with
  | ok value world => exact follows
  | error reason world =>
      cases reason with
      | fault fault => exact follows
      | outOfFuel =>
          rcases follows with ⟨last, reachesLast, enough⟩
          exact ⟨last, reachesLast, by omega⟩

/-- Entering a node that parks and schedules is a step. -/
theorem after_agenda {site : NodeId} {node : Node} {parked : List StackValue}
    {entries rest : List Control} (scheduled : start.control = .node site :: rest)
    (fetched : setting.image.code.node? site = some node)
    (agenda : node.agenda? setting.image.code site = some (parked, entries))
    (functions : ∀ span, node = .recBind span →
      Node.AreFunctions setting.image.code (setting.image.code.group span))
    (follows : setting.Follows fuel { start with
      control := entries ++ rest
      values := parked ++ start.values
      steps := start.steps + 1 } Done result) :
    setting.Follows (fuel + 1) start Done result :=
  after_step (advances_of_rule scheduled (.agenda fetched agenda functions)) follows

theorem bind {action : Evaluation α} {continuation : α → Evaluation β} {world : World}
    {Result : β → World → State → Prop}
    (first : setting.Follows fuel start Done (action world))
    (second : ∀ value middle state, Done value middle state →
      setting.Follows fuel state Result (continuation value middle)) :
    setting.Follows fuel start Result ((action >>= continuation) world) := by
  simp only [Bind.bind, EStateM.bind]
  cases evaluated : action world with
  | ok value middle =>
      rw [evaluated] at first
      rcases first with ⟨state, reaches, done⟩
      exact after_reaches reaches (second value middle state done)
  | error reason middle =>
      rw [evaluated] at first
      cases reason <;> exact first

end Follows

end Setting

end BlockMachine
