import BlockMachine.Machine.Apply
import BlockMachine.Machine.Enter
import BlockMachine.Machine.Options
import BlockMachine.Machine.Snapshot

namespace BlockMachine

/-! # Running a machine

A step takes the top entry off the control stack and carries it out. The machine
has halted when that stack is empty. After a failed step it can be used on, from
the state that the failure left behind. -/

structure Machine where
  image : Image
  options : Options
  state : State
deriving Inhabited

/-- How a step ended. -/
inductive Progress where
  | halted
  | advanced
  | failed (failure : Failure)
deriving Inhabited

/-- How a run ended that came to its end: the value on top of the value stack, if
it is one that a name could be bound to, and the number of steps made. -/
structure Outcome where
  result : Option Bindable
  steps : Nat
deriving Inhabited

/-- Carry out an entry of the control stack. -/
def Control.execute (image : Image) : Control → Action Unit
  | .node id => Action.enter image id
  | .op opcode => Action.apply image opcode

namespace Machine

/-- A machine about to enter its program. -/
def load (image : Image) (options : Options) (printer : Printer) : Machine :=
  ⟨image, options, .start image.program.root printer⟩

/-- A machine that may make any number of steps and prints on the console. -/
def plain (image : Image) : Machine :=
  load image .unbounded (.console "")

def isHalted (machine : Machine) : Bool :=
  machine.state.control.isEmpty

/-- The failure that a fault in `state` is reported as. -/
def failureOf (options : Options) (state : State) (fault : Fault) : Failure :=
  ⟨fault, some state.steps, if options.snapshotOnFault then some state.snapshot else none⟩

/-- Make one step. Nothing changes if the machine has halted or used up its
budget. -/
def step : Machine → Progress × Machine
  | ⟨image, options, state⟩ =>
    match state.control with
    | [] => (.halted, ⟨image, options, state⟩)
    | entry :: rest =>
      match options.exceeded? state.steps with
      | some limit =>
        (.failed (failureOf options state (.stepBudgetExceeded limit)), ⟨image, options, state⟩)
      | none =>
        match entry.execute image { state with control := rest, steps := state.steps + 1 } with
        | .ok () next => (.advanced, ⟨image, options, next⟩)
        | .error fault next => (.failed (failureOf options next fault), ⟨image, options, next⟩)

def outcome (machine : Machine) : Outcome where
  result := machine.state.values.head?.bind StackValue.bindable?
  steps := machine.state.steps

/-- Make steps until the machine halts or fails, but at most `fuel` of them. The
ending is missing if the fuel ran out first. -/
def runFor : (fuel : Nat) → Machine → Option (Except Failure Outcome) × Machine
  | 0, machine => (none, machine)
  | fuel + 1, machine =>
    match machine.step with
    | (.halted, machine) => (some (.ok machine.outcome), machine)
    | (.advanced, machine) => machine.runFor fuel
    | (.failed failure, machine) => (some (.error failure), machine)

/-- Make steps as `runFor` does and show `observe` the state after each one that
succeeds. -/
def observeSteps (observe : σ → Snapshot → σ) :
    (fuel : Nat) → Machine → σ → Option (Except Failure Outcome) × Machine × σ
  | 0, machine, seen => (none, machine, seen)
  | fuel + 1, machine, seen =>
    match machine.step with
    | (.halted, machine) => (some (.ok machine.outcome), machine, seen)
    | (.advanced, machine) =>
      let seen := observe seen machine.state.snapshot
      machine.observeSteps observe fuel seen
    | (.failed failure, machine) => (some (.error failure), machine, seen)

/-- A run that shows `observe` the first state, and then the state after each step
that succeeds. -/
def runObservedFor (fuel : Nat) (machine : Machine) (observe : σ → Snapshot → σ) (seen : σ) :
    Option (Except Failure Outcome) × Machine × σ :=
  machine.observeSteps observe fuel (observe seen machine.state.snapshot)

/-- Observing a run does not change it. -/
theorem runFor_eq_of_observeSteps (observe : σ → Snapshot → σ) (fuel : Nat) (machine : Machine)
    (seen : σ) :
    machine.runFor fuel =
      ((machine.observeSteps observe fuel seen).1, (machine.observeSteps observe fuel seen).2.1) := by
  induction fuel generalizing machine seen with
  | zero => rfl
  | succ fuel induction =>
    simp only [runFor, observeSteps]
    split
    · rfl
    · exact induction ..
    · rfl

end Machine

end BlockMachine
