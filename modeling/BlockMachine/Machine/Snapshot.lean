import BlockMachine.Machine.State

namespace BlockMachine

/-! # Snapshots

What an observer sees of a state. Stacks are listed from bottom to top, the live
cells by address and the environment by name. -/

structure Snapshot where
  steps : Nat
  control : List Control
  values : List StackValue
  store : List (Address × Storable)
  environment : List (Name × Bindable)
  region : List Address
deriving Inhabited

namespace Snapshot

/-- What the next step works on. -/
def nextControl? (snapshot : Snapshot) : Option Control :=
  snapshot.control.getLast?

/-- Whether nothing is left to do. -/
def isFinal (snapshot : Snapshot) : Bool :=
  snapshot.control.isEmpty

end Snapshot

def State.snapshot (state : State) : Snapshot where
  steps := state.steps
  control := state.control.reverse
  values := state.values.reverse
  store := state.store.live
  environment := state.environment.entries
  region := state.region.addresses

/-! # Failures -/

/-- A fault, and where it came up: after how many steps, and in which state, as
far as these are known. -/
structure Failure where
  fault : Fault
  step : Option Nat
  snapshot : Option Snapshot
deriving Inhabited

namespace Failure

/-- Failures are compared by their faults alone. -/
instance : BEq Failure := ⟨fun left right => left.fault == right.fault⟩

/-- A fault outside any run. -/
def ofFault (fault : Fault) : Failure := ⟨fault, none, none⟩

def atStep (failure : Failure) (step : Nat) : Failure :=
  { failure with step := some step }

/-- The message of the fault, and the step if it is known. -/
def text (failure : Failure) : String :=
  match failure.step with
  | some step => failure.fault.message ++ " (at step " ++ toString step ++ ")"
  | none => failure.fault.message

end Failure

end BlockMachine
