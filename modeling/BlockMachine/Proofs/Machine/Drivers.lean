import BlockMachine.Proofs.Machine.Endings
import BlockMachine.Proofs.Machine.Faults

namespace BlockMachine

/-! # Drivers

A machine can be driven by calling for one step after another, by a run, or by a run in
front of an observer. All three make the same steps and come to the same end. -/

namespace Machine

variable {machine last final : Machine} {visited : List Machine}

/-! ## Calling for one step after another -/

/-- Calls for a step that succeed, with the machine after each of them. -/
inductive Calls : Machine → List Machine → Machine → Prop where
  | none {machine : Machine} : Calls machine [] machine
  | next {machine after last : Machine} {visited : List Machine}
      (advances : machine.Advances after) (calls : Calls after visited last) :
      Calls machine (after :: visited) last

/-- The call that ends them: the machine has halted, or the step fails. -/
inductive Stops (machine : Machine) : Except Failure Outcome → Machine → Prop where
  | halted {final : Machine} (halted : machine.step = (.halted, final)) :
      Stops machine (.ok final.outcome) final
  | failed {failure : Failure} {final : Machine} (failed : machine.step = (.failed failure, final)) :
      Stops machine (.error failure) final

/-- Calling for one step after another until the machine has halted or a step fails. -/
def Drives (machine : Machine) (visited : List Machine) (ending : Except Failure Outcome)
    (final : Machine) : Prop :=
  ∃ last, machine.Calls visited last ∧ last.Stops ending final

/-- What can be seen of a machine and then of those that its calls lead to. -/
def trace (machine : Machine) (visited : List Machine) : List Snapshot :=
  (machine :: visited).map fun machine => machine.state.snapshot

variable {ending : Except Failure Outcome}

/-- Some calls succeed; then there have been as many as asked for, or the next one ends
them. -/
theorem exists_calls (machine : Machine) (made : Nat) :
    ∃ visited last, machine.Calls visited last ∧
      (visited.length = made ∨
        visited.length < made ∧ ∃ ending final, last.Stops ending final) := by
  induction made generalizing machine with
  | zero => exact ⟨[], machine, .none, .inl rfl⟩
  | succ made induction =>
      rcases stepped : machine.step with ⟨progress, after⟩
      cases progress with
      | halted => exact ⟨[], machine, .none, .inr ⟨Nat.succ_pos made, _, _, .halted stepped⟩⟩
      | failed failure =>
          exact ⟨[], machine, .none, .inr ⟨Nat.succ_pos made, _, _, .failed stepped⟩⟩
      | advanced =>
          rcases induction after with ⟨visited, last, calls, all | ⟨fewer, stops⟩⟩
          · exact ⟨after :: visited, last, .next stepped calls, .inl (congrArg (· + 1) all)⟩
          · exact ⟨after :: visited, last, .next stepped calls,
              .inr ⟨Nat.succ_lt_succ fewer, stops⟩⟩

/-- The last thing to be seen is final just if the machine halts. -/
theorem Stops.isFinal_iff (stops : last.Stops ending final) :
    last.state.snapshot.isFinal = true ↔ ∃ outcome, ending = .ok outcome := by
  have finalIff : last.state.snapshot.isFinal = true ↔ last.state.control = [] := by
    simp [Snapshot.isFinal, State.snapshot]
  rw [finalIff]
  cases stops with
  | halted halted => exact ⟨fun _ => ⟨_, rfl⟩, fun _ => (step_eq_halted halted).1⟩
  | failed failed =>
      rcases step_eq_failed failed with ⟨entry, rest, scheduled, _⟩
      constructor
      · intro empty
        cases empty.symm.trans scheduled
      · rintro ⟨outcome, isOk⟩
        cases isOk

theorem Calls.getLast?_trace (calls : machine.Calls visited last) :
    (machine.trace visited).getLast? = some last.state.snapshot := by
  induction calls with
  | none => rfl
  | next advances calls induction =>
      rw [trace, List.map_cons, List.getLast?_cons, ← trace, induction]
      rfl

/-- Each call that succeeds counts one step. -/
theorem Calls.steps_trace (calls : machine.Calls visited last) :
    (machine.trace visited).map Snapshot.steps =
      List.range' machine.state.steps (visited.length + 1) := by
  induction calls with
  | none => rfl
  | @next machine after last visited advances calls induction =>
      rw [trace, List.map_cons, List.map_cons, ← trace, induction, advances.steps_eq,
        List.length_cons, List.range'_succ]
      rfl

/-! ## Runs -/

section Runs

variable {σ : Type u} (observe : σ → Snapshot → σ) (seen : σ)

/-- A run in front of an observer goes on from where calls lead to; the observer has been
told what could be seen after each call. -/
theorem Calls.observeSteps_eq (calls : machine.Calls visited last) (fuel : Nat) :
    machine.observeSteps observe (visited.length + fuel) seen =
      last.observeSteps observe fuel
        ((visited.map fun machine => machine.state.snapshot).foldl observe seen) := by
  induction calls generalizing seen with
  | none => rw [List.length_nil, Nat.zero_add]; rfl
  | next advances calls induction =>
      rw [List.length_cons, Nat.add_right_comm, observeSteps, advances]
      exact induction _

theorem Stops.observeSteps_eq (stops : last.Stops ending final) (fuel : Nat) :
    last.observeSteps observe (fuel + 1) seen = (some ending, final, seen) := by
  cases stops with
  | halted halted => rw [observeSteps, halted]
  | failed failed => rw [observeSteps, failed]

/-- A run does the same whether it is observed or not. -/
theorem runFor_eq_of_runObservedFor (fuel : Nat) (machine : Machine) :
    machine.runFor fuel =
      ((machine.runObservedFor fuel observe seen).1,
        (machine.runObservedFor fuel observe seen).2.1) :=
  runFor_eq_of_observeSteps observe fuel machine _

theorem Calls.runFor_eq (calls : machine.Calls visited last) (fuel : Nat) :
    machine.runFor (visited.length + fuel) = last.runFor fuel := by
  let ignore : Unit → Snapshot → Unit := fun _ _ => ()
  rw [runFor_eq_of_observeSteps ignore _ _ (), calls.observeSteps_eq,
    ← runFor_eq_of_observeSteps]

/-- With any fuel, a run in front of an observer makes calls, which the observer is told
of, and either its fuel ends with them or the next call ends it. -/
theorem runObservedFor_cases (machine : Machine) (fuel : Nat) :
    ∃ visited last, machine.Calls visited last ∧
      (visited.length = fuel ∧
          machine.runObservedFor fuel observe seen =
            (none, last, (machine.trace visited).foldl observe seen) ∨
        ∃ ending final, last.Stops ending final ∧
          machine.runObservedFor fuel observe seen =
            (some ending, final, (machine.trace visited).foldl observe seen)) := by
  rcases exists_calls machine fuel with ⟨visited, last, calls, all | ⟨fewer, ending, final, stops⟩⟩
  · refine ⟨visited, last, calls, .inl ⟨all, ?_⟩⟩
    subst all
    exact calls.observeSteps_eq observe _ 0
  · refine ⟨visited, last, calls, .inr ⟨ending, final, stops, ?_⟩⟩
    rcases Nat.exists_eq_add_of_lt fewer with ⟨left, rfl⟩
    rw [runObservedFor, Nat.add_assoc, calls.observeSteps_eq, stops.observeSteps_eq]
    rfl

/-- A run in front of an observer ends as calling for one step after another does, and has
told the observer what could be seen meanwhile. -/
theorem exists_runObservedFor_iff {told : σ} :
    (∃ fuel, machine.runObservedFor fuel observe seen = (some ending, final, told)) ↔
      ∃ visited, machine.Drives visited ending final ∧
        told = (machine.trace visited).foldl observe seen := by
  constructor
  · rintro ⟨fuel, ran⟩
    rcases runObservedFor_cases observe seen machine fuel with
      ⟨visited, last, calls, ⟨_, cut⟩ | ⟨ending, final, stops, ended⟩⟩
    · cases cut.symm.trans ran
    · cases ended.symm.trans ran
      exact ⟨visited, ⟨last, calls, stops⟩, rfl⟩
  · rintro ⟨visited, ⟨last, calls, stops⟩, rfl⟩
    refine ⟨visited.length + 1, ?_⟩
    rw [runObservedFor, calls.observeSteps_eq, stops.observeSteps_eq]
    rfl

theorem exists_runFor_iff :
    (∃ fuel, machine.runFor fuel = (some ending, final)) ↔
      ∃ visited, machine.Drives visited ending final := by
  let ignore : Unit → Snapshot → Unit := fun _ _ => ()
  have observed : (∃ fuel, machine.runObservedFor fuel ignore () = (some ending, final, ())) ↔
      ∃ visited, machine.Drives visited ending final ∧
        () = (machine.trace visited).foldl ignore () :=
    exists_runObservedFor_iff ignore ()
  constructor
  · rintro ⟨fuel, ran⟩
    rcases ranObserved : machine.runObservedFor fuel ignore () with ⟨result, after, told⟩
    rw [runFor_eq_of_runObservedFor ignore (), ranObserved] at ran
    cases ran
    rcases observed.mp ⟨fuel, ranObserved⟩ with ⟨visited, drives, _⟩
    exact ⟨visited, drives⟩
  · rintro ⟨visited, drives⟩
    rcases observed.mpr ⟨visited, drives, rfl⟩ with ⟨fuel, ran⟩
    exact ⟨fuel, by rw [runFor_eq_of_runObservedFor ignore (), ran]⟩

end Runs

end Machine

/-! ## Failures that do not report a state -/

/-- The failure without the state that it reports. -/
def Failure.withoutSnapshot (failure : Failure) : Failure :=
  { failure with snapshot := none }

/-- The progress without the state that a failure reports. -/
def Progress.withoutSnapshot : Progress → Progress
  | .failed failure => .failed failure.withoutSnapshot
  | progress => progress

namespace Machine

variable {machine final : Machine} {failure : Failure}

/-- The machine with the report of failing states turned off. -/
def unreported (machine : Machine) : Machine :=
  { machine with options := machine.options.withSnapshotOnFault false }

/-- A failure says after how many steps it came up, and reports the state just if this is
not turned off. -/
theorem failure_of_step (failed : machine.step = (.failed failure, final)) :
    failure = failureOf machine.options final.state failure.fault := by
  rcases machine with ⟨image, options, state⟩
  simp only [step] at failed
  split at failed
  next => cases failed
  next =>
    split at failed
    next =>
      cases failed
      rfl
    next =>
      split at failed
      next => cases failed
      next =>
        cases failed
        rfl

theorem step_unreported (machine : Machine) :
    machine.unreported.step = (machine.step.1.withoutSnapshot, machine.step.2.unreported) := by
  rcases machine with ⟨image, options, state⟩
  have sameBudget : (options.withSnapshotOnFault false).exceeded? state.steps =
      options.exceeded? state.steps := rfl
  simp only [unreported, step, sameBudget]
  split
  next => rfl
  next =>
    split
    next => rfl
    next => split <;> rfl

theorem observeSteps_unreported {σ : Type u} (observe : σ → Snapshot → σ) (machine : Machine)
    (fuel : Nat) (seen : σ) :
    machine.unreported.observeSteps observe fuel seen =
      ((machine.observeSteps observe fuel seen).1.map (Except.mapError Failure.withoutSnapshot),
        (machine.observeSteps observe fuel seen).2.1.unreported,
        (machine.observeSteps observe fuel seen).2.2) := by
  induction fuel generalizing machine seen with
  | zero => rfl
  | succ fuel induction =>
      rw [observeSteps, observeSteps, step_unreported]
      rcases machine.step with ⟨progress, after⟩
      cases progress with
      | halted => rfl
      | advanced => exact induction after _
      | failed failure => rfl

/-- The ways to drive a machine agree, whatever its state and its options are. A run, a run
in front of an observer, and calling for one step after another end in the same machine
and in the same way, or none of them ends. A run goes on from where calls lead to. The
observer is told what can be seen at the start, and after each step that succeeds: of
these there is one fewer, their counts of steps follow one another, and the last is
final just if the run succeeds. To turn the report of failing states off changes nothing
but this report. -/
theorem drivers_agree {σ : Type u} (machine : Machine) (observe : σ → Snapshot → σ) (seen : σ) :
    (∀ ending final,
      (∃ fuel, machine.runFor fuel = (some ending, final)) ↔
        ∃ visited, machine.Drives visited ending final) ∧
    (∀ ending final told,
      (∃ fuel, machine.runObservedFor fuel observe seen = (some ending, final, told)) ↔
        ∃ visited, machine.Drives visited ending final ∧
          told = (machine.trace visited).foldl observe seen) ∧
    (∀ fuel, machine.runFor fuel =
      ((machine.runObservedFor fuel observe seen).1,
        (machine.runObservedFor fuel observe seen).2.1)) ∧
    (∀ fuel after told, machine.runObservedFor fuel observe seen = (none, after, told) →
      ∃ visited, visited.length = fuel ∧ machine.Calls visited after ∧
        told = (machine.trace visited).foldl observe seen) ∧
    (∀ visited after, machine.Calls visited after →
      (∀ fuel, machine.runFor (visited.length + fuel) = after.runFor fuel) ∧
      (machine.trace visited).length = visited.length + 1 ∧
      (machine.trace visited).map Snapshot.steps =
        List.range' machine.state.steps (visited.length + 1)) ∧
    (∀ visited ending final, machine.Drives visited ending final →
      ∃ lastSeen, (machine.trace visited).getLast? = some lastSeen ∧
        (lastSeen.isFinal = true ↔ ∃ outcome, ending = .ok outcome)) ∧
    machine.unreported.step = (machine.step.1.withoutSnapshot, machine.step.2.unreported) ∧
    (∀ fuel, machine.unreported.runFor fuel =
      ((machine.runFor fuel).1.map (Except.mapError Failure.withoutSnapshot),
        (machine.runFor fuel).2.unreported)) ∧
    (∀ fuel, machine.unreported.runObservedFor fuel observe seen =
      ((machine.runObservedFor fuel observe seen).1.map
          (Except.mapError Failure.withoutSnapshot),
        (machine.runObservedFor fuel observe seen).2.1.unreported,
        (machine.runObservedFor fuel observe seen).2.2)) ∧
    (∀ failure final, machine.step = (.failed failure, final) →
      failure.step = some final.state.steps ∧
      failure.snapshot =
        if machine.options.snapshotOnFault then some final.state.snapshot else none) := by
  have unreported (fuel : Nat) :
      machine.unreported.runObservedFor fuel observe seen =
        ((machine.runObservedFor fuel observe seen).1.map
            (Except.mapError Failure.withoutSnapshot),
          (machine.runObservedFor fuel observe seen).2.1.unreported,
          (machine.runObservedFor fuel observe seen).2.2) :=
    observeSteps_unreported observe machine fuel _
  refine ⟨fun ending final => exists_runFor_iff,
    fun ending final told => exists_runObservedFor_iff observe seen,
    fun fuel => runFor_eq_of_runObservedFor observe seen fuel machine, ?cut, ?calls, ?drives,
    step_unreported machine, ?runs, unreported, ?failure⟩
  case cut =>
    intro fuel after told ran
    rcases runObservedFor_cases observe seen machine fuel with
      ⟨visited, last, calls, ⟨all, cut⟩ | ⟨ending, final, stops, ended⟩⟩
    · cases cut.symm.trans ran
      exact ⟨visited, all, calls, rfl⟩
    · cases ended.symm.trans ran
  case calls =>
    intro visited after calls
    exact ⟨calls.runFor_eq, by rw [trace, List.length_map, List.length_cons], calls.steps_trace⟩
  case drives =>
    rintro visited ending final ⟨last, calls, stops⟩
    exact ⟨last.state.snapshot, calls.getLast?_trace, stops.isFinal_iff⟩
  case runs =>
    intro fuel
    rw [runFor_eq_of_runObservedFor observe seen, runFor_eq_of_runObservedFor observe seen,
      unreported]
  case failure =>
    intro failure final failed
    rw [failure_of_step failed]
    exact ⟨rfl, rfl⟩

end Machine

end BlockMachine
