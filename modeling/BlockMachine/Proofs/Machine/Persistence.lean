import BlockMachine.Proofs.Machine.Endings
import BlockMachine.Proofs.Machine.Residue
import Mathlib.Logic.Function.Iterate

namespace BlockMachine

/-! # Machines that are used on

A machine can be called for another step whatever has become of the one before. A step that
fails touches neither the store nor what has been printed, so what holds of these in a run of
successful steps holds however a machine is used. -/

namespace Machine

/-- The machine after so many calls for a step, whether the steps succeed or not. -/
def afterCalls (machine : Machine) (calls : Nat) : Machine :=
  (fun current => current.step.2)^[calls] machine

variable {machine final : Machine}

theorem afterCalls_succ (machine : Machine) (calls : Nat) :
    machine.afterCalls (calls + 1) = (machine.afterCalls calls).step.2 :=
  Function.iterate_succ_apply' ..

/-- A run is so many calls for a step, however it ends. -/
theorem exists_afterCalls_eq_runFor (machine : Machine) (fuel : Nat) :
    ∃ calls, machine.afterCalls calls = (machine.runFor fuel).2 := by
  induction fuel generalizing machine with
  | zero => exact ⟨0, rfl⟩
  | succ fuel induction =>
      rcases stepped : machine.step with ⟨progress, moved⟩
      have called : machine.afterCalls 1 = moved := congrArg Prod.snd stepped
      simp only [runFor, stepped]
      cases progress with
      | halted => exact ⟨1, called⟩
      | failed failure => exact ⟨1, called⟩
      | advanced =>
          rcases induction moved with ⟨calls, same⟩
          exact ⟨calls + 1, by rw [afterCalls, Function.iterate_succ_apply, stepped]; exact same⟩

/-- A step that fails changes no part of the state but those it counts and takes entries
from, and the closure table. -/
theorem exists_state_of_failed {failure : Failure}
    (failed : machine.step = (.failed failure, final)) :
    ∃ control values closures steps, final.state = { machine.state with
      control := control
      values := values
      closures := closures
      steps := steps } := by
  rcases machine with ⟨image, options, state⟩
  cases scheduled : state.control with
  | nil =>
      have halted : step ⟨image, options, state⟩ = _ := step_of_empty scheduled
      cases halted.symm.trans failed
  | cons entry rest =>
      cases exceeded : options.exceeded? state.steps with
      | some limit =>
          cases (step_of_exceeded image scheduled exceeded).symm.trans failed
          exact ⟨_, _, _, _, rfl⟩
      | none =>
          have stepped := (step_of_scheduled image scheduled exceeded).symm.trans failed
          cases executed : entry.execute image (begin state rest) with
          | ok value next =>
              rw [executed] at stepped
              cases stepped
          | error fault next =>
              rw [executed] at stepped
              cases stepped
              by_cases stranded : ∃ members left,
                  Strands image (begin state rest).values entry members left
              · rcases stranded with ⟨members, left, strands⟩
                rcases strands.execute_eq_error with ⟨raised, _, result⟩
                cases executed.symm.trans result
                exact ⟨_, _, _, _, rfl⟩
              · have notStranded (members : List Member) (left : ValueStack) :
                    ¬Strands image (begin state rest).values entry members left :=
                  fun strands => stranded ⟨members, left, strands⟩
                rcases Strands.popped_of_not executed notStranded with ⟨_, left, _, rfl⟩
                exact ⟨_, _, _, _, rfl⟩

/-- A call for a step that does not advance the machine leaves store and output alone. -/
theorem store_and_printer_of_not_advanced (stays : machine.step.1 ≠ .advanced) :
    machine.step.2.state.store = machine.state.store ∧
      machine.step.2.state.printer = machine.state.printer := by
  rcases stepped : machine.step with ⟨progress, after⟩
  cases progress with
  | advanced => exact absurd (congrArg Prod.fst stepped) stays
  | halted =>
      rw [(step_eq_halted stepped).2]
      exact ⟨rfl, rfl⟩
  | failed failure =>
      rcases exists_state_of_failed stepped with ⟨control, values, closures, steps, same⟩
      rw [same]
      exact ⟨rfl, rfl⟩

end Machine

end BlockMachine
