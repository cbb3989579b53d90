import BlockMachine.Proofs.Machine.Reachability

namespace BlockMachine

/-! # Endings of runs

A run halts, fails with a fault, or goes on for ever; and it does so from whichever
machine on its way it is looked at. -/

namespace Machine

/-- A step that fails with a fault. -/
def Fails (machine : Machine) (fault : Fault) (after : Machine) : Prop :=
  ∃ failure, machine.step = (.failed failure, after) ∧ failure.fault = fault

/-- How the runs of a machine end, given enough fuel: with no fault where it
halts, else with the fault of the step that failed. -/
inductive Ends (machine : Machine) : Except Fault Unit → Machine → Prop where
  | halted {fuel : Nat} {outcome : Outcome} {final : Machine}
      (ran : machine.runFor fuel = (some (.ok outcome), final)) : Ends machine (.ok ()) final
  | failed {fuel : Nat} {failure : Failure} {final : Machine}
      (ran : machine.runFor fuel = (some (.error failure), final)) :
      Ends machine (.error failure.fault) final

/-- Whether no fuel is enough for a run. -/
def Diverges (machine : Machine) : Prop :=
  ∀ fuel, (machine.runFor fuel).1 = none

variable {machine before after final : Machine}

theorem runFor_eq_of_le {fewer more : Nat} {result : Except Failure Outcome}
    (atMost : fewer ≤ more) (ran : machine.runFor fewer = (some result, final)) :
    machine.runFor more = (some result, final) := by
  induction fewer generalizing more machine with
  | zero => cases ran
  | succ fewer induction =>
      cases more with
      | zero => exact absurd atMost (Nat.not_succ_le_zero _)
      | succ more =>
          rcases stepped : machine.step with ⟨progress, moved⟩
          simp only [runFor, stepped] at ran ⊢
          cases progress with
          | halted => exact ran
          | advanced => exact induction (Nat.le_of_succ_le_succ atMost) ran
          | failed failure => exact ran

theorem Ends.exists_runFor {ending : Except Fault Unit} (ends : machine.Ends ending final) :
    ∃ fuel result, machine.runFor fuel = (some result, final) ∧
      ending = (result.mapError Failure.fault).map fun _ => () := by
  cases ends with
  | halted ran => exact ⟨_, _, ran, rfl⟩
  | failed ran => exact ⟨_, _, ran, rfl⟩

/-- A machine comes to one end only. -/
theorem Ends.unique {first second : Except Fault Unit} {other : Machine}
    (left : machine.Ends first final) (right : machine.Ends second other) :
    first = second ∧ final = other := by
  rcases left.exists_runFor with ⟨fuel, result, ran, rfl⟩
  rcases right.exists_runFor with ⟨fuelOther, resultOther, ranOther, rfl⟩
  have both := runFor_eq_of_le (Nat.le_add_right fuel fuelOther) ran
  rw [runFor_eq_of_le (Nat.le_add_left fuelOther fuel) ranOther] at both
  cases both
  exact ⟨rfl, rfl⟩

theorem Ends.not_diverges {ending : Except Fault Unit} (ends : machine.Ends ending final) :
    ¬machine.Diverges := by
  intro diverges
  rcases ends.exists_runFor with ⟨fuel, result, ran, _⟩
  have unfinished := diverges fuel
  rw [ran] at unfinished
  cases unfinished

/-- A run that reaches a machine with nothing left to do halts there. -/
theorem Reaches.halts (reaches : before.Reaches after) (halted : after.state.control = []) :
    before.Ends (.ok ()) after := by
  rcases reaches.exists_runFor_eq with ⟨made, _, same⟩
  have ran : before.runFor (made + 1) = (some (.ok after.outcome), after) := by
    rw [same, runFor, step_of_empty halted]
  exact .halted ran

theorem step_eq_halted (halted : machine.step = (.halted, final)) :
    machine.state.control = [] ∧ final = machine := by
  rcases machine with ⟨image, options, state⟩
  simp only [step] at halted
  split at halted
  next empty =>
    cases halted
    exact ⟨empty, rfl⟩
  next =>
    split at halted
    next => cases halted
    next => split at halted <;> cases halted

/-- A run that halts has made successful steps until nothing was left to do. -/
theorem reaches_of_halted {fuel : Nat} {outcome : Outcome}
    (ran : machine.runFor fuel = (some (.ok outcome), final)) :
    machine.Reaches final ∧ final.state.control = [] ∧ final.outcome = outcome := by
  induction fuel generalizing machine with
  | zero => cases ran
  | succ fuel induction =>
      rcases stepped : machine.step with ⟨progress, moved⟩
      simp only [runFor, stepped] at ran
      cases progress with
      | halted =>
          rcases step_eq_halted stepped with ⟨empty, rfl⟩
          cases ran
          exact ⟨.refl, empty, rfl⟩
      | advanced =>
          rcases induction ran with ⟨reaches, halted⟩
          exact ⟨.head stepped reaches, halted⟩
      | failed failure => cases ran

theorem Reaches.fails {fault : Fault} (reaches : before.Reaches after)
    (fails : after.Fails fault final) : before.Ends (.error fault) final := by
  rcases reaches.exists_runFor_eq with ⟨made, _, same⟩
  rcases fails with ⟨failure, stepped, rfl⟩
  have ran : before.runFor (made + 1) = (some (.error failure), final) := by
    rw [same, runFor, stepped]
  exact .failed ran

end Machine

end BlockMachine
