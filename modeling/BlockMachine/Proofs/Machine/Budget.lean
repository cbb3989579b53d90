import BlockMachine.Proofs.Machine.Counting
import BlockMachine.Proofs.Machine.Endings
import BlockMachine.Proofs.Machine.Execution
import BlockMachine.Proofs.Machine.Faults

namespace BlockMachine

/-! # Step budgets

A step budget stops a run and changes nothing else: until then the machine does
what it would do without one, and from then on it stays where it is. -/

namespace Machine

/-- The machine without its step budget. -/
def unlimited (machine : Machine) : Machine :=
  { machine with options := { machine.options with maxSteps := none } }

variable {machine before after : Machine}

theorem step_unlimited {entry : Control} {rest : List Control}
    (scheduled : machine.state.control = entry :: rest) :
    machine.unlimited.step =
      match entry.execute machine.image (begin machine.state rest) with
      | .ok () next => (.advanced, { machine.unlimited with state := next })
      | .error fault next =>
        (.failed (failureOf machine.unlimited.options next fault),
          { machine.unlimited with state := next }) :=
  step_of_scheduled machine.image scheduled rfl

theorem Advances.unlimited (advances : before.Advances after) :
    before.unlimited.Advances after.unlimited := by
  rcases advances.rule with ⟨entry, rest, scheduled, rule⟩
  rw [advances.eq_with_state, Advances, step_unlimited scheduled, rule.execute]
  rfl

theorem Reaches.unlimited (reaches : before.Reaches after) :
    before.unlimited.Reaches after.unlimited :=
  reaches.lift Machine.unlimited fun _ _ => Advances.unlimited

/-- Steps do not bring a budget back. -/
theorem Advances.unlimited_eq (advances : before.unlimited.Advances after) :
    after.unlimited = after := by
  rw [advances.eq_with_state]
  rfl

/-- A step fails because the budget is used up, or for a reason that is there
without it. -/
theorem fails_unlimited {failure : Failure} (failed : machine.step = (.failed failure, after)) :
    (∃ limit, failure.fault = .stepBudgetExceeded limit) ∨
      machine.unlimited.Fails failure.fault { machine.unlimited with state := after.state } := by
  rcases step_eq_failed failed with ⟨entry, rest, scheduled, exceeded | raised⟩
  · exact .inl exceeded
  · refine .inr ⟨failureOf machine.unlimited.options after.state failure.fault, ?_, rfl⟩
    rw [step_unlimited scheduled, raised]

/-! ## Runs within a budget -/

/-- The machine with a step budget. -/
def limited (limit : Nat) (machine : Machine) : Machine :=
  { machine with options := machine.options.withMaxSteps limit }

variable {limit : Nat}

/-- A machine that has halted or has steps left makes its next step as without a
budget. -/
theorem step_limited (left : machine.state.control = [] ∨ machine.state.steps < limit) :
    (machine.limited limit).step =
      (machine.unlimited.step.1, machine.unlimited.step.2.limited limit) := by
  cases scheduled : machine.state.control with
  | nil =>
      have halted : (machine.limited limit).step = _ := step_of_empty scheduled
      have haltedFree : machine.unlimited.step = _ := step_of_empty scheduled
      rw [halted, haltedFree]
      rfl
  | cons entry rest =>
      have below : machine.state.steps < limit := by simpa [scheduled] using left
      have within : (machine.limited limit).options.exceeded? machine.state.steps = none := by
        simpa [limited, Options.exceeded?, Options.withMaxSteps, Option.filter] using below
      have stepped := step_of_scheduled machine.image scheduled within
      rw [step_unlimited scheduled]
      refine Eq.trans stepped ?_
      cases entry.execute machine.image (begin machine.state rest) <;> rfl

/-- A machine that has used up its budget fails and stays as it is. -/
theorem step_of_used_up {entry : Control} {rest : List Control}
    (scheduled : machine.state.control = entry :: rest) (usedUp : limit ≤ machine.state.steps) :
    (machine.limited limit).step =
      (.failed (failureOf machine.options machine.state (.stepBudgetExceeded limit)),
        machine.limited limit) := by
  rcases machine with ⟨image, options, state⟩
  have exceeded : (options.withMaxSteps limit).exceeded? state.steps = some limit :=
    Options.exceeded?_eq_some_iff.mpr ⟨rfl, usedUp⟩
  simp only [limited, step, show state.control = entry :: rest from scheduled, exceeded]
  rfl

theorem runFor_of_failed {failure : Failure} (failed : machine.step = (.failed failure, after))
    (fuel : Nat) : machine.runFor (fuel + 1) = (some (.error failure), after) := by
  rw [runFor, failed]

/-- As long as the budget lasts a run is that without one. -/
theorem runFor_limited {fuel : Nat} (enough : machine.state.steps + fuel ≤ limit) :
    (machine.limited limit).runFor fuel =
      ((machine.unlimited.runFor fuel).1, (machine.unlimited.runFor fuel).2.limited limit) := by
  induction fuel generalizing machine with
  | zero => rfl
  | succ fuel induction =>
      rcases stepped : machine.unlimited.step with ⟨progress, moved⟩
      have left : machine.state.steps < limit := by omega
      have bounded := step_limited (.inr left)
      rw [stepped] at bounded
      rw [runFor, runFor, stepped, bounded]
      cases progress with
      | halted => rfl
      | failed failure => rfl
      | advanced =>
          have advances : machine.unlimited.Advances moved := stepped
          have counted : moved.state.steps = machine.state.steps + 1 := advances.steps_eq
          have enough : moved.state.steps + fuel ≤ limit := by omega
          have rest := induction enough
          rwa [advances.unlimited_eq] at rest

/-! ## The end of a run -/

/-- A step that fails for another reason than its budget is counted. -/
theorem steps_of_failed {failure : Failure}
    (failed : machine.unlimited.step = (.failed failure, after)) :
    after.state.steps = machine.state.steps + 1 := by
  cases scheduled : machine.state.control with
  | nil =>
      have halted : machine.unlimited.step = _ := step_of_empty scheduled
      cases halted.symm.trans failed
  | cons entry rest =>
      have keeps : Action.KeepsCount (entry.execute machine.image) := .execute entry
      have counted := keeps (begin machine.state rest)
      rw [step_unlimited scheduled] at failed
      cases executed : entry.execute machine.image (begin machine.state rest) with
      | ok value next =>
          rw [executed] at failed
          cases failed
      | error fault next =>
          rw [executed] at failed counted
          cases failed
          exact counted

theorem steps_runFor {fuel : Nat} (unfinished : (machine.runFor fuel).1 = none) :
    (machine.runFor fuel).2.state.steps = machine.state.steps + fuel := by
  induction fuel with
  | zero => rfl
  | succ fuel induction =>
      have last := advances_runFor unfinished
      have before := induction (runFor_eq_none_of_le (Nat.le_succ fuel) unfinished)
      rw [last.steps_eq, before, Nat.add_assoc]

/-- A run that ends has counted its steps, and needs only one unit of fuel more than
these. -/
theorem exists_steps_of_ended {fuel : Nat} {result : Except Failure Outcome}
    (ran : machine.unlimited.runFor fuel = (some result, after)) :
    ∃ made ≤ fuel, after.state.steps = machine.state.steps + made ∧
      machine.unlimited.runFor (made + 1) = (some result, after) := by
  induction fuel generalizing machine with
  | zero => cases ran
  | succ fuel induction =>
      rcases stepped : machine.unlimited.step with ⟨progress, moved⟩
      rw [runFor, stepped] at ran
      cases progress with
      | halted =>
          rcases step_eq_halted stepped with ⟨_, rfl⟩
          cases ran
          refine ⟨0, Nat.zero_le _, rfl, ?_⟩
          rw [runFor, stepped]
      | failed failure =>
          cases ran
          refine ⟨1, Nat.le_add_left 1 fuel, steps_of_failed stepped, ?_⟩
          rw [runFor, stepped]
      | advanced =>
          have advances : machine.unlimited.Advances moved := stepped
          have counted : moved.state.steps = machine.state.steps + 1 := advances.steps_eq
          have unlimited := advances.unlimited_eq
          rw [← unlimited] at ran
          rcases induction ran with ⟨made, atMost, steps, same⟩
          refine ⟨made + 1, Nat.succ_le_succ atMost, by omega, ?_⟩
          rw [runFor, stepped]
          exact unlimited ▸ same

/-- A run that ends within the budget ends in the same way with it. -/
theorem runFor_limited_of_ended {fuel : Nat} {result : Except Failure Outcome}
    (ran : machine.unlimited.runFor fuel = (some result, after))
    (within : after.state.steps ≤ limit) :
    (machine.limited limit).runFor fuel = (some result, after.limited limit) := by
  induction fuel generalizing machine with
  | zero => cases ran
  | succ fuel induction =>
      rcases stepped : machine.unlimited.step with ⟨progress, moved⟩
      have bounded (left : machine.state.control = [] ∨ machine.state.steps < limit) :
          (machine.limited limit).step = (progress, moved.limited limit) := by
        rw [step_limited left, stepped]
      rw [runFor, stepped] at ran
      rw [runFor]
      cases progress with
      | halted =>
          rcases step_eq_halted stepped with ⟨empty, rfl⟩
          cases ran
          rw [bounded (.inl empty)]
          rfl
      | failed failure =>
          cases ran
          have counted := steps_of_failed stepped
          rw [bounded (.inr (by omega))]
      | advanced =>
          have advances : machine.unlimited.Advances moved := stepped
          have counted : moved.state.steps = machine.state.steps + 1 := advances.steps_eq
          rw [← advances.unlimited_eq] at ran
          rcases exists_steps_of_ended ran with ⟨made, _, steps, _⟩
          rw [bounded (.inr (by omega))]
          exact induction ran

/-- A step budget only cuts a run short. If the run without it ends within the
budget, by halting or by a step that fails, the run with it ends in the same way and in
the same state. Otherwise that one fails after as many steps as the budget allows, in
the state to which these steps lead, and the machine stays there and fails again
whenever it is used on. -/
theorem budget_cuts_short (image : Image) (options : Options) (printer : Printer)
    (limit : Nat) :
    let free := (load image options printer).unlimited
    let bounded := (load image options printer).limited limit
    (∀ fuel result final, free.runFor fuel = (some result, final) →
      final.state.steps ≤ limit →
      ∀ more, limit < more → bounded.runFor more = (some result, final.limited limit)) ∧
    ((∀ fuel result final, free.runFor fuel = (some result, final) →
      limit < final.state.steps) →
      ∃ stopped, free.runFor limit = (none, stopped) ∧ stopped.state.steps = limit ∧
        ∃ failure : Failure, failure.fault = .stepBudgetExceeded limit ∧
          failure.step = some limit ∧
          failure.snapshot =
            (if options.snapshotOnFault then some stopped.state.snapshot else none) ∧
          (∀ more, limit < more →
            bounded.runFor more = (some (.error failure), stopped.limited limit)) ∧
          (stopped.limited limit).step = (.failed failure, stopped.limited limit) ∧
          ∀ fuel, (stopped.limited limit).runFor (fuel + 1) =
            (some (.error failure), stopped.limited limit)) := by
  intro free bounded
  have started : (load image options printer).state.steps = 0 := rfl
  constructor
  · intro fuel result final ran within more enough
    rcases exists_steps_of_ended ran with ⟨made, _, steps, same⟩
    exact runFor_eq_of_le (by omega) (runFor_limited_of_ended same within)
  · intro goesOn
    have unfinished : (free.runFor limit).1 = none := by
      rcases ran : free.runFor limit with ⟨result, final⟩
      cases result with
      | none => rfl
      | some result =>
          rcases exists_steps_of_ended ran with ⟨made, atMost, steps, _⟩
          have beyond := goesOn _ _ _ ran
          omega
    rcases ran : free.runFor limit with ⟨_, stopped⟩
    rw [ran] at unfinished
    cases unfinished
    have unfinished : (free.runFor limit).1 = none := by rw [ran]
    have counted := steps_runFor unfinished
    rw [ran] at counted
    have steps : stopped.state.steps = limit := counted.trans (Nat.zero_add limit)
    have reaches : free.Reaches stopped := by
      have reached := reaches_runFor unfinished
      rwa [ran] at reached
    have scheduled : stopped.state.control ≠ [] := by
      intro empty
      rcases (reaches.halts empty).exists_runFor with ⟨fuel, result, ended, _⟩
      have beyond := goesOn _ _ _ ended
      omega
    rcases List.exists_cons_of_ne_nil scheduled with ⟨entry, rest, scheduled⟩
    have failed := step_of_used_up scheduled (Nat.le_of_eq steps.symm)
    have again := runFor_of_failed failed
    have sameOptions : stopped.options = free.options := by rw [reaches.eq_with_state]
    refine ⟨stopped, rfl, steps, _, rfl, congrArg some steps, ?_, ?_, failed, again⟩
    · simp only [failureOf, sameOptions]
      rfl
    · intro more enough
      -- With its budget the run comes to the same state after `limit` steps.
      have made : bounded.runFor limit = (none, stopped.limited limit) := by
        have enough : (load image options printer).state.steps + limit ≤ limit := by omega
        have same := runFor_limited enough
        rwa [show (load image options printer).unlimited.runFor limit = _ from ran] at same
      rcases Nat.exists_eq_add_of_lt enough with ⟨left, rfl⟩
      have unfinished : (bounded.runFor limit).1 = none := by rw [made]
      have reached := reaches_runFor unfinished
      rw [made] at reached
      rcases reached.exists_runFor_eq with ⟨taken, counted, same⟩
      have takenAll : taken = limit := by
        have counted : stopped.state.steps = 0 + taken := counted
        omega
      subst takenAll
      rw [Nat.add_assoc, same]
      exact again left

end Machine

end BlockMachine
