import BlockMachine.Proofs.Machine.Rules
import Mathlib.Logic.Relation

namespace BlockMachine

/-! # Reachable machines

A run is a sequence of steps that succeed. What the start of every program has
and every rule keeps holds of all machines that a run can reach. -/

theorem Rule.steps_eq {image : Image} {entry : Control} {before after : State}
    (rule : Rule image entry before after) : after.steps = before.steps := by
  cases rule <;> rfl

namespace Machine

/-- A step that succeeds. -/
def Advances (before after : Machine) : Prop :=
  before.step = (.advanced, after)

/-- Any number of steps that succeed. -/
abbrev Reaches : Machine → Machine → Prop :=
  Relation.ReflTransGen Advances

/-- The state in which an entry is carried out: the step is counted, and the
entry is gone. -/
def begin (state : State) (rest : List Control) : State :=
  { state with control := rest, steps := state.steps + 1 }

variable {before after : Machine}

/-- A step within the budget carries out the top entry of the control stack. -/
theorem step_of_scheduled (image : Image) {options : Options} {state : State} {entry : Control}
    {rest : List Control} (scheduled : state.control = entry :: rest)
    (within : options.exceeded? state.steps = none) :
    step ⟨image, options, state⟩ =
      match entry.execute image (begin state rest) with
      | .ok () next => (.advanced, ⟨image, options, next⟩)
      | .error fault next => (.failed (failureOf options next fault), ⟨image, options, next⟩) := by
  simp only [step, scheduled, within]
  rfl

theorem step_of_empty {machine : Machine} (empty : machine.state.control = []) :
    machine.step = (.halted, machine) := by
  rcases machine with ⟨image, options, state⟩
  simp only [step, show state.control = [] from empty]

theorem Advances.rule (advances : before.Advances after) :
    ∃ entry rest, before.state.control = entry :: rest ∧
      Rule before.image entry (begin before.state rest) after.state := by
  rcases before with ⟨image, options, state⟩
  simp only [Advances, step] at advances
  split at advances
  next => simp at advances
  next entry rest scheduled =>
    split at advances
    next => simp at advances
    next =>
      split at advances
      next executed =>
        simp only [Prod.mk.injEq, true_and] at advances
        exact advances ▸ ⟨entry, rest, scheduled, .of_execute executed⟩
      next => simp at advances

/-- A step changes the state only. -/
theorem Advances.eq_with_state (advances : before.Advances after) :
    after = { before with state := after.state } := by
  rcases before with ⟨image, options, state⟩
  simp only [Advances, step] at advances
  split at advances
  next => simp at advances
  next =>
    split at advances
    next => simp at advances
    next =>
      split at advances
      next => cases advances; rfl
      next => simp at advances

/-- No step changes the program. -/
theorem Advances.image_eq (advances : before.Advances after) : after.image = before.image := by
  rw [advances.eq_with_state]

theorem Reaches.image_eq (reaches : before.Reaches after) : after.image = before.image := by
  induction reaches with
  | refl => rfl
  | tail _ last induction => exact last.image_eq.trans induction

/-- A run changes the state only. -/
theorem Reaches.eq_with_state (reaches : before.Reaches after) :
    after = { before with state := after.state } := by
  induction reaches with
  | refl => rfl
  | tail _ last induction => rw [last.eq_with_state, induction]

/-- What no step breaks holds after every run that starts with it. -/
theorem Reaches.keeps {Holds : Machine → Prop} (reaches : before.Reaches after)
    (step : ∀ machine next, machine.Advances next → Holds machine → Holds next)
    (start : Holds before) : Holds after := by
  induction reaches with
  | refl => exact start
  | tail _ last induction => exact step _ _ last induction

/-- A run that its fuel cuts short has made successful steps only. -/
theorem reaches_runFor {fuel : Nat} {machine : Machine}
    (unfinished : (machine.runFor fuel).1 = none) : machine.Reaches (machine.runFor fuel).2 := by
  induction fuel generalizing machine with
  | zero => exact .refl
  | succ fuel induction =>
      rcases stepped : machine.step with ⟨progress, moved⟩
      simp only [runFor, stepped] at unfinished ⊢
      cases progress with
      | halted => simp at unfinished
      | advanced => exact .head stepped (induction unfinished)
      | failed failure => simp at unfinished

/-- The last step of a run that its fuel cuts short. -/
theorem advances_runFor {fuel : Nat} {machine : Machine}
    (unfinished : (machine.runFor (fuel + 1)).1 = none) :
    (machine.runFor fuel).2.Advances (machine.runFor (fuel + 1)).2 := by
  induction fuel generalizing machine with
  | zero =>
      rcases stepped : machine.step with ⟨progress, moved⟩
      cases progress with
      | advanced =>
          simp only [runFor, stepped]
          exact stepped
      | _ => simp [runFor, stepped] at unfinished
  | succ fuel induction =>
      rcases stepped : machine.step with ⟨progress, moved⟩
      rw [runFor] at unfinished
      cases progress with
      | advanced =>
          simp only [stepped] at unfinished
          have last := induction unfinished
          rw [runFor, runFor]
          simp only [stepped]
          exact last
      | _ => simp [stepped] at unfinished

/-- Steps of a kind that follow one another in a run. -/
theorem reflTransGen_runFor {Step : Machine → Machine → Prop} {machine : Machine} {first last : Nat}
    (atMost : first ≤ last) (steps : ∀ made < last, first ≤ made →
      Step (machine.runFor made).2 (machine.runFor (made + 1)).2) :
    Relation.ReflTransGen Step (machine.runFor first).2 (machine.runFor last).2 := by
  induction atMost with
  | refl => exact .refl
  | @step last atMost induction =>
      have before := induction fun made below =>
        steps made (Nat.lt_succ_of_lt below)
      exact before.tail (steps last (Nat.lt_succ_self last) atMost)

/-! ## Counting steps -/

theorem Advances.steps_eq (advances : before.Advances after) :
    after.state.steps = before.state.steps + 1 := by
  rcases advances.rule with ⟨entry, rest, _, rule⟩
  exact rule.steps_eq

theorem Reaches.steps_le (reaches : before.Reaches after) :
    before.state.steps ≤ after.state.steps := by
  induction reaches with
  | refl => exact Nat.le_refl _
  | tail _ last induction =>
      rw [last.steps_eq]
      exact Nat.le_succ_of_le induction

/-- A run goes on from a machine it has reached. -/
theorem Reaches.exists_runFor_eq (reaches : before.Reaches after) :
    ∃ made, after.state.steps = before.state.steps + made ∧
      ∀ fuel, before.runFor (made + fuel) = after.runFor fuel := by
  induction reaches using Relation.ReflTransGen.head_induction_on with
  | refl => exact ⟨0, rfl, fun fuel => by rw [Nat.zero_add]⟩
  | @head first second advances _ induction =>
      rcases induction with ⟨made, counted, same⟩
      refine ⟨made + 1, ?_, ?_⟩
      · rw [counted, advances.steps_eq]
        omega
      · intro fuel
        have stepped : first.step = (.advanced, second) := advances
        rw [Nat.add_right_comm, runFor, stepped]
        exact same fuel

theorem runFor_eq_none_of_le {machine : Machine} {fewer more : Nat} (atMost : fewer ≤ more)
    (unfinished : (machine.runFor more).1 = none) : (machine.runFor fewer).1 = none := by
  induction more generalizing fewer machine with
  | zero =>
      rw [Nat.le_zero.mp atMost]
      rfl
  | succ more induction =>
      cases fewer with
      | zero => rfl
      | succ fewer =>
          rcases stepped : machine.step with ⟨progress, moved⟩
          simp only [runFor, stepped] at unfinished ⊢
          cases progress with
          | halted => simp at unfinished
          | advanced => exact induction (Nat.le_of_succ_le_succ atMost) unfinished
          | failed failure => simp at unfinished

/-- A run that has made so many steps has not ended before. -/
theorem Reaches.runFor_eq_none (reaches : before.Reaches after) {fuel : Nat}
    (enough : before.state.steps + fuel ≤ after.state.steps) : (before.runFor fuel).1 = none := by
  rcases reaches.exists_runFor_eq with ⟨made, counted, same⟩
  have atLeast : fuel ≤ made := by omega
  apply runFor_eq_none_of_le atLeast
  have ended := same 0
  rw [Nat.add_zero] at ended
  rw [ended]
  rfl

end Machine

end BlockMachine
