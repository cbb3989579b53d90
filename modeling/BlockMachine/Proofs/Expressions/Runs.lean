import BlockMachine.Proofs.Correctness.Following
import BlockMachine.Proofs.Expressions.Evaluation
import BlockMachine.Proofs.Machine.Budget
import BlockMachine.Proofs.Machine.Strides

namespace BlockMachine

/-! # Running expressions

From the node of an expression on, whatever the machine has bound, stored and stacked, it
comes in a known number of steps to a state that differs by the value of the expression,
or it fails with the fault of the first part that has no value. -/

namespace Machine

variable {front rest : List Control} {before after : Machine}

theorem AdvancesOver.below (advances : AdvancesOver (front ++ rest) before after) :
    AdvancesOver rest before after := by
  obtain ⟨advances, entry, upper, scheduled⟩ := advances
  exact ⟨advances, entry, upper ++ front, by rw [scheduled, List.append_assoc]⟩

theorem reachesOver_below
    (reaches : Relation.ReflTransGen (AdvancesOver (front ++ rest)) before after) :
    Relation.ReflTransGen (AdvancesOver rest) before after :=
  reaches.lift id fun _ _ => AdvancesOver.below

/-! ## Ends of runs above other entries -/

variable {start first second machine last stopped target : Machine}

theorem AdvancesOver.not_finished (advances : AdvancesOver rest before after) :
    before.state.control ≠ rest := by
  obtain ⟨_, entry, upper, scheduled⟩ := advances
  intro finished
  have lengths := congrArg List.length (scheduled.symm.trans finished)
  simp only [List.length_cons, List.length_append] at lengths
  omega

theorem reachesOver_total (left : Relation.ReflTransGen (AdvancesOver rest) start first)
    (right : Relation.ReflTransGen (AdvancesOver rest) start second) :
    Relation.ReflTransGen (AdvancesOver rest) first second ∨
      Relation.ReflTransGen (AdvancesOver rest) second first := by
  refine Relation.ReflTransGen.total_of_right_unique ?_ left right
  intro machine next other advances advancesOther
  have same := advances.1.symm.trans advancesOther.1
  cases same
  rfl

/-- A run leaves nothing above `rest` in one way only. -/
theorem reachesOver_unique (left : Relation.ReflTransGen (AdvancesOver rest) start first)
    (right : Relation.ReflTransGen (AdvancesOver rest) start second)
    (finished : first.state.control = rest) (finishedToo : second.state.control = rest) :
    first = second := by
  rcases reachesOver_total left right with onward | onward
  · rcases onward.cases_head with same | ⟨_, advances, _⟩
    · exact same
    · exact absurd finished advances.not_finished
  · rcases onward.cases_head with same | ⟨_, advances, _⟩
    · exact same.symm
    · exact absurd finishedToo advances.not_finished

/-- A run that fails above `rest` leaves something there. -/
theorem not_finished_of_fails (left : Relation.ReflTransGen (AdvancesOver rest) start first)
    (right : Relation.ReflTransGen (AdvancesOver rest) start last) {entry : Control}
    (scheduled : last.state.control = entry :: (front ++ rest)) {fault : Fault}
    (fails : last.Fails fault stopped) : first.state.control ≠ rest := by
  intro finished
  rcases reachesOver_total left right with onward | onward
  · rcases onward.cases_head with rfl | ⟨_, advances, _⟩
    · have lengths := congrArg List.length (scheduled.symm.trans finished)
      simp only [List.length_cons, List.length_append] at lengths
      omega
    · exact advances.not_finished finished
  · rcases onward.cases_head with rfl | ⟨_, advances, _⟩
    · have lengths := congrArg List.length (scheduled.symm.trans finished)
      simp only [List.length_cons, List.length_append] at lengths
      omega
    · obtain ⟨failure, failed, _⟩ := fails
      cases failed.symm.trans advances.1

/-! ## Budgets -/

theorem reachesOver_unlimited (reaches : Relation.ReflTransGen (AdvancesOver rest) before after) :
    Relation.ReflTransGen (AdvancesOver rest) before.unlimited after.unlimited :=
  reaches.lift Machine.unlimited fun _ _ advances => ⟨advances.1.unlimited, advances.2⟩

theorem fails_of_exceeded {entry : Control} {limit : Nat}
    (scheduled : machine.state.control = entry :: rest)
    (exceeded : machine.options.exceeded? machine.state.steps = some limit) :
    machine.Fails (.stepBudgetExceeded limit) machine := by
  rcases machine with ⟨image, options, state⟩
  have stepped : step ⟨image, options, state⟩ =
      (.failed (failureOf options state (.stepBudgetExceeded limit)), ⟨image, options, state⟩) := by
    simp only [step, show state.control = _ from scheduled,
      show options.exceeded? state.steps = _ from exceeded]
  exact ⟨_, stepped, rfl⟩

/-- A machine does what it would do without its budget, until that is used up. -/
theorem reachesOver_of_unlimited
    (reaches : Relation.ReflTransGen (AdvancesOver rest) machine.unlimited target) :
    ∃ last, Relation.ReflTransGen (AdvancesOver rest) machine last ∧
      (last.unlimited = target ∨ ∃ limit, last.Fails (.stepBudgetExceeded limit) last) := by
  induction reaches with
  | refl => exact ⟨machine, .refl, .inl rfl⟩
  | @tail middle target _ advances induction =>
      obtain ⟨⟨image, options, state⟩, reachesLast, rfl | exceeded⟩ := induction
      · obtain ⟨advances, entry, upper, scheduled⟩ := advances
        obtain ⟨top, left, scheduledTop, rule⟩ := advances.rule
        cases exceeded : options.exceeded? state.steps with
        | some limit => exact ⟨_, reachesLast, .inr ⟨limit, fails_of_exceeded scheduled exceeded⟩⟩
        | none =>
            have next : Advances ⟨image, options, state⟩ ⟨image, options, target.state⟩ :=
              advances_of_rule scheduledTop exceeded rule
            refine ⟨_, reachesLast.tail ⟨next, entry, upper, scheduled⟩, .inl ?_⟩
            rw [advances.eq_with_state]
            rfl
      · exact ⟨_, reachesLast, .inr exceeded⟩

theorem fails_of_unlimited {fault : Fault} (fails : machine.unlimited.Fails fault stopped) :
    ∃ raised after, machine.Fails raised after ∧
      (raised = fault ∨ ∃ limit, raised = .stepBudgetExceeded limit) := by
  obtain ⟨failure, failed, rfl⟩ := fails
  obtain ⟨entry, left, scheduled, _⟩ := step_eq_failed failed
  rcases machine with ⟨image, options, state⟩
  have scheduled : state.control = entry :: left := scheduled
  cases exceeded : options.exceeded? state.steps with
  | some limit => exact ⟨_, _, fails_of_exceeded scheduled exceeded, .inr ⟨limit, rfl⟩⟩
  | none =>
      have stepped := step_of_scheduled image scheduled exceeded
      rw [@step_unlimited ⟨image, options, state⟩ entry left scheduled] at failed
      generalize entry.execute image (begin state left) = result at failed stepped
      cases result with
      | ok => cases failed
      | error fault next =>
          cases failed
          exact ⟨fault, _, ⟨_, stepped, rfl⟩, .inl rfl⟩

end Machine

namespace Setting

open Machine

theorem advancesOver_of_rule {setting : Setting} {start next : State} {rest : List Control}
    {entry : Control} (scheduled : start.control = entry :: rest)
    (rule : Rule setting.image entry (begin start rest) next) :
    AdvancesOver rest (setting.machine start) (setting.machine next) :=
  ⟨advances_of_rule scheduled rule, entry, [], scheduled⟩

/-- Entering a node that parks and schedules is a step. -/
theorem advancesOver_of_agenda {setting : Setting} {start : State} {rest : List Control}
    {site : NodeId} {node : Node} {parked : List StackValue} {entries : List Control}
    (scheduled : start.control = .node site :: rest)
    (fetched : setting.image.code.node? site = some node)
    (agenda : node.agenda? setting.image.code site = some (parked, entries))
    (functions : ∀ span, node = .recBind span →
      Node.AreFunctions setting.image.code (setting.image.code.group span)) :
    AdvancesOver rest (setting.machine start) (setting.machine { start with
      control := entries ++ rest
      values := parked ++ start.values
      steps := start.steps + 1 }) :=
  advancesOver_of_rule scheduled (.agenda fetched agenda functions)

/-- Whether the machine, running above `rest`, comes to the state for a value that has been
found, or fails above `rest` with a fault that has. -/
def Settles (setting : Setting) (rest : List Control) (start : State) (Done : α → State) :
    Except Fault α → Prop
  | .ok value =>
    Relation.ReflTransGen (AdvancesOver rest) (setting.machine start)
      (setting.machine (Done value))
  | .error fault =>
    ∃ last stopped entry front,
      Relation.ReflTransGen (AdvancesOver rest) (setting.machine start) (setting.machine last) ∧
      last.control = entry :: (front ++ rest) ∧
      (setting.machine last).Fails fault (setting.machine stopped)

variable {setting : Setting} {rest : List Control} {start next : State}

namespace Settles

variable {Done : α → State} {found : Except Fault α}

/-- What is settled after some steps is settled from the start. -/
theorem after_reaches
    (reaches : Relation.ReflTransGen (AdvancesOver rest) (setting.machine start)
      (setting.machine next))
    (settles : setting.Settles rest next Done found) : setting.Settles rest start Done found := by
  cases found with
  | ok value => exact reaches.trans settles
  | error fault =>
      obtain ⟨last, stopped, entry, upper, reachesLast, scheduled, fails⟩ := settles
      exact ⟨last, stopped, entry, upper, reaches.trans reachesLast, scheduled, fails⟩

theorem bind {Result : β → State} {continuation : α → Except Fault β} (front : List Control)
    (first : setting.Settles (front ++ rest) start Done found)
    (second : ∀ value, found = .ok value →
      setting.Settles rest (Done value) Result (continuation value)) :
    setting.Settles rest start Result (found >>= continuation) := by
  cases found with
  | ok value => exact (second value rfl).after_reaches (reachesOver_below first)
  | error fault =>
      obtain ⟨last, stopped, entry, upper, reachesLast, scheduled, fails⟩ := first
      exact ⟨last, stopped, entry, upper ++ front, reachesOver_below reachesLast,
        by rw [scheduled, List.append_assoc], fails⟩

/-- An entry that finds the value. -/
theorem of_accords {entry : Control} (scheduled : start.control = entry :: rest)
    (accords : Accords (fun value _ after => after = Done value) found
      (entry.execute setting.image (begin start rest))) :
    setting.Settles rest start Done found := by
  generalize acted : entry.execute setting.image (begin start rest) = action at accords
  cases accords with
  | @ok value _ _ good =>
      subst good
      have advances : (setting.machine start).Advances (setting.machine (Done value)) := by
        rw [Machine.Advances, step_of_scheduled scheduled, acted]
      exact .single ⟨advances, entry, [], scheduled⟩
  | error fault stopped =>
      exact ⟨start, stopped, entry, [], .refl, scheduled, fails_of_execute scheduled acted⟩

end Settles

/-- The state that an expression leaves. -/
def valued (start : State) (rest : List Control) (made : Nat) (value : Bindable) : State :=
  { start with
    control := rest
    values := .bindable value :: start.values
    steps := start.steps + made }

/-- A node that finds its value at once. -/
theorem Settles.of_leaf {site : NodeId} {node : Node} {found : Except Fault Bindable}
    (scheduled : start.control = .node site :: rest)
    (fetched : setting.image.code.node? site = some node)
    (accords : Accords (Action.Pushing (begin start rest)) found
      (Action.enterNode setting.image site node (begin start rest))) :
    setting.Settles rest start (valued start rest 1) found := by
  apply of_accords scheduled
  rw [Control.execute, Action.enter_of_fetched fetched]
  exact accords

/-- An expression is run as it is evaluated. -/
theorem settles_expression {expr : Expr} {id : NodeId} (laid : setting.draft.LaysExpr expr id)
    (scheduled : start.control = .node id :: rest) :
    setting.Settles rest start (valued start rest expr.cost)
      (expr.evaluate (Action.reading setting.image start)) := by
  induction laid generalizing start rest with
  | ident named fetched => exact .of_leaf scheduled fetched (Action.accords_identifier named)
  | num fetched | bool fetched => exact .of_leaf scheduled fetched (.ok rfl)
  | addressOf named fetched => exact .of_leaf scheduled fetched (Action.accords_addressOf named)
  | valueOf named fetched => exact .of_leaf scheduled fetched (Action.accords_valueOf named)
  | @not operand inner id _ fetched induction =>
      refine .after_reaches (.single (advancesOver_of_agenda scheduled fetched rfl (by simp))) ?_
      refine .bind [.op .not] (induction rfl) ?_
      intro value _
      apply Settles.of_accords rfl
      apply (Action.accords_not rfl).map
      rintro result _ _ rfl
      simp only [valued, begin, Expr.cost, State.mk.injEq, true_and]
      exact ⟨rfl, by omega⟩
  | @binary lexeme op lhs rhs left right id known _ _ fetched inductionLhs inductionRhs =>
      refine .after_reaches (.single (advancesOver_of_agenda scheduled fetched
        (Node.agenda?_ofOperator _ id op left right) (by simp))) ?_
      refine .bind [.node left, .op op.opcode] (inductionRhs rfl) ?_
      intro rightValue _
      refine .bind [.op op.opcode] (inductionLhs rfl) ?_
      intro leftValue _
      simp only [known]
      apply Settles.of_accords rfl
      apply (Action.accords_combine setting.image op rfl).map
      rintro result _ _ rfl
      simp only [valued, begin, Expr.cost, State.mk.injEq, true_and]
      exact ⟨rfl, by omega⟩

end Setting

end BlockMachine
