import BlockMachine.Proofs.Expressions.Runs
import BlockMachine.Proofs.Machine.Residue

namespace BlockMachine

/-! # Timing of expressions

How many steps an expression takes is known from its shape: one for each leaf, and two
for each operator. Until then the stacks change and nothing else does. -/

namespace Expr

/-- How many literals and identifiers an expression has. -/
def leaves : Expr → Nat
  | .ident _ | .num _ | .bool _ | .addressOf _ | .valueOf _ => 1
  | .binary _ lhs rhs => lhs.leaves + rhs.leaves
  | .not operand => operand.leaves

/-- How many operators of two operands it has. -/
def operators : Expr → Nat
  | .ident _ | .num _ | .bool _ | .addressOf _ | .valueOf _ => 0
  | .binary _ lhs rhs => lhs.operators + rhs.operators + 1
  | .not operand => operand.operators

def negations : Expr → Nat
  | .ident _ | .num _ | .bool _ | .addressOf _ | .valueOf _ => 0
  | .binary _ lhs rhs => lhs.negations + rhs.negations
  | .not operand => operand.negations + 1

theorem cost_pos (expr : Expr) : 0 < expr.cost := by
  cases expr <;> exact Nat.succ_pos _

theorem cost_eq (expr : Expr) :
    expr.cost = expr.leaves + 2 * expr.operators + 2 * expr.negations := by
  induction expr with
  | binary lexeme lhs rhs inductionLhs inductionRhs =>
      simp only [cost, leaves, operators, negations, inductionLhs, inductionRhs]
      omega
  | not operand induction =>
      simp only [cost, leaves, operators, negations, induction]
      omega
  | _ => rfl

end Expr

/-- Whether two states differ in their stacks and their counts of steps at most. -/
structure State.SameMemory (before after : State) : Prop where
  environment : after.environment = before.environment
  store : after.store = before.store
  region : after.region = before.region
  closures : after.closures = before.closures
  printer : after.printer = before.printer

namespace State.SameMemory

variable {first second third : State}

theorem refl (state : State) : state.SameMemory state :=
  ⟨rfl, rfl, rfl, rfl, rfl⟩

theorem trans (before : first.SameMemory second) (after : second.SameMemory third) :
    first.SameMemory third where
  environment := after.environment.trans before.environment
  store := after.store.trans before.store
  region := after.region.trans before.region
  closures := after.closures.trans before.closures
  printer := after.printer.trans before.printer

theorem of_popped (popped : first.Popped second) : first.SameMemory second := by
  rcases popped with ⟨left, _, rfl⟩
  exact ⟨rfl, rfl, rfl, rfl, rfl⟩

theorem of_begin {rest : List Control} (memory : (Machine.begin first rest).SameMemory second) :
    first.SameMemory second :=
  ⟨memory.environment, memory.store, memory.region, memory.closures, memory.printer⟩

end State.SameMemory

/-! ## Entries that evaluate -/

/-- Control entries that evaluate expressions, and how many steps they take. -/
inductive Draft.Computes (draft : Draft) : List Control → Nat → Prop where
  | nil : Computes draft [] 0
  | node {expr : Expr} {id : NodeId} {front : List Control} {left : Nat}
      (laid : draft.LaysExpr expr id) (behind : Computes draft front left) :
      Computes draft (.node id :: front) (expr.cost + left)
  | operator {front : List Control} {left : Nat} (op : BinaryOperator)
      (behind : Computes draft front left) : Computes draft (.op op.opcode :: front) (left + 1)
  | not {front : List Control} {left : Nat} (behind : Computes draft front left) :
      Computes draft (.op .not :: front) (left + 1)

namespace Draft.Computes

variable {draft : Draft} {image : Image} {entry : Control} {front : List Control} {cost : Nat}
  {before after : State}

theorem eq_nil (computes : draft.Computes front 0) : front = [] := by
  generalize noStep : 0 = cost at computes
  cases computes with
  | nil => rfl
  | @node expr => exact absurd expr.cost_pos (by omega)
  | operator => cases noStep
  | not => cases noStep

theorem noGroup (computes : draft.Computes (entry :: front) cost) (site : NodeId) :
    entry ≠ .op (.recBind site) := by
  intro isGroup
  subst isGroup
  generalize scheduled : Control.op (.recBind site) :: front = entries at computes
  cases computes with
  | operator op =>
      cases op <;>
      · rw [BinaryOperator.opcode] at scheduled
        cases scheduled
  | _ => cases scheduled

/-- A node that leaves a value at once leaves nothing else. -/
theorem pushed_of_leaf {site : NodeId} {node : Node} {found : Except Fault Bindable}
    (fetched : image.code.node? site = some node)
    (accords : Accords (Action.Pushing before) found (Action.enterNode image site node before))
    (rule : Rule image (.node site) before after) :
    ∃ value, after = { before with values := .bindable value :: before.values } := by
  rw [rule.enterNode_eq_ok fetched] at accords
  cases accords with
  | ok pushed => exact ⟨_, pushed⟩

/-- What an entry that evaluates may do, in whatever state it is carried out. -/
def Continues (draft : Draft) (front : List Control) (before after : State) (left : Nat) : Prop :=
  before.SameMemory after ∧
    ∃ entries, after.control = entries ++ before.control ∧ draft.Computes (entries ++ front) left

theorem continues_of_leaf {site : NodeId} {node : Node} {found : Except Fault Bindable}
    (behind : draft.Computes front cost) (fetched : image.code.node? site = some node)
    (accords : Accords (Action.Pushing before) found (Action.enterNode image site node before))
    (rule : Rule image (.node site) before after) : Continues draft front before after cost := by
  rcases pushed_of_leaf fetched accords rule with ⟨value, rfl⟩
  exact ⟨⟨rfl, rfl, rfl, rfl, rfl⟩, [], rfl, behind⟩

theorem continues_of_agenda {site : NodeId} {node : Node} {parked : List StackValue}
    {entries : List Control} (fetched : image.code.node? site = some node)
    (agenda : node.agenda? image.code site = some (parked, entries))
    (noGroup : ∀ span, node ≠ .recBind span)
    (computes : draft.Computes (entries ++ front) cost)
    (rule : Rule image (.node site) before after) : Continues draft front before after cost := by
  have same := rule.unique (.agenda fetched agenda fun span isGroup => absurd isGroup (noGroup span))
  subst same
  exact ⟨⟨rfl, rfl, rfl, rfl, rfl⟩, entries, rfl, computes⟩

/-- An entry that evaluates leaves entries that do, for one step less. -/
theorem continues (computes : image.draft.Computes (entry :: front) cost)
    (rule : Rule image entry before after) :
    ∃ left, cost = left + 1 ∧ Continues image.draft front before after left := by
  cases computes with
  | @node expr id _ left laid behind =>
      cases laid with
      | ident named fetched =>
          exact ⟨left, Nat.add_comm 1 left,
            continues_of_leaf behind fetched (Action.accords_identifier named) rule⟩
      | num fetched =>
          exact ⟨left, Nat.add_comm 1 left, continues_of_leaf behind fetched (.ok rfl) rule⟩
      | bool fetched =>
          exact ⟨left, Nat.add_comm 1 left, continues_of_leaf behind fetched (.ok rfl) rule⟩
      | addressOf named fetched =>
          exact ⟨left, Nat.add_comm 1 left,
            continues_of_leaf behind fetched (Action.accords_addressOf named) rule⟩
      | valueOf named fetched =>
          exact ⟨left, Nat.add_comm 1 left,
            continues_of_leaf behind fetched (Action.accords_valueOf named) rule⟩
      | @binary lexeme op lhs rhs _ _ _ known lhsLaid rhsLaid fetched =>
          refine ⟨rhs.cost + (lhs.cost + (left + 1)), by rw [Expr.cost]; omega, ?_⟩
          exact continues_of_agenda fetched (Node.agenda?_ofOperator _ id op _ _) (by simp)
            (.node rhsLaid (.node lhsLaid (.operator op behind))) rule
      | @not operand _ _ innerLaid fetched =>
          refine ⟨operand.cost + (left + 1), by rw [Expr.cost]; omega, ?_⟩
          exact continues_of_agenda fetched rfl (by simp) (.node innerLaid (.not behind)) rule
  | @operator _ left op behind =>
      refine ⟨left, rfl, ?_⟩
      cases op with
      | arith op =>
          cases rule with
          | operator => exact ⟨⟨rfl, rfl, rfl, rfl, rfl⟩, [], rfl, behind⟩
      | logic op =>
          cases rule with
          | operator => exact ⟨⟨rfl, rfl, rfl, rfl, rfl⟩, [], rfl, behind⟩
  | @not _ left behind =>
      refine ⟨left, rfl, ?_⟩
      cases rule with
      | operator => exact ⟨⟨rfl, rfl, rfl, rfl, rfl⟩, [], rfl, behind⟩

end Draft.Computes

/-! ## Runs -/

namespace Setting

open Machine

variable {setting : Setting} {front rest : List Control} {start : State} {cost made : Nat}

/-- How far a machine has come that evaluates above `rest`, after some steps of those that
it takes. -/
inductive Computing (setting : Setting) (rest : List Control) (start : State) (cost made : Nat) :
    Prop where
  | onward {next : State} {left : List Control}
      (ran : (setting.machine start).runFor made = (none, setting.machine next))
      (reaches : Relation.ReflTransGen (AdvancesOver rest) (setting.machine start)
        (setting.machine next))
      (memory : start.SameMemory next) (scheduled : next.control = left ++ rest)
      (computes : setting.draft.Computes left (cost - made))
  | failed {failure : Failure} {final : State}
      (ran : (setting.machine start).runFor made = (some (.error failure), setting.machine final))
      (memory : start.SameMemory final)

theorem Computing.memory (computing : setting.Computing rest start cost made) :
    start.SameMemory ((setting.machine start).runFor made).2.state := by
  cases computing with
  | onward ran _ memory => rw [ran]; exact memory
  | failed ran memory => rw [ran]; exact memory

theorem computing (computes : setting.draft.Computes front cost)
    (scheduled : start.control = front ++ rest) (within : made ≤ cost) :
    setting.Computing rest start cost made := by
  induction made generalizing front cost start with
  | zero => exact .onward rfl .refl (.refl start) scheduled computes
  | succ made induction =>
      cases front with
      | nil =>
          cases computes
          exact absurd within (Nat.not_succ_le_zero made)
      | cons entry front =>
          have scheduled : start.control = entry :: (front ++ rest) := scheduled
          have stepped := @step_of_scheduled setting start entry (front ++ rest) scheduled
          cases executed : entry.execute setting.image (begin start (front ++ rest)) with
          | error fault next =>
              rw [executed] at stepped
              have popped := (Action.FailsPopped.execute computes.noGroup _ _ _ executed).2
              have ran : (setting.machine start).runFor (made + 1) =
                  (some (.error (failureOf setting.options next fault)), setting.machine next) := by
                rw [runFor, stepped]
              exact .failed ran (.of_begin (.of_popped popped))
          | ok value next =>
              rw [executed] at stepped
              have advances : (setting.machine start).Advances (setting.machine next) := stepped
              have rule : Rule setting.image entry (begin start (front ++ rest)) next :=
                .of_execute executed
              rcases computes.continues rule with
                ⟨left, rfl, memory, entries, scheduledNext, computesNext⟩
              have first : start.SameMemory next := .of_begin memory
              have scheduledNext : next.control = (entries ++ front) ++ rest := by
                rw [scheduledNext, List.append_assoc]
                rfl
              have ranOn : (setting.machine start).runFor (made + 1) =
                  (setting.machine next).runFor made := by
                rw [runFor, stepped]
              rw [Nat.succ_le_succ_iff] at within
              cases induction computesNext scheduledNext within with
              | onward ran reaches later remaining computesLater =>
                  refine .onward (ranOn.trans ran)
                    (.head ⟨advances, entry, front, scheduled⟩ reaches) (first.trans later)
                    remaining ?_
                  rwa [Nat.add_sub_add_right]
              | failed ran later => exact .failed (ranOn.trans ran) (first.trans later)

/-- An expression without a value fails within the steps that it takes. Until then only
the stacks change. -/
theorem fails_within {expr : Expr} {id : NodeId} {fault : Fault}
    (laid : setting.draft.LaysExpr expr id) (scheduled : start.control = .node id :: rest)
    (found : expr.evaluate (Action.reading setting.image start) = .error fault) :
    ∃ last failure final, setting.Reaches start last ∧
      (setting.machine last).Fails fault (setting.machine final) ∧ start.SameMemory final ∧
      (setting.machine start).runFor expr.cost =
        (some (.error failure), setting.machine final) ∧ failure.fault = fault := by
  have settles := settles_expression laid scheduled
  rw [found] at settles
  rcases settles with ⟨last, stopped, entry, upper, reaches, left, fails⟩
  have computes : setting.draft.Computes [.node id] expr.cost := .node laid .nil
  cases computing computes scheduled (Nat.le_refl _) with
  | onward _ reachesNext _ remaining computesNext =>
      rw [Nat.sub_self] at computesNext
      cases computesNext.eq_nil
      exact absurd remaining (not_finished_of_fails reachesNext reaches left fails)
  | @failed failure final ran memory =>
      have ended : (setting.machine start).Ends (.error failure.fault) (setting.machine final) :=
        .failed ran
      have reached : (setting.machine start).Reaches (setting.machine last) :=
        reaches_of_reachesOver reaches
      obtain ⟨sameFault, sameMachine⟩ := ended.unique (reached.fails fails)
      cases sameFault
      exact ⟨last, failure, final, reached, sameMachine ▸ fails, memory, ran, rfl⟩

end Setting

namespace Machine

/-- Expressions are pure and take a time that their shape tells, in whatever state of a
machine without a budget they are evaluated. The steps are as many as there are leaves,
and two more for each operator and each negation. As far as the machine makes them, they
change nothing but the stacks. When all are made, the value of the expression is on the
value stack; where it has none, a step has failed, with the fault of the first part that
has no value. -/
theorem expression_timed {expr : Expr} {before after : Draft} {id : NodeId} {kind : OperandKind}
    (built : Build.expression expr before = .ok (id, kind) after) {machine : Machine}
    {rest : List Control} (grows : after.Extends machine.image.draft)
    (unlimited : machine.options.maxSteps = none)
    (scheduled : machine.state.control = .node id :: rest) :
    let time := expr.leaves + 2 * expr.operators + 2 * expr.negations
    (∀ made ≤ time, machine.state.SameMemory (machine.runFor made).2.state) ∧
    match expr.evaluate (Action.reading machine.image machine.state) with
    | .ok value =>
      machine.runFor time = (none, { machine with state := { machine.state with
        control := rest
        values := .bindable value :: machine.state.values
        steps := machine.state.steps + time } })
    | .error fault =>
      ∃ failure final, machine.runFor time = (some (.error failure), final) ∧
        failure.fault = fault := by
  intro time
  have timeEq : time = expr.cost := expr.cost_eq.symm
  rw [timeEq]
  rcases machine with ⟨image, options, state⟩
  let setting : Setting := ⟨image, options, state.printer, unlimited⟩
  have laid : setting.draft.LaysExpr expr id :=
    (Build.ensures_expression expr _ _ _ built).2 _ grows
  have computes : setting.draft.Computes [.node id] expr.cost := .node laid .nil
  constructor
  · intro made atMost
    exact (Setting.computing computes scheduled atMost).memory
  · cases found : expr.evaluate (Action.reading image state) with
    | ok value =>
        have settles := Setting.settles_expression laid scheduled
        rw [show expr.evaluate (Action.reading setting.image state) = _ from found] at settles
        have reaches : (setting.machine state).Reaches
            (setting.machine (Setting.valued state rest expr.cost value)) :=
          reaches_of_reachesOver settles
        rcases reaches.exists_runFor_eq with ⟨made, counted, same⟩
        have madeAll : made = expr.cost := Nat.add_left_cancel counted.symm
        subst madeAll
        exact same 0
    | error fault =>
        rcases Setting.fails_within laid scheduled found with
          ⟨_, failure, _, _, _, _, ran, raised⟩
        exact ⟨failure, _, ran, raised⟩

/-- A subtraction to whose operands the order matters. -/
def subtraction : Expr :=
  .binary "-" (.num 10) (.binary "-" (.ident "x") (.valueOf "p"))

/-- A subtraction of which both operands have a fault. -/
def mistypedSubtraction : Expr :=
  .binary "-" (.ident "ghost") (.binary "-" (.num 2) (.ident "holds"))

/-- What translation has written after the first subtraction. -/
def subtractionDraft : Draft :=
  match Build.expression subtraction ⟨.initial, .empty⟩ with
  | .ok _ draft | .error _ draft => draft

def subtractionsDraft : Draft :=
  match Build.expression mistypedSubtraction subtractionDraft with
  | .ok _ draft | .error _ draft => draft

/-- A machine about to evaluate both subtractions, on a value stack with other things on
it, where one name stands for a number, one for a pointer, one for a boolean and one for
nothing. -/
def subtracting : Machine :=
  ⟨⟨⟨subtractionsDraft.code, ⟨4⟩⟩, subtractionsDraft.names⟩, ⟨none, false⟩,
    { State.start ⟨4⟩ .silent with
      control := [.node ⟨4⟩, .node ⟨9⟩]
      values := [.boolean true]
      store := ((Store.empty.allocate (.number 3)).2.allocate (.location ⟨0⟩)).2
      environment := ((Environment.empty.bind ⟨1⟩ (.storable (.number 5))).bind ⟨2⟩
        (.storable (.location ⟨1⟩))).bind ⟨4⟩ (.storable (.boolean true)) }⟩

/-- The machine after the first of them. -/
def subtracted : Machine :=
  { subtracting with state := { subtracting.state with
    control := [.node ⟨9⟩]
    values := [.number (10 - (5 - 3)), .boolean true]
    steps := 7 } }

/-- The first subtraction takes its operands in their order. The second fails with the
fault of its right operand. -/
theorem expression_timed_subtracting :
    (Build.expression subtraction ⟨.initial, .empty⟩ =
        .ok (⟨4⟩, .arithmetic) subtractionDraft ∧
      subtractionDraft.Extends subtracting.image.draft ∧
      (∀ made ≤ 7, subtracting.state.SameMemory (subtracting.runFor made).2.state) ∧
      subtracting.runFor 7 = (none, subtracted)) ∧
    (∀ made ≤ 7, subtracted.state.SameMemory (subtracted.runFor made).2.state) ∧
    ∃ failure final, subtracted.runFor 7 = (some (.error failure), final) ∧
      failure.fault = .expectedValue "number" "boolean" := by
  have built : Build.expression subtraction ⟨.initial, .empty⟩ =
      .ok (⟨4⟩, .arithmetic) subtractionDraft := rfl
  have mistypedBuilt : Build.expression mistypedSubtraction subtractionDraft =
      .ok (⟨9⟩, .arithmetic) subtractionsDraft := rfl
  have grows : subtractionDraft.Extends subtracting.image.draft :=
    (Build.ensures_expression mistypedSubtraction _ _ _ mistypedBuilt).1
  have scheduled : subtracting.state.control = [.node ⟨4⟩, .node ⟨9⟩] := rfl
  have scheduledNext : subtracted.state.control = [.node ⟨9⟩] := rfl
  have valued := expression_timed built grows rfl scheduled
  have failed := expression_timed mistypedBuilt (.refl subtracted.image.draft) rfl scheduledNext
  exact ⟨⟨built, grows, valued⟩, failed⟩

end Machine

end BlockMachine
