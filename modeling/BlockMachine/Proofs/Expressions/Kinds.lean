import BlockMachine.Proofs.Expressions.Runs
import BlockMachine.Proofs.Machine.Budget

namespace BlockMachine

/-! # Operand kinds and values

Translation judges an operand by its shape, the machine by its value. What the shape
promises the value keeps; and where translation rejects an operand, there is no value
with which the machine would get past the opcode. -/

/-- Whether an expression of a kind may have a value. -/
def OperandKind.Admits : OperandKind → Bindable → Prop
  | .arithmetic, value => ∃ number, value = .storable (.number number)
  | .logical, value => ∃ holds, value = .storable (.boolean holds)
  | .reference, value => ∃ address, value = .storable (.location address)
  | .generic, _ => True

/-- Whether a fault says that an operand is not of the type that is needed. -/
def Fault.IsMistyped : Fault → Prop
  | .expectedValue .. | .unexpectedType .. => True
  | _ => False

/-- Whether a computation fails as an operand is not of the type that is needed. -/
def Mistyped (found : Except Fault α) : Prop :=
  ∃ fault, found = .error fault ∧ fault.IsMistyped

theorem Mistyped.bind {found : Except Fault α} (mistyped : Mistyped found)
    (next : α → Except Fault β) : Mistyped (found >>= next) := by
  obtain ⟨fault, rfl, isMistyped⟩ := mistyped
  exact ⟨fault, rfl, isMistyped⟩

namespace Bindable

variable {value : Bindable} {kind : OperandKind}

/-- A value is a number or not of the type of numbers. -/
theorem mistyped_number_bind {next : Float → Except Fault α}
    (mistyped : ∀ number, Mistyped (next number)) : Mistyped (value.operand.number >>= next) := by
  cases value with
  | closure => exact ⟨_, rfl, trivial⟩
  | storable value =>
      cases value with
      | number number => exact mistyped number
      | _ => exact ⟨_, rfl, trivial⟩

theorem mistyped_boolean_bind {next : Bool → Except Fault α}
    (mistyped : ∀ holds, Mistyped (next holds)) : Mistyped (value.operand.boolean >>= next) := by
  cases value with
  | closure => exact ⟨_, rfl, trivial⟩
  | storable value =>
      cases value with
      | boolean holds => exact mistyped holds
      | _ => exact ⟨_, rfl, trivial⟩

theorem mistyped_number (admits : kind.Admits value) (notNumeric : kind.isNumeric = false) :
    Mistyped value.operand.number := by
  cases kind with
  | arithmetic | generic => cases notNumeric
  | logical | reference =>
      obtain ⟨_, rfl⟩ := admits
      exact ⟨_, rfl, trivial⟩

theorem mistyped_boolean (admits : kind.Admits value) (notBoolean : kind.isBoolean = false) :
    Mistyped value.operand.boolean := by
  cases kind with
  | logical | generic => cases notBoolean
  | arithmetic | reference =>
      obtain ⟨_, rfl⟩ := admits
      exact ⟨_, rfl, trivial⟩

end Bindable

/-- Whether everything that a computation can yield is good. -/
def Yields (Good : α → Prop) (found : Except Fault α) : Prop :=
  ∀ value, found = .ok value → Good value

namespace Yields

variable {Good : α → Prop} {Result : β → Prop}

theorem pure {value : α} (good : Good value) : Yields Good (.ok value) := by
  intro _ same
  cases same
  exact good

theorem bind {found : Except Fault α} {next : α → Except Fault β} (first : Yields Good found)
    (second : ∀ value, Good value → Yields Result (next value)) :
    Yields Result (found >>= next) := by
  cases found with
  | error fault =>
      intro _ failed
      cases failed
  | ok value => exact second value (first value rfl)

theorem error (fault : Fault) : Yields Good (.error fault) := by
  intro _ failed
  cases failed

/-- Of what has been found nothing needs to be known. -/
theorem after {found : Except Fault α} {next : α → Except Fault β}
    (second : ∀ value, Yields Result (next value)) : Yields Result (found >>= next) :=
  bind (fun _ _ => trivial) fun value _ => second value

end Yields

/-! ## Operators -/

namespace BinaryOperator

variable {op : BinaryOperator} {lhs rhs : Bindable} {lhsKind rhsKind : OperandKind}

/-- The kind of an application. -/
def resultKind : BinaryOperator → OperandKind
  | .arith _ => .arithmetic
  | .logic _ => .logical

theorem resultKind_of_check {kind : OperandKind} (accepted : op.check lhsKind rhsKind = .ok kind) :
    kind = op.resultKind := by
  cases op with
  | arith | logic => exact kind_of_check accepted

theorem yields_equal (lhs rhs : Operand) :
    Yields (fun result => OperandKind.logical.Admits (.storable result)) (lhs.equal rhs) := by
  intro result found
  unfold Operand.equal at found
  split at found
  · cases found
    exact ⟨_, rfl⟩
  · cases found
    exact ⟨_, rfl⟩
  · cases found

/-- An operator yields values of the kind that its applications have. -/
theorem yields_combine (op : BinaryOperator) (lhs rhs : Operand) :
    Yields (fun result => op.resultKind.Admits (.storable result)) (op.combine lhs rhs) := by
  cases op with
  | arith op =>
      cases op with
      | div =>
          refine .after fun left => .after fun right => ?_
          dsimp only
          split
          · exact .error _
          · exact .pure ⟨_, rfl⟩
      | _ => exact .after fun _ => .after fun _ => .pure ⟨_, rfl⟩
  | logic op =>
      cases op with
      | eq => exact yields_equal lhs rhs
      | _ => exact .after fun _ => .after fun _ => .pure ⟨_, rfl⟩

theorem requireBoth_eq_error {expected : Expectation} {accepts : OperandKind → Bool}
    {rejection : Rejection}
    (rejected : op.requireBoth expected accepts lhsKind rhsKind = .error rejection) :
    accepts lhsKind = false ∨ accepts rhsKind = false := by
  cases acceptsLeft : accepts lhsKind with
  | false => exact .inl rfl
  | true =>
      cases acceptsRight : accepts rhsKind with
      | false => exact .inr rfl
      | true =>
          simp [requireBoth, Construct.require, acceptsLeft, acceptsRight, bind, Except.bind]
            at rejected

theorem mistyped_numbers {next : Float → Float → Except Fault α}
    (lhsAdmits : lhsKind.Admits lhs) (rhsAdmits : rhsKind.Admits rhs)
    (notNumeric : lhsKind.isNumeric = false ∨ rhsKind.isNumeric = false) :
    Mistyped (lhs.operand.number >>= fun left => rhs.operand.number >>= next left) := by
  rcases notNumeric with left | right
  · exact (Bindable.mistyped_number lhsAdmits left).bind _
  · exact Bindable.mistyped_number_bind fun _ => (Bindable.mistyped_number rhsAdmits right).bind _

theorem mistyped_booleans {next : Bool → Bool → Except Fault α}
    (lhsAdmits : lhsKind.Admits lhs) (rhsAdmits : rhsKind.Admits rhs)
    (notBoolean : lhsKind.isBoolean = false ∨ rhsKind.isBoolean = false) :
    Mistyped (lhs.operand.boolean >>= fun left => rhs.operand.boolean >>= next left) := by
  rcases notBoolean with left | right
  · exact (Bindable.mistyped_boolean lhsAdmits left).bind _
  · exact Bindable.mistyped_boolean_bind fun _ => (Bindable.mistyped_boolean rhsAdmits right).bind _

/-- An address equals nothing, and a number no boolean. -/
theorem mistyped_equal {rejection : Rejection}
    (rejected : (logic .eq).check lhsKind rhsKind = .error rejection)
    (lhsAdmits : lhsKind.Admits lhs) (rhsAdmits : rhsKind.Admits rhs) :
    Mistyped (lhs.operand.equal rhs.operand) := by
  have ofLeft (address : Address) :
      Mistyped (Operand.equal (.storable (.location address)) rhs.operand) :=
    ⟨_, rfl, trivial⟩
  have ofRight (address : Address) :
      Mistyped (lhs.operand.equal (.storable (.location address))) := by
    cases lhs with
    | closure => exact ⟨_, rfl, trivial⟩
    | storable value => cases value <;> exact ⟨_, rfl, trivial⟩
  cases rhsKind with
  | reference =>
      obtain ⟨address, rfl⟩ := rhsAdmits
      exact ofRight address
  | generic =>
      cases lhsKind with
      | reference =>
          obtain ⟨address, rfl⟩ := lhsAdmits
          exact ofLeft address
      | _ => cases rejected
  | arithmetic | logical =>
      obtain ⟨_, rfl⟩ := rhsAdmits
      cases lhsKind with
      | reference =>
          obtain ⟨address, rfl⟩ := lhsAdmits
          exact ofLeft address
      | generic => cases rejected
      | arithmetic | logical =>
          obtain ⟨_, rfl⟩ := lhsAdmits
          first | exact ⟨_, rfl, trivial⟩ | cases rejected

/-- Where translation rejects the operands, no values of their kinds suit the operator. -/
theorem mistyped_combine {rejection : Rejection}
    (rejected : op.check lhsKind rhsKind = .error rejection)
    (lhsAdmits : lhsKind.Admits lhs) (rhsAdmits : rhsKind.Admits rhs) :
    Mistyped (op.combine lhs.operand rhs.operand) := by
  have required {expected : Expectation} {accepts : OperandKind → Bool}
      (failed : (op.requireBoth expected accepts lhsKind rhsKind >>= fun _ =>
        pure op.resultKind) = .error rejection) :
      accepts lhsKind = false ∨ accepts rhsKind = false := by
    cases both : op.requireBoth expected accepts lhsKind rhsKind with
    | error => exact requireBoth_eq_error both
    | ok =>
        rw [both] at failed
        cases failed
  cases op with
  | arith op =>
      cases op with
      | _ => exact mistyped_numbers lhsAdmits rhsAdmits (required rejected)
  | logic op =>
      cases op with
      | eq => exact mistyped_equal rejected lhsAdmits rhsAdmits
      | and | or => exact mistyped_booleans lhsAdmits rhsAdmits (required rejected)
      | _ => exact mistyped_numbers lhsAdmits rhsAdmits (required rejected)

end BinaryOperator

/-! ## Shapes -/

/-- The value of an expression is of the kind that its shape gives it. -/
theorem Build.ensures_kind (expr : Expr) :
    (expression expr).Ensures fun _ result =>
      ∀ reading, Yields result.2.Admits (expr.evaluate reading) := by
  cases expr with
  | ident text =>
      exact (Ensures.intern text).bind fun _ => (Ensures.alloc _).bind fun _ =>
        .pure fun _ _ _ _ _ _ => trivial
  | num value =>
      exact (Ensures.alloc _).bind fun _ => .pure fun _ _ _ => .pure ⟨value, rfl⟩
  | bool value =>
      exact (Ensures.alloc _).bind fun _ => .pure fun _ _ _ => .pure ⟨value, rfl⟩
  | binary lexeme lhs rhs =>
      unfold expression
      split
      next => exact .reject _
      next op known =>
        refine (ensures_expression lhs).bind fun left => (ensures_expression rhs).bind fun right =>
          (Ensures.checked fun _ _ accepted => BinaryOperator.resultKind_of_check accepted).bind
            fun kind => (Ensures.alloc _).bind fun id => .pure ?_
        intro _ _ sameKind _ _ reading
        simp only [Expr.evaluate, known, sameKind]
        refine .after fun rightValue => .after fun leftValue => ?_
        exact (op.yields_combine leftValue.operand rightValue.operand).bind fun _ admits =>
          .pure admits
  | not operand =>
      refine (ensures_expression operand).bind fun inner =>
        (Ensures.checked fun _ _ _ => trivial).bind fun _ => (Ensures.alloc _).bind fun id =>
        .pure ?_
      intro _ _ _ _ reading
      exact .after fun value => .bind (.after fun holds => .pure ⟨!holds, rfl⟩) fun _ admits =>
        .pure admits
  | addressOf text =>
      exact (Ensures.intern text).bind fun _ => (Ensures.alloc _).bind fun _ =>
        .pure fun _ _ _ _ => .after fun address => .pure ⟨address, rfl⟩
  | valueOf text =>
      exact (Ensures.intern text).bind fun _ => (Ensures.alloc _).bind fun _ =>
        .pure fun _ _ _ _ _ _ => trivial

/-! ## Constructs that get stuck -/

/-- The nodes and the opcode of a construct that restricts its operands. -/
inductive Construct.Builds : Construct → List NodeId → Node → Opcode → Prop where
  | operator (op : BinaryOperator) (lhs rhs : NodeId) :
      Builds (.operator op) [lhs, rhs] (.ofOperator op lhs rhs) op.opcode
  | negation (operand : NodeId) : Builds .negation [operand] (.not operand) .not
  | conditional (condition thenBranch : NodeId) (elseBranch : Option NodeId) :
      Builds .conditional [condition] (.conditional condition thenBranch elseBranch) .cond
  | loop (condition body : NodeId) : Builds .loop [condition] (.loop condition body) .loop

/-- The node of a construct has its operands evaluated, from the last to the first, and then
its opcode applied. -/
theorem Construct.Builds.agenda {construct : Construct} {operands : List NodeId} {node : Node}
    {opcode : Opcode} (builds : construct.Builds operands node opcode) (code : Code) (id : NodeId) :
    (∃ parked, node.agenda? code id =
      some (parked, operands.reverse.map .node ++ [.op opcode])) ∧
      ∀ span, node ≠ .recBind span := by
  cases builds with
  | operator op lhs rhs =>
      exact ⟨⟨[], Node.agenda?_ofOperator code id op lhs rhs⟩, Node.ofOperator_ne_recBind op lhs rhs⟩
  | negation | conditional | loop => exact ⟨⟨_, rfl⟩, by simp⟩

/-- Whether a construct is rejected for the kinds of its operands, after these have been
translated. -/
inductive Build.Mismatches (before after : Draft) : Construct → List NodeId → Prop where
  | operator {lexeme : String} {op : BinaryOperator} {lhs rhs : Expr} {left right : NodeId}
      {lhsKind rhsKind found : OperandKind} {middle : Draft} {construct : Construct}
      {expected : Expectation} (known : BinaryOperator.ofLexeme? lexeme = some op)
      (lhsBuilt : expression lhs before = .ok (left, lhsKind) middle)
      (rhsBuilt : expression rhs middle = .ok (right, rhsKind) after)
      (rejected : expression (.binary lexeme lhs rhs) before =
        .error (.mismatchedOperand construct expected found) after) :
      Mismatches before after (.operator op) [left, right]
  | negation {operand : Expr} {inner : NodeId} {kind found : OperandKind}
      {construct : Construct} {expected : Expectation}
      (built : expression operand before = .ok (inner, kind) after)
      (rejected : expression (.not operand) before =
        .error (.mismatchedOperand construct expected found) after) :
      Mismatches before after .negation [inner]
  | condition {test : Expr} {id : NodeId} {kind found : OperandKind}
      {construct other : Construct} {expected : Expectation}
      (built : expression test before = .ok (id, kind) after)
      (rejected : condition construct test before =
        .error (.mismatchedOperand other expected found) after) :
      Mismatches before after construct [id]

namespace Build

variable {before middle after : Draft} {rejection : Rejection}

theorem check_eq_error {lexeme : String} {op : BinaryOperator} {lhs rhs : Expr}
    {left right : NodeId} {lhsKind rhsKind : OperandKind}
    (known : BinaryOperator.ofLexeme? lexeme = some op)
    (lhsBuilt : expression lhs before = .ok (left, lhsKind) middle)
    (rhsBuilt : expression rhs middle = .ok (right, rhsKind) after)
    (rejected : expression (.binary lexeme lhs rhs) before = .error rejection after) :
    ∃ rejection, op.check lhsKind rhsKind = .error rejection := by
  cases outcome : op.check lhsKind rhsKind with
  | error rejection => exact ⟨rejection, rfl⟩
  | ok kind =>
      simp only [expression, known, bind, EStateM.bind, lhsBuilt, rhsBuilt, outcome] at rejected
      cases rejected

theorem isBoolean_eq_false {construct : Construct} {kind : OperandKind}
    (rejected : construct.requireBoolean kind = .error rejection) : kind.isBoolean = false := by
  cases accepts : kind.isBoolean with
  | false => rfl
  | true => simp [Construct.requireBoolean, Construct.require, accepts] at rejected

theorem requireBoolean_eq_error_of_not {operand : Expr} {id : NodeId} {kind : OperandKind}
    (built : expression operand before = .ok (id, kind) after)
    (rejected : expression (.not operand) before = .error rejection after) :
    ∃ rejection, Construct.negation.requireBoolean kind = .error rejection := by
  cases outcome : Construct.negation.requireBoolean kind with
  | error rejection => exact ⟨rejection, rfl⟩
  | ok =>
      simp only [expression, bind, EStateM.bind, built, outcome] at rejected
      cases rejected

theorem requireBoolean_eq_error_of_condition {construct : Construct} {test : Expr} {id : NodeId}
    {kind : OperandKind} (built : expression test before = .ok (id, kind) after)
    (rejected : condition construct test before = .error rejection after) :
    ∃ rejection, construct.requireBoolean kind = .error rejection := by
  cases outcome : construct.requireBoolean kind with
  | error rejection => exact ⟨rejection, rfl⟩
  | ok =>
      simp only [condition, bind, EStateM.bind, built, outcome] at rejected
      cases rejected

end Build

/-- Whether an action fails as an operand is not of the type that is needed. -/
def Action.RaisesMistyped (action : Action α) (before : State) : Prop :=
  ∃ fault stopped, action before = .error fault stopped ∧ fault.IsMistyped

namespace Action.RaisesMistyped

variable {before : State}

theorem bind {action : Action α} {next : α → Action β} (raises : RaisesMistyped action before) :
    RaisesMistyped (action >>= next) before := by
  obtain ⟨fault, stopped, raised, isMistyped⟩ := raises
  exact ⟨fault, stopped, bind_eq_error_iff.mpr (.inl raised), isMistyped⟩

theorem of_accords {Good : β → α → State → Prop} {found : Except Fault β} {action : Action α}
    (accords : Accords Good found (action before)) (mistyped : Mistyped found) :
    RaisesMistyped action before := by
  obtain ⟨fault, rfl, isMistyped⟩ := mistyped
  generalize acted : action before = result at accords
  cases accords with
  | error _ stopped => exact ⟨fault, stopped, acted, isMistyped⟩

end Action.RaisesMistyped

namespace Setting

open Machine

/-- Whether the machine fails without having carried out an opcode that is scheduled over
`rest`: on an operand above the opcode, or at the opcode as an operand is mistyped. -/
def GetsStuck (setting : Setting) (rest : List Control) (opcode : Opcode) (start : State) : Prop :=
  ∃ last stopped fault,
    Relation.ReflTransGen (AdvancesOver (.op opcode :: rest)) (setting.machine start)
      (setting.machine last) ∧
    (setting.machine last).Fails fault (setting.machine stopped) ∧
    ((∃ entry front, last.control = entry :: (front ++ .op opcode :: rest)) ∨
      last.control = .op opcode :: rest ∧ fault.IsMistyped)

variable {setting : Setting} {rest : List Control} {opcode : Opcode} {start next : State}

namespace GetsStuck

/-- An operand fails, or leaves a value with which the machine gets stuck. -/
theorem of_operand {Done : α → State} {found : Except Fault α} (front : List Control)
    (settles : setting.Settles (front ++ .op opcode :: rest) start Done found)
    (stuck : ∀ value, found = .ok value → setting.GetsStuck rest opcode (Done value)) :
    setting.GetsStuck rest opcode start := by
  cases found with
  | ok value =>
      obtain ⟨last, stopped, fault, reaches, fails⟩ := stuck value rfl
      exact ⟨last, stopped, fault, (reachesOver_below settles).trans reaches, fails⟩
  | error fault =>
      obtain ⟨last, stopped, entry, upper, reaches, scheduled, fails⟩ := settles
      refine ⟨last, stopped, fault, reachesOver_below reaches, fails,
        .inl ⟨entry, upper ++ front, ?_⟩⟩
      rw [scheduled, List.append_assoc]

theorem of_raises (scheduled : start.control = .op opcode :: rest)
    (raises : Action.RaisesMistyped (Action.apply setting.image opcode) (begin start rest)) :
    setting.GetsStuck rest opcode start := by
  obtain ⟨fault, stopped, raised, isMistyped⟩ := raises
  exact ⟨start, stopped, fault, .refl, fails_of_execute scheduled raised,
    .inr ⟨scheduled, isMistyped⟩⟩

/-- An operand that is never a boolean, over an opcode that needs one. -/
theorem of_condition {expr : Expr} {id : NodeId} {kind : OperandKind}
    {continuation : Bool → Action Unit} (laid : setting.draft.LaysExpr expr id)
    (yields : ∀ reading, Yields kind.Admits (expr.evaluate reading))
    (notBoolean : kind.isBoolean = false)
    (applies : Action.apply setting.image opcode =
      Action.onValues ValueStack.popBoolean >>= continuation)
    (scheduled : start.control = .node id :: .op opcode :: rest) :
    setting.GetsStuck rest opcode start := by
  refine of_operand [] (settles_expression laid scheduled) ?_
  intro value found
  refine of_raises rfl ?_
  rw [applies]
  apply Action.RaisesMistyped.bind
  exact .of_accords (Action.accords_boolean rfl)
    (Bindable.mistyped_boolean (yields _ value found) notBoolean)

end GetsStuck

/-- The shape of the operands forebodes that the machine gets stuck. -/
theorem getsStuck_of_mismatches {before after : Draft} {construct : Construct}
    {operands : List NodeId} {node : Node}
    (mismatches : Build.Mismatches before after construct operands)
    (grows : after.Extends setting.draft) (builds : construct.Builds operands node opcode)
    (scheduled : start.control = operands.reverse.map .node ++ .op opcode :: rest) :
    setting.GetsStuck rest opcode start := by
  cases mismatches with
  | @operator lexeme op lhs rhs left right lhsKind rhsKind _ middle _ _ known lhsBuilt rhsBuilt
      rejected =>
      obtain ⟨rejection, checked⟩ := Build.check_eq_error known lhsBuilt rhsBuilt rejected
      obtain ⟨_, lhsLaid⟩ := Build.ensures_expression lhs _ _ _ lhsBuilt
      obtain ⟨grown, rhsLaid⟩ := Build.ensures_expression rhs _ _ _ rhsBuilt
      have lhsYields := (Build.ensures_kind lhs _ _ _ lhsBuilt).2 middle (.refl _)
      have rhsYields := (Build.ensures_kind rhs _ _ _ rhsBuilt).2 after (.refl _)
      cases builds with
      | operator =>
      refine .of_operand [.node left] (settles_expression (rhsLaid _ grows) scheduled) ?_
      intro rightValue rightFound
      refine .of_operand [] (settles_expression (lhsLaid _ (grown.trans grows)) rfl) ?_
      intro leftValue leftFound
      refine .of_raises rfl (.of_accords (Action.accords_combine setting.image op rfl) ?_)
      exact BinaryOperator.mistyped_combine checked (lhsYields _ _ leftFound)
        (rhsYields _ _ rightFound)
  | @negation operand inner kind _ _ _ built rejected =>
      obtain ⟨_, required⟩ := Build.requireBoolean_eq_error_of_not built rejected
      have notBoolean := Build.isBoolean_eq_false required
      obtain ⟨_, laid⟩ := Build.ensures_expression operand _ _ _ built
      have yields := (Build.ensures_kind operand _ _ _ built).2 after (.refl _)
      cases builds with
      | negation => exact .of_condition (laid _ grows) yields notBoolean rfl scheduled
  | @condition test inner kind _ construct _ _ built rejected =>
      obtain ⟨_, required⟩ := Build.requireBoolean_eq_error_of_condition built rejected
      have notBoolean := Build.isBoolean_eq_false required
      obtain ⟨_, laid⟩ := Build.ensures_expression test _ _ _ built
      have yields := (Build.ensures_kind test _ _ _ built).2 after (.refl _)
      cases builds with
      | negation | conditional | loop =>
          exact .of_condition (laid _ grows) yields notBoolean rfl scheduled

end Setting

namespace Machine

/-- The setting of a machine without its budget. -/
def setting (machine : Machine) : Setting :=
  ⟨machine.image, machine.unlimited.options, machine.state.printer, rfl⟩

/-- What an expression has left when it has been carried out is of the kind of its shape. -/
theorem admits_of_finished {expr : Expr} {before after : Draft} {id : NodeId}
    {kind : OperandKind} (built : Build.expression expr before = .ok (id, kind) after)
    {start final : Machine} {rest : List Control} (grows : after.Extends start.image.draft)
    (scheduled : start.state.control = .node id :: rest)
    (run : Relation.ReflTransGen (AdvancesOver rest) start final)
    (finished : final.state.control = rest) :
    ∃ value, final.state.values = .bindable value :: start.state.values ∧ kind.Admits value := by
  have laid := (Build.ensures_expression expr _ _ _ built).2 _ grows
  have yields := (Build.ensures_kind expr _ _ _ built).2 _ grows
  have settles := @Setting.settles_expression start.setting _ start.state _ _ laid scheduled
  have unlimited := reachesOver_unlimited run
  cases found : expr.evaluate (Action.reading start.setting.image start.state) with
  | ok value =>
      have settled : Relation.ReflTransGen (AdvancesOver rest) start.unlimited
          (start.setting.machine (Setting.valued start.state rest expr.cost value)) := by
        rw [found] at settles
        exact settles
      have same := congrArg Machine.state (reachesOver_unique unlimited settled finished rfl)
      exact ⟨value, congrArg State.values same, yields _ value found⟩
  | error fault =>
      rw [found] at settles
      obtain ⟨last, stopped, entry, front, reaches, left, fails⟩ := settles
      have notFinished : final.unlimited.state.control ≠ rest :=
        not_finished_of_fails unlimited reaches left fails
      exact absurd finished notFinished

/-- A machine that would get stuck does so, if it does not use up its budget before. -/
theorem fails_of_getsStuck {next : Machine} {rest : List Control} {opcode : Opcode}
    (stuck : next.setting.GetsStuck rest opcode next.state) :
    ∃ last fault stopped, Relation.ReflTransGen (AdvancesOver (.op opcode :: rest)) next last ∧
      last.Fails fault stopped ∧
      ((∃ limit, fault = .stepBudgetExceeded limit) ∨
        (∃ entry front, last.state.control = entry :: (front ++ .op opcode :: rest)) ∨
        last.state.control = .op opcode :: rest ∧ fault.IsMistyped) := by
  obtain ⟨last, stopped, fault, reaches, fails, place⟩ := stuck
  have unlimited : Relation.ReflTransGen (AdvancesOver (.op opcode :: rest)) next.unlimited
      (next.setting.machine last) := reaches
  obtain ⟨limited, reachesLimited, same | ⟨limit, exceeded⟩⟩ := reachesOver_of_unlimited unlimited
  · have sameState : limited.state = last := congrArg Machine.state same
    rw [← same] at fails
    obtain ⟨raised, after, failed, rfl | ⟨limit, rfl⟩⟩ := fails_of_unlimited fails
    · exact ⟨limited, raised, after, reachesLimited, failed, .inr (sameState ▸ place)⟩
    · exact ⟨limited, _, after, reachesLimited, failed, .inl ⟨limit, rfl⟩⟩
  · exact ⟨limited, _, limited, reachesLimited, exceeded, .inl ⟨limit, rfl⟩⟩

/-- Operand kinds and machine agree.

The value of an accepted expression, in whatever state of the machine it is evaluated, is
a number, a boolean or an address where its kind is arithmetic, logical or a reference.
And where an operator, a negation or a condition is rejected for the kinds of its operands,
the node that would have been built from them never gets past its opcode, in no state. If
the machine does not use up its budget, one of the operands fails, or the opcode fails as
an operand is not of the type it needs. -/
theorem operand_kinds_agree :
    (∀ expr before id kind after, Build.expression expr before = .ok (id, kind) after →
      ∀ (start final : Machine) rest, after.Extends start.image.draft →
        start.state.control = .node id :: rest →
        Relation.ReflTransGen (AdvancesOver rest) start final → final.state.control = rest →
        ∃ value, final.state.values = .bindable value :: start.state.values ∧
          kind.Admits value) ∧
    ∀ before after construct operands node opcode,
      Build.Mismatches before after construct operands →
      construct.Builds operands node opcode →
      ∀ (start : Machine) id rest, after.Extends start.image.draft →
        start.image.code.node? id = some node → start.state.control = .node id :: rest →
        (∃ limit, start.Fails (.stepBudgetExceeded limit) start) ∨
        ∃ next last fault stopped, start.Advances next ∧
          next.state.control = operands.reverse.map .node ++ .op opcode :: rest ∧
          Relation.ReflTransGen (AdvancesOver (.op opcode :: rest)) next last ∧
          last.Fails fault stopped ∧
          ((∃ limit, fault = .stepBudgetExceeded limit) ∨
            (∃ entry front, last.state.control = entry :: (front ++ .op opcode :: rest)) ∨
            last.state.control = .op opcode :: rest ∧ fault.IsMistyped) := by
  constructor
  · intro expr before id kind after built start final rest grows scheduled run finished
    exact admits_of_finished built grows scheduled run finished
  · intro before after construct operands node opcode mismatches builds start id rest grows fetched
      scheduled
    obtain ⟨⟨parked, agenda⟩, noGroup⟩ := builds.agenda start.image.code id
    rcases start with ⟨image, options, state⟩
    cases exceeded : options.exceeded? state.steps with
    | some limit => exact .inl ⟨limit, fails_of_exceeded scheduled exceeded⟩
    | none =>
        let entered : State := { begin state rest with
          values := parked ++ state.values
          control := (operands.reverse.map .node ++ [.op opcode]) ++ rest }
        have rule : Rule image (.node id) (begin state rest) entered :=
          .agenda fetched agenda fun span isGroup => absurd isGroup (noGroup span)
        have operandsFirst : entered.control = operands.reverse.map .node ++ .op opcode :: rest :=
          List.append_assoc _ [.op opcode] rest
        let next : Machine := ⟨image, options, entered⟩
        have stuck : next.setting.GetsStuck rest opcode next.state :=
          Setting.getsStuck_of_mismatches mismatches grows builds operandsFirst
        obtain ⟨last, fault, stopped, fails⟩ := fails_of_getsStuck stuck
        exact .inr ⟨next, last, fault, stopped, advances_of_rule scheduled exceeded rule,
          operandsFirst, fails⟩

/-- The conjunction of a boolean and an address, had it not been rejected. -/
def conjoining : Image :=
  let (name, names) := NameTable.initial.intern "cell"
  ⟨⟨⟨#[.truth true, .addressOf name, .logic .and ⟨0⟩ ⟨1⟩], .empty, .empty, .empty⟩, ⟨2⟩⟩, names⟩

/-- The machine evaluates both operands, and then finds that the second is no boolean. -/
theorem operand_kinds_agree_conjoining :
    let before : Draft := ⟨.initial, .empty⟩
    let after : Draft := ⟨conjoining.names, ⟨conjoining.code.nodes.take 2, .empty, .empty, .empty⟩⟩
    let start : Machine := ⟨conjoining, .unbounded, { State.start ⟨2⟩ .silent with
      environment := Environment.empty.bind ⟨1⟩ (.storable (.location ⟨0⟩)) }⟩
    Build.Mismatches before after (.operator (.logic .and)) [⟨0⟩, ⟨1⟩] ∧
      after.Extends start.image.draft ∧
      (start.runFor 3).2.step.1.fault? = some (.expectedValue "boolean" "location") ∧
      ((∃ limit, start.Fails (.stepBudgetExceeded limit) start) ∨
        ∃ next last fault stopped, start.Advances next ∧
          next.state.control = [.node ⟨1⟩, .node ⟨0⟩, .op (.logic .and)] ∧
          Relation.ReflTransGen (AdvancesOver [.op (.logic .and)]) next last ∧
          last.Fails fault stopped ∧
          ((∃ limit, fault = .stepBudgetExceeded limit) ∨
            (∃ entry front, last.state.control = entry :: (front ++ [.op (.logic .and)])) ∨
            last.state.control = [.op (.logic .and)] ∧ fault.IsMistyped)) := by
  intro before after start
  let middle : Draft := ⟨.initial, ⟨#[.truth true], .empty, .empty, .empty⟩⟩
  have lhsBuilt : Build.expression (.bool true) before = .ok (⟨0⟩, .logical) middle := rfl
  have rhsBuilt : Build.expression (.addressOf "cell") middle = .ok (⟨1⟩, .reference) after := rfl
  have rejected : Build.expression (.binary "and" (.bool true) (.addressOf "cell")) before =
      .error (.mismatchedOperand (.operator (.logic .and)) .logical .reference) after := rfl
  have mismatches : Build.Mismatches before after (.operator (.logic .and)) [⟨0⟩, ⟨1⟩] :=
    .operator rfl lhsBuilt rhsBuilt rejected
  have grows : after.Extends start.image.draft :=
    ⟨List.prefix_refl _, ⟨[.logic .and ⟨0⟩ ⟨1⟩], rfl⟩, List.prefix_refl _, List.prefix_refl _,
      List.prefix_refl _⟩
  refine ⟨mismatches, grows, by decide +kernel, ?_⟩
  exact operand_kinds_agree.2 before after _ _ _ _ mismatches (.operator (.logic .and) ⟨0⟩ ⟨1⟩) start
    ⟨2⟩ [] grows rfl rfl

end Machine

end BlockMachine
