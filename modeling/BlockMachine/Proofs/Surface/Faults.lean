import BlockMachine.Proofs.Surface.Phrases

namespace BlockMachine

/-! # Faults of surface programs

Where an evaluation stops, the reason is one that a program can have: an operand or
an actual of the wrong type, an identifier that does not stand for what is asked of
it, a dead cell, or a division by zero. What a fault says about values and
identifiers is said of values of the language and of identifiers of the program. -/

/-- The faults that a program may end with. -/
inductive Fault.OfProgram (body : List Command) : Fault → Prop where
  | expectedNumber (found : Bindable) : OfProgram body (.expectedValue "number" found.typeName)
  | expectedBoolean (found : Bindable) : OfProgram body (.expectedValue "boolean" found.typeName)
  | expectedStorable (found : ClosureRef) :
      OfProgram body (.expectedValue "storable value" (Bindable.closure found).typeName)
  | unexpectedType (left right : Bindable) :
      OfProgram body (.unexpectedType "EQ" left.typeName right.typeName)
  | undefinedVariable {name : String} (mentioned : Mentions body name) :
      OfProgram body (.undefinedVariable name)
  | unexpectedImmutableVariable {name : String} (mentioned : Mentions body name) :
      OfProgram body (.unexpectedImmutableVariable name)
  | expectedLocation {name : String} (mentioned : Mentions body name) :
      OfProgram body (.expectedLocation name)
  | expectedFunctionIdentifier {name : String} (mentioned : Mentions body name) :
      OfProgram body (.expectedFunctionIdentifier name)
  | missingParametersInCall {name : String} (mentioned : Mentions body name)
      (expected got : Nat) : OfProgram body (.missingParametersInCall name expected got)
  | excessParametersInCall {name : String} (mentioned : Mentions body name)
      (expected got : Nat) : OfProgram body (.excessParametersInCall name expected got)
  | undefinedStorageAddress (address : Address) :
      OfProgram body (.undefinedStorageAddress address)
  | divisionByZero : OfProgram body .divisionByZero
  | stepBudgetExceeded (limit : Nat) : OfProgram body (.stepBudgetExceeded limit)

/-- Whether all binary applications of a program are of operators. -/
def KnowsOperators (body : List Command) : Prop :=
  ∀ scope lexeme lhs rhs, Contains body scope (.expression (.binary lexeme lhs rhs)) →
    ∃ op, BinaryOperator.ofLexeme? lexeme = some op

/-- Whether a value is plain data or a function of a program. -/
inductive Value.IsFrom (body : List Command) : Value → Prop where
  | storable (value : Storable) : IsFrom body (.storable value)
  | function {formals scope : List String} {inner : Block} {captured : Scope}
      {group : List Function} (contains : Contains body scope (.command (.block inner)))
      (captures : ∀ entry ∈ captured, IsFrom body entry.2)
      (members : ∀ member ∈ group, ∃ declared outer,
        Contains body outer (.function declared member)) :
      IsFrom body (.function formals inner captured group)

/-- Operands have the types that values have. -/
theorem Operand.exists_operand_eq (operand : Operand) :
    ∃ bound : Bindable, bound.operand = operand := by
  cases operand with
  | storable value => exact ⟨.storable value, rfl⟩
  | function => exact ⟨.closure default, rfl⟩

/-- A function that is declared in a program is one of its functions. -/
theorem Function.isFrom_toValue {body : List Command} {scope : List String} {captured : Scope}
    {declared group : List Function} {function : Function}
    (contains : Contains body scope (.function declared function))
    (captures : ∀ entry ∈ captured, entry.2.IsFrom body)
    (members : ∀ member ∈ group, ∃ declared outer,
      Contains body outer (.function declared member)) :
    (function.toValue captured group).IsFrom body := by
  cases function with
  | mk name formals inner =>
      exact .function (contains.part List.mem_cons_self) captures members

namespace Evaluation

/-- Whether an evaluation, in whatever world, has a result of some kind, stops with a
fault of the program or runs out of fuel. -/
def Only (body : List Command) (action : Evaluation α) (Good : α → Prop) : Prop :=
  ∀ world, match action world with
    | .ok result _ => Good result
    | .error (.fault fault) _ => fault.OfProgram body
    | .error .outOfFuel _ => True

variable {body : List Command} {Good : α → Prop}

namespace Only

theorem pure {result : α} (good : Good result) : Only body (Pure.pure result) Good :=
  fun _ => good

theorem fail {fault : Fault} (ofProgram : fault.OfProgram body) :
    Only body (fail fault : Evaluation α) Good :=
  fun _ => ofProgram

theorem change (step : World → World) : Only body (change step) fun _ => True :=
  fun _ => trivial

theorem bind {action : Evaluation α} {next : α → Evaluation β} {Result : β → Prop}
    (first : action.Only body Good) (second : ∀ value, Good value → (next value).Only body Result) :
    (action >>= next).Only body Result := by
  intro world
  have started := first world
  simp only [Bind.bind, EStateM.bind]
  cases evaluated : action world with
  | ok value middle =>
      rw [evaluated] at started
      exact second value started middle
  | error reason middle =>
      rw [evaluated] at started
      cases reason <;> exact started

theorem forM {run : Command → Evaluation Unit} {commands : List Command}
    (each : ∀ current ∈ commands, (run current).Only body fun _ => True) :
    (commands.forM run).Only body fun _ => True := by
  induction commands with
  | nil => exact pure trivial
  | cons current commands induction =>
      exact (each current List.mem_cons_self).bind fun _ _ =>
        induction fun other member => each other (List.mem_cons_of_mem _ member)

end Only

/-! ## Values and cells -/

theorem ofExcept_bind (found : Except Fault α) (next : α → Except Fault β) :
    ofExcept (found >>= next) = ofExcept found >>= fun value => ofExcept (next value) := by
  cases found <;> rfl

theorem only_number (operand : Operand) : (ofExcept operand.number).Only body fun _ => True := by
  unfold Operand.number
  split
  · exact .pure trivial
  · rcases operand.exists_operand_eq with ⟨bound, rfl⟩
    rw [Operand.typeName_operand]
    exact .fail (.expectedNumber bound)

theorem only_boolean (operand : Operand) : (ofExcept operand.boolean).Only body fun _ => True := by
  unfold Operand.boolean
  split
  · exact .pure trivial
  · rcases operand.exists_operand_eq with ⟨bound, rfl⟩
    rw [Operand.typeName_operand]
    exact .fail (.expectedBoolean bound)

theorem only_storable (value : Value) : (storable value).Only body fun _ => True := by
  cases value with
  | storable value => exact .pure trivial
  | function => exact .fail (.expectedStorable default)

theorem only_read (address : Address) : (read address).Only body fun _ => True := by
  intro world
  unfold read
  cases world.cells address with
  | some value => trivial
  | none => exact .undefinedStorageAddress address

theorem only_write (address : Address) (value : Storable) :
    (write address value).Only body fun _ => True := by
  intro world
  unfold write
  cases world.cells address with
  | some held => trivial
  | none => exact .undefinedStorageAddress address

variable {scope : Scope} {name : String}

theorem only_find (sound : ∀ entry ∈ scope, entry.2.IsFrom body) (mentioned : Mentions body name) :
    (find scope name).Only body (Value.IsFrom body) := by
  unfold find
  cases found : scope.lookup name with
  | none => exact .fail (.undefinedVariable mentioned)
  | some value =>
      rcases List.lookup_eq_some_iff.mp found with ⟨front, back, rfl, _⟩
      exact .pure (sound (name, value) (by simp))

theorem only_locate (sound : ∀ entry ∈ scope, entry.2.IsFrom body)
    (mentioned : Mentions body name) : (locate scope name).Only body fun _ => True := by
  refine (only_find sound mentioned).bind fun value _ => ?_
  split
  · exact .pure trivial
  · exact .fail (.expectedLocation mentioned)

/-! ## Expressions -/

theorem only_negate (operand : Operand) : (ofExcept operand.negate).Only body fun _ => True := by
  rw [Operand.negate, ofExcept_bind]
  exact (only_boolean operand).bind fun _ _ => .pure trivial

theorem only_calculate (lhs rhs : Operand) {result : Float → Float → Except Fault Storable}
    (computes : ∀ left right, (ofExcept (result left right)).Only body fun _ => True) :
    (ofExcept (lhs.calculate rhs result)).Only body fun _ => True := by
  rw [Operand.calculate, ofExcept_bind]
  refine (only_number lhs).bind fun left _ => ?_
  rw [ofExcept_bind]
  exact (only_number rhs).bind fun right _ => computes left right

theorem only_connect (lhs rhs : Operand) (connective : Bool → Bool → Bool) :
    (ofExcept (lhs.connect rhs connective)).Only body fun _ => True := by
  rw [Operand.connect, ofExcept_bind]
  refine (only_boolean lhs).bind fun left _ => ?_
  rw [ofExcept_bind]
  exact (only_boolean rhs).bind fun _ _ => .pure trivial

theorem only_equal (lhs rhs : Operand) : (ofExcept (lhs.equal rhs)).Only body fun _ => True := by
  unfold Operand.equal
  split
  · exact .pure trivial
  · exact .pure trivial
  · rcases lhs.exists_operand_eq with ⟨left, rfl⟩
    rcases rhs.exists_operand_eq with ⟨right, rfl⟩
    rw [Operand.typeName_operand, Operand.typeName_operand]
    exact .fail (.unexpectedType left right)

theorem only_combine (op : BinaryOperator) (lhs rhs : Operand) :
    (ofExcept (op.combine lhs rhs)).Only body fun _ => True := by
  cases op with
  | arith op =>
      cases op with
      | div =>
          refine only_calculate lhs rhs fun left right => ?_
          split
          · exact .fail .divisionByZero
          · exact .pure trivial
      | mul | sum | sub => exact only_calculate lhs rhs fun _ _ => .pure trivial
  | logic op =>
      cases op with
      | lt | le | gt | ge => exact only_calculate lhs rhs fun _ _ => .pure trivial
      | and | or => exact only_connect lhs rhs _
      | eq => exact only_equal lhs rhs

variable {site : List String}

theorem only_expression (known : KnowsOperators body)
    (sound : ∀ entry ∈ scope, entry.2.IsFrom body) {expr : Expr}
    (contains : Contains body site (.expression expr)) :
    (expression scope expr).Only body (Value.IsFrom body) := by
  induction expr with
  | num value | bool value => exact .pure (.storable _)
  | ident name =>
      refine (only_find sound ⟨site, _, contains, rfl⟩).bind fun value isFrom => ?_
      split
      · exact (only_read _).bind fun _ _ => .pure (.storable _)
      · exact .pure isFrom
  | addressOf name =>
      exact (only_locate sound ⟨site, _, contains, rfl⟩).bind fun _ _ => .pure (.storable _)
  | valueOf name =>
      have mentioned : Mentions body name := ⟨site, _, contains, rfl⟩
      refine (only_locate sound mentioned).bind fun cell _ => (only_read cell).bind fun held _ => ?_
      split
      · exact (only_read _).bind fun _ _ => .pure (.storable _)
      · exact .fail (.expectedLocation mentioned)
  | not operand induction =>
      exact (induction (contains.part (by simp [Phrase.parts]))).bind fun value _ =>
        (only_negate _).bind fun _ _ => .pure (.storable _)
  | binary lexeme lhs rhs inductionLhs inductionRhs =>
      have lhsContained : Contains body site (.expression lhs) :=
        contains.part (by simp [Phrase.parts])
      have rhsContained : Contains body site (.expression rhs) :=
        contains.part (by simp [Phrase.parts])
      rcases known site lexeme lhs rhs contains with ⟨op, found⟩
      refine (inductionRhs rhsContained).bind fun right _ =>
        (inductionLhs lhsContained).bind fun left _ => ?_
      rw [found]
      exact (only_combine op _ _).bind fun _ _ => .pure (.storable _)

theorem only_condition (known : KnowsOperators body)
    (sound : ∀ entry ∈ scope, entry.2.IsFrom body) {test : Expr}
    (contains : Contains body site (.expression test)) :
    (condition scope test).Only body fun _ => True :=
  (only_expression known sound contains).bind fun _ _ => only_boolean _

theorem only_actuals (known : KnowsOperators body)
    (sound : ∀ entry ∈ scope, entry.2.IsFrom body) {exprs : List Expr}
    (contains : ∀ expr ∈ exprs, Contains body site (.expression expr)) :
    (actuals scope exprs).Only body fun values => ∀ value ∈ values, value.IsFrom body := by
  induction exprs with
  | nil => exact .pure (by simp)
  | cons first rest induction =>
      refine (induction fun expr member => contains expr (List.mem_cons_of_mem _ member)).bind
        fun values others => (only_expression known sound (contains first List.mem_cons_self)).bind
        fun value isFrom => .pure ?_
      exact List.forall_mem_cons.mpr ⟨isFrom, others⟩

/-! ## Declarations -/

theorem only_newCell (value : Value) : (newCell value).Only body fun _ => True :=
  (only_storable value).bind fun _ _ _ => trivial

theorem only_declaration (known : KnowsOperators body)
    (sound : ∀ entry ∈ scope, entry.2.IsFrom body) {declared : Declaration}
    (contains : Contains body site (.declaration declared)) :
    (declaration scope declared).Only body fun bound => ∀ entry ∈ bound, entry.2.IsFrom body := by
  have inside : ∀ part ∈ (Phrase.declaration declared).parts site, Contains body part.1 part.2 :=
    fun part isPart => contains.part isPart
  cases declared with
  | var name initial =>
      have contained := (inside _ List.mem_cons_self).part List.mem_cons_self
      exact (only_expression known sound contained).bind fun value _ =>
        (only_newCell value).bind fun address _ =>
        .pure (List.forall_mem_singleton.mpr (.storable _))
  | const name expr =>
      exact (only_expression known sound (inside _ List.mem_cons_self)).bind fun value isFrom =>
        .pure (List.forall_mem_singleton.mpr isFrom)
  | function function =>
      have contained := inside _ List.mem_cons_self
      exact .pure (List.forall_mem_singleton.mpr
        (Function.isFrom_toValue contained sound (by simp)))
  | recursive group =>
      have contained (member : Function) (isMember : member ∈ group) :
          Contains body site (.function group member) :=
        inside _ (List.mem_map_of_mem isMember)
      refine .pure fun entry isEntry => ?_
      rcases List.mem_map.mp isEntry with ⟨member, isMember, rfl⟩
      exact Function.isFrom_toValue (contained member isMember) sound fun other isOther =>
        ⟨group, site, contained other isOther⟩

theorem only_declarations (known : KnowsOperators body)
    (sound : ∀ entry ∈ scope, entry.2.IsFrom body) {parts : List Declaration}
    (contains : ∀ declared ∈ parts, Contains body site (.declaration declared)) :
    (declarations scope parts).Only body fun bound => ∀ entry ∈ bound, entry.2.IsFrom body := by
  induction parts with
  | nil => exact .pure (by simp)
  | cons first rest induction =>
      refine (only_declaration known sound (contains first List.mem_cons_self)).bind
        fun bound isFrom => (induction fun other member =>
          contains other (List.mem_cons_of_mem _ member)).bind fun others othersFrom => .pure ?_
      exact List.forall_mem_append.mpr ⟨isFrom, othersFrom⟩

/-! ## Commands -/

/-- Whether commands of a program that are run have its faults only. -/
def RunsOnly (body : List Command) (run : Scope → Command → Evaluation Unit) : Prop :=
  ∀ scope site current, (∀ entry ∈ scope, entry.2.IsFrom body) →
    Contains body site (.command current) → (run scope current).Only body fun _ => True

theorem RunsOnly.commands {run : Scope → Command → Evaluation Unit} (runs : RunsOnly body run)
    (sound : ∀ entry ∈ scope, entry.2.IsFrom body) {commands : List Command}
    (contains : Contains body site (.ofCommands commands)) :
    (commands.forM (run scope)).Only body fun _ => True :=
  .forM fun current member =>
    runs scope site current sound (contains.single_of_ofList (fun _ => rfl) member)

theorem RunsOnly.block {run : Scope → Command → Evaluation Unit} (runs : RunsOnly body run)
    (known : KnowsOperators body) (sound : ∀ entry ∈ scope, entry.2.IsFrom body) {inner : Block}
    (contains : Contains body site (.command (.block inner))) :
    (block run scope inner).Only body fun _ => True := by
  cases inner with
  | mk parts commands =>
      have declared : Contains body site (.ofDeclarations parts) :=
        contains.part List.mem_cons_self
      have commanded : Contains body (parts.flatMap Declaration.names ++ site)
          (.ofCommands commands) := contains.part (List.mem_cons_of_mem _ List.mem_cons_self)
      have start : (World.next <$> get : Evaluation Nat).Only body fun _ => True :=
        fun _ => trivial
      refine start.bind fun first _ => (only_declarations known sound fun part member =>
          declared.single_of_ofList (fun _ => rfl) member).bind fun bound isFrom =>
        (runs.commands ?_ commanded).bind fun _ _ => .change _
      intro entry member
      rcases List.mem_append.mp member with new | old
      · exact isFrom entry (List.mem_reverse.mp new)
      · exact sound entry old

theorem only_assign (sound : ∀ entry ∈ scope, entry.2.IsFrom body) (mentioned : Mentions body name)
    (value : Value) : (assign scope name value).Only body fun _ => True := by
  refine (only_storable value).bind fun content _ => (only_find sound mentioned).bind
    fun target _ => ?_
  split
  · exact only_write _ _
  · exact .fail (.unexpectedImmutableVariable mentioned)

theorem only_requireArity (mentioned : Mentions body name) (expected got : Nat) :
    (requireArity name expected got).Only body fun _ => True := by
  unfold requireArity
  split
  · exact .fail (.missingParametersInCall mentioned _ _)
  · split
    · exact .fail (.excessParametersInCall mentioned _ _)
    · exact .pure trivial

theorem isFrom_calleeScope {formals : List String} {captured : Scope} {group : List Function}
    {values : List Value} (captures : ∀ entry ∈ captured, entry.2.IsFrom body)
    (members : ∀ member ∈ group, ∃ declared outer,
      Contains body outer (.function declared member))
    (sound : ∀ value ∈ values, value.IsFrom body) :
    ∀ entry ∈ calleeScope formals captured group values, entry.2.IsFrom body := by
  intro entry member
  simp only [calleeScope, List.mem_append, List.mem_reverse, List.mem_map] at member
  rcases member with formal | ⟨function, isMember, rfl⟩ | outer
  · exact sound entry.2 (List.of_mem_zip formal).2
  · rcases members function isMember with ⟨declared, outer, contains⟩
    exact Function.isFrom_toValue contains captures members
  · exact captures entry outer

theorem RunsOnly.call {run : Scope → Command → Evaluation Unit} (runs : RunsOnly body run)
    (known : KnowsOperators body) (sound : ∀ entry ∈ scope, entry.2.IsFrom body)
    {exprs : List Expr} (contains : Contains body site (.command (.call name exprs))) :
    (call run scope name exprs).Only body fun _ => True := by
  have mentioned : Mentions body name := ⟨site, _, contains, rfl⟩
  have actualsContained : ∀ expr ∈ exprs, Contains body site (.expression expr) :=
    fun expr member => contains.part (List.mem_map_of_mem member)
  refine (only_actuals known sound actualsContained).bind fun values valuesFrom =>
    (only_find sound mentioned).bind fun callee calleeFrom => ?_
  cases calleeFrom with
  | storable value => exact .fail (.expectedFunctionIdentifier mentioned)
  | function inner captures members =>
      exact (only_requireArity mentioned _ _).bind fun _ _ =>
        runs.block known (isFrom_calleeScope captures members valuesFrom) inner

theorem runsOnly_command (known : KnowsOperators body) (fuel : Nat) :
    RunsOnly body (command fuel) := by
  induction fuel with
  | zero => exact fun _ _ _ _ _ _ => trivial
  | succ fuel induction =>
      intro scope site current sound contains
      have inside : ∀ part ∈ (Phrase.command current).parts site, Contains body part.1 part.2 :=
        fun part isPart => contains.part isPart
      cases current with
      | nop => exact .pure trivial
      | assign target expr =>
          exact (only_expression known sound (inside _ List.mem_cons_self)).bind fun value _ =>
            only_assign sound ⟨site, _, contains, rfl⟩ value
      | print expr =>
          exact (only_expression known sound (inside _ List.mem_cons_self)).bind fun value _ =>
            .change _
      | block inner => exact induction.block known sound contains
      | call callee exprs => exact induction.call known sound contains
      | loop test commands =>
          have contained : Contains body site (.ofCommands commands) :=
            contains.part (by simp [Phrase.parts])
          refine (only_condition known sound (inside _ List.mem_cons_self)).bind fun holds _ => ?_
          cases holds with
          | false => exact .pure trivial
          | true =>
              exact (induction.commands sound contained).bind fun _ _ =>
                induction scope site _ sound contains
      | ifThen test commands =>
          have contained : Contains body site (.ofCommands commands) :=
            contains.part (by simp [Phrase.parts])
          refine (only_condition known sound (inside _ List.mem_cons_self)).bind fun holds _ => ?_
          cases holds with
          | false => exact .pure trivial
          | true => exact induction.commands sound contained
      | ifThenElse test thenCommands elseCommands =>
          have thenContained : Contains body site (.ofCommands thenCommands) :=
            contains.part (by simp [Phrase.parts])
          have elseContained : Contains body site (.ofCommands elseCommands) :=
            contains.part (by simp [Phrase.parts])
          refine (only_condition known sound (inside _ List.mem_cons_self)).bind fun holds _ => ?_
          cases holds with
          | false => exact induction.commands sound elseContained
          | true => exact induction.commands sound thenContained

/-- A program whose operators are known ends with one of its faults, if with any. -/
theorem Ends.ofProgram (known : KnowsOperators body) {fault : Fault} {world : World}
    (ends : Ends body (.error fault) world) : fault.OfProgram body := by
  cases ends with
  | @failed fuel _ _ evaluated =>
      have sound : ∀ entry ∈ ([] : Scope), entry.2.IsFrom body := by simp
      have only := (runsOnly_command known fuel).commands sound .whole World.empty
      simp only [program] at evaluated
      rw [evaluated] at only
      exact only

end Evaluation

end BlockMachine
