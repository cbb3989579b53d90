import BlockMachine.Proofs.Surface.Evaluation

namespace BlockMachine

/-! # Evaluations that need no fuel

Fuel is for commands nested in one another. An expression, an assignment and what a
line prints never run out of it. The value of an expression is plain data, or some
identifier in its scope stands for it. -/

namespace Evaluation

/-- Whether an evaluation, in whatever world, has a result of some kind or stops with
a fault. -/
def Returns (action : Evaluation α) (Good : α → Prop) : Prop :=
  ∀ world, match action world with
    | .ok result _ => Good result
    | .error (.fault _) _ => True
    | .error .outOfFuel _ => False

variable {Good : α → Prop}

namespace Returns

theorem pure {result : α} (good : Good result) : Returns (Pure.pure result) Good :=
  fun _ => good

theorem fail (fault : Fault) : Returns (fail fault : Evaluation α) Good :=
  fun _ => trivial

theorem change (step : World → World) : Returns (change step) fun _ => True :=
  fun _ => trivial

theorem bind {action : Evaluation α} {next : α → Evaluation β} {Result : β → Prop}
    (first : action.Returns Good) (second : ∀ value, Good value → (next value).Returns Result) :
    (action >>= next).Returns Result := by
  intro world
  have started := first world
  simp only [Bind.bind, EStateM.bind]
  cases evaluated : action world with
  | ok value middle =>
      rw [evaluated] at started
      exact second value started middle
  | error reason middle =>
      rw [evaluated] at started
      cases reason <;> exact started

end Returns

/-! ## Values and cells -/

theorem returns_ofExcept (found : Except Fault α) : (ofExcept found).Returns fun _ => True := by
  cases found with
  | ok value => exact .pure trivial
  | error fault => exact .fail fault

theorem returns_storable (value : Value) : (storable value).Returns fun _ => True := by
  cases value with
  | storable value => exact .pure trivial
  | function => exact .fail _

theorem returns_read (address : Address) : (read address).Returns fun _ => True := by
  intro world
  unfold read
  cases world.cells address <;> trivial

theorem returns_write (address : Address) (value : Storable) :
    (write address value).Returns fun _ => True := by
  intro world
  unfold write
  cases world.cells address <;> trivial

theorem returns_newCell (value : Value) : (newCell value).Returns fun _ => True :=
  (returns_storable value).bind fun _ _ _ => trivial

/-! ## Expressions

Let plain data be of some kind, and all values that a scope has. Then the value of an
expression in that scope is of the kind. -/

variable {Kind : Value → Prop} (plain : ∀ value, Kind (.storable value)) {scope : Scope}
  (visible : ∀ entry ∈ scope, Kind entry.2)

include visible in
theorem returns_find (name : String) : (find scope name).Returns Kind := by
  unfold find
  cases found : scope.lookup name with
  | none => exact .fail _
  | some value =>
      rcases List.lookup_eq_some_iff.mp found with ⟨front, back, rfl, _⟩
      exact .pure (visible (name, value) (by simp))

theorem returns_locate (scope : Scope) (name : String) :
    (locate scope name).Returns fun _ => True := by
  have found : (find scope name).Returns fun _ => True := returns_find (fun _ _ => trivial) name
  refine found.bind fun value _ => ?_
  split
  · exact .pure trivial
  · exact .fail _

include plain visible

theorem returns_expression (expr : Expr) : (expression scope expr).Returns Kind := by
  induction expr with
  | num value | bool value => exact .pure (plain _)
  | ident name =>
      refine (returns_find visible name).bind fun value kind => ?_
      split
      · exact (returns_read _).bind fun _ _ => .pure (plain _)
      · exact .pure kind
  | addressOf name => exact (returns_locate scope name).bind fun _ _ => .pure (plain _)
  | valueOf name =>
      refine (returns_locate scope name).bind fun cell _ => (returns_read cell).bind
        fun held _ => ?_
      split
      · exact (returns_read _).bind fun _ _ => .pure (plain _)
      · exact .fail _
  | not operand induction =>
      exact induction.bind fun value _ => (returns_ofExcept _).bind fun _ _ => .pure (plain _)
  | binary lexeme lhs rhs inductionLhs inductionRhs =>
      refine inductionRhs.bind fun right _ => inductionLhs.bind fun left _ => ?_
      split
      · exact (returns_ofExcept _).bind fun _ _ => .pure (plain _)
      · exact .fail _

theorem returns_actuals (exprs : List Expr) :
    (actuals scope exprs).Returns fun values => ∀ value ∈ values, Kind value := by
  induction exprs with
  | nil => exact .pure (by simp)
  | cons first rest induction =>
      exact induction.bind fun values others => (returns_expression plain visible first).bind
        fun value kind => .pure (List.forall_mem_cons.mpr ⟨kind, others⟩)

omit plain visible

/-! ## Conditions and commands -/

theorem returns_any (scope : Scope) (expr : Expr) :
    (expression scope expr).Returns fun _ => True :=
  returns_expression (fun _ => trivial) (fun _ _ => trivial) expr

theorem returns_condition (scope : Scope) (test : Expr) :
    (condition scope test).Returns fun _ => True :=
  (returns_any scope test).bind fun _ _ => returns_ofExcept _

theorem returns_assign (scope : Scope) (target : String) (value : Value) :
    (assign scope target value).Returns fun _ => True := by
  have found : (find scope target).Returns fun _ => True :=
    returns_find (fun _ _ => trivial) target
  refine (returns_storable value).bind fun content _ => found.bind fun bound _ => ?_
  split
  · exact returns_write _ _
  · exact .fail _

/-- A command in which no other is nested needs no more fuel than any command does. -/
theorem returns_command (scope : Scope) {current : Command}
    (single : current = .nop ∨ (∃ target expr, current = .assign target expr) ∨
      ∃ expr, current = .print expr) : (command 1 scope current).Returns fun _ => True := by
  rcases single with rfl | ⟨target, expr, rfl⟩ | ⟨expr, rfl⟩
  · exact .pure trivial
  · exact (returns_any scope expr).bind fun value _ => returns_assign scope target value
  · exact (returns_any scope expr).bind fun value _ => .change _

end Evaluation

end BlockMachine
