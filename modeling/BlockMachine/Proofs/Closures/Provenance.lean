import BlockMachine.Proofs.Closures.Coverage

namespace BlockMachine

/-! # Where values come from

A step moves values from one place of a state to another. New are only plain data,
references to closures just made, and the references that the groups in the tables
give to their members. The tables themselves keep what a step does not cut off. -/

/-- Whether all values that occur in a state have a property: those in force, those on
the value stack, and those that closures have captured. -/
structure State.Holds (property : Bindable → Prop) (state : State) : Prop where
  environment : state.environment.Holds property
  values : ∀ entry ∈ state.values, entry.Holds property
  captured : ∀ id closure, state.closures.closure? id = some closure →
    closure.captured.Holds property

variable {property weaker : Bindable → Prop} {image : Image} {entry : Control}
  {before after : State}

theorem State.Holds.imp (holds : before.Holds property)
    (implies : ∀ value, property value → weaker value) : before.Holds weaker where
  environment := holds.environment.imp implies
  values := fun entry member => (holds.values entry member).imp implies
  captured := fun id closure found => (holds.captured id closure found).imp implies

/-- Properties are combined value by value. -/
theorem State.Holds.mp (implies : before.Holds fun value => property value → weaker value)
    (holds : before.Holds property) : before.Holds weaker where
  environment := fun entry member =>
    implies.environment entry member (holds.environment entry member)
  values := by
    intro entry member
    have impliesHere := implies.values entry member
    have holdsHere := holds.values entry member
    cases entry with
    | bindable value => exact impliesHere holdsHere
    | environment saved => exact fun entry isBound => impliesHere entry isBound (holdsHere entry isBound)
    | declarations collected =>
        exact fun entry isBound => impliesHere entry isBound (holdsHere entry isBound)
    | _ => trivial
  captured := fun id closure found entry member =>
    implies.captured id closure found entry member (holds.captured id closure found entry member)

theorem State.holds_start (root : NodeId) (printer : Printer) :
    (start root printer).Holds property where
  environment := Environment.holds_empty
  values := by simp [start]
  captured := by
    intro id closure found
    exact absurd (ClosureTable.index_lt_of_closure? found) (Nat.not_lt_zero _)

/-- What a node parks on the value stack holds no value. -/
theorem Node.holds_parked {code : Code} {site : NodeId} {node : Node} {parked : List StackValue}
    {scheduled : List Control} (agenda : node.agenda? code site = some (parked, scheduled)) :
    ∀ entry ∈ parked, entry.Holds property := by
  cases node with
  | _ => cases agenda <;> simp [StackValue.Holds]

namespace State.Holds

theorem push (holds : before.Holds property) {value : StackValue}
    (holdsValue : value.Holds property) :
    Holds property { before with values := value :: before.values } :=
  ⟨holds.environment, List.forall_mem_cons.mpr ⟨holdsValue, holds.values⟩, holds.captured⟩

/-- What lies below some entries of the value stack. -/
theorem below (holds : before.Holds property) (upper : ValueStack) {rest : ValueStack}
    (taken : before.values = upper ++ rest) : ∀ entry ∈ rest, entry.Holds property := by
  intro entry member
  apply holds.values
  rw [taken]
  exact List.mem_append_right upper member

/-- Closures that a table keeps from another one have captured what they had. -/
theorem captured_of_keeps (holds : before.Holds property) {table : ClosureTable}
    (old : ∀ id closure, table.closure? id = some closure →
      before.closures.closure? id = some closure) :
    ∀ id closure, table.closure? id = some closure → closure.captured.Holds property :=
  fun id closure found => holds.captured id closure (old id closure found)

/-- The environment of a callee binds what its closure has captured, the members of its
group and the actuals. -/
theorem callee (holds : before.Holds property)
    (members : ∀ id members, before.closures.members? id = some members →
      ∀ entry ∈ ClosureTable.memberBindings id members, property entry.2)
    {id : ClosureId} {closure : Closure} {group : Option GroupId} {home : Environment}
    {formals : List Name} {actuals : List Bindable} {rest : ValueStack}
    (found : before.closures.closure? id = some closure)
    (entered : before.closures.homeEnvironment? closure group = some home)
    (taken : before.values = actuals.map .bindable ++ rest) :
    (home.bindAll (formals.zip actuals)).Holds property := by
  have holdsHome : home.Holds property := by
    cases group with
    | none =>
        cases entered
        exact holds.captured id closure found
    | some group =>
        obtain ⟨bindings, unfolded, rfl⟩ := Option.map_eq_some_iff.mp entered
        obtain ⟨listed, isListed, rfl⟩ := Option.map_eq_some_iff.mp unfolded
        have holdsGroup := Environment.holds_empty.bindAll (members group listed isListed)
        exact (holds.captured id closure found).extend holdsGroup
  apply holdsHome.bindAll
  intro entry member
  have stacked : StackValue.bindable entry.2 ∈ before.values := by
    rw [taken]
    exact List.mem_append_left rest (List.mem_map_of_mem (List.of_mem_zip member).2)
  exact holds.values _ stacked

end State.Holds

/-- A property of all values that occur in a state is one of all that occur in the next
state, if it is one of plain data, of closures just made and of the members of
groups. -/
theorem Rule.holds (rule : Rule image entry before after)
    (storable : ∀ value, property (.storable value))
    (plain : ∀ id, property (.closure (.plain id)))
    (members : ∀ id members, after.closures.members? id = some members →
      ∀ entry ∈ ClosureTable.memberBindings id members, property entry.2)
    (holds : before.Holds property) : after.Holds property := by
  cases rule with
  | literal => exact holds.push (storable _)
  | identifier fetched bound held =>
      apply holds.push
      unfold Store.dereference? at held
      split at held
      · obtain ⟨content, _, rfl⟩ := Option.map_eq_some_iff.mp held
        exact storable content
      · cases held
        exact holds.environment.lookup bound
  | addressOf => exact holds.push (storable _)
  | valueOf => exact holds.push (storable _)
  | agenda fetched agenda functions =>
      refine ⟨holds.environment, ?_, holds.captured⟩
      intro entry member
      rcases List.mem_append.mp member with parked | old
      · exact Node.holds_parked agenda entry parked
      · exact holds.values entry old
  | block fetched =>
      refine ⟨holds.environment, ?_, holds.captured⟩
      simp only [List.forall_mem_cons]
      exact ⟨Environment.holds_empty, trivial, trivial, holds.environment, holds.values⟩
  | abstraction fetched =>
      refine ⟨holds.environment, List.forall_mem_cons.mpr ⟨plain _, holds.values⟩, ?_⟩
      intro id closure found
      rw [ClosureTable.closure?_insert] at found
      split at found
      · cases found
        exact holds.environment
      · exact holds.captured id closure found
  | operator combines taken =>
      refine ⟨holds.environment, ?_, holds.captured⟩
      exact List.forall_mem_cons.mpr ⟨storable _, holds.below _ taken⟩
  | assign taken bound written =>
      exact ⟨holds.environment, holds.below [_, _] taken, holds.captured⟩
  | bind taken =>
      have values := holds.values
      simp only [taken, List.forall_mem_cons] at values
      obtain ⟨holdsValue, _, holdsCollected, holdsRest⟩ := values
      refine ⟨holds.environment, ?_, holds.captured⟩
      exact List.forall_mem_cons.mpr ⟨Environment.Holds.bind holdsCollected _ holdsValue, holdsRest⟩
  | recBind fetched counted taken =>
      have lower := holds.below _ taken
      obtain ⟨holdsCollected, holdsRest⟩ := List.forall_mem_cons.mp lower
      refine ⟨holds.environment, ?_, holds.captured⟩
      refine List.forall_mem_cons.mpr ⟨Environment.Holds.bindAll holdsCollected ?_, holdsRest⟩
      exact members _ _ (ClosureTable.members?_addGroup_new _ _)
  | ref taken =>
      refine ⟨holds.environment, ?_, holds.captured⟩
      exact List.forall_mem_cons.mpr ⟨storable _, holds.below [_] taken⟩
  | blockDeclarations taken =>
      have values := holds.values
      rw [taken] at values
      obtain ⟨holdsDeclared, holdsRest⟩ := List.forall_mem_cons.mp values
      exact ⟨holds.environment.extend holdsDeclared, holdsRest, holds.captured⟩
  | blockCommands taken =>
      have lower := holds.below [_, _] taken
      obtain ⟨holdsOuter, holdsRest⟩ := List.forall_mem_cons.mp lower
      refine ⟨holdsOuter, holdsRest, holds.captured_of_keeps ?_⟩
      intro id closure found
      rw [ClosureTable.closure?_truncate] at found
      split at found
      · exact found
      · cases found
  | cond taken fetched =>
      exact ⟨holds.environment, holds.below [_, _] taken, holds.captured⟩
  | loop taken fetched =>
      exact ⟨holds.environment, holds.below [_, _] taken, holds.captured⟩
  | print taken => exact ⟨holds.environment, holds.below [_] taken, holds.captured⟩
  | call bound found arity matched taken entered =>
      refine ⟨holds.callee members found entered taken, ?_, holds.captured⟩
      simp only [List.forall_mem_cons]
      exact ⟨trivial, trivial, holds.environment, holds.below _ taken⟩

/-- A step that changes the closure tables adds to them or cuts them back. -/
theorem Rule.keeps (rule : Rule image entry before after) :
    before.closures.Keeps after.closures := by
  cases rule with
  | abstraction => exact (ClosureTable.grows_insert _ _).keeps
  | recBind => exact (ClosureTable.grows_addGroup _ _).keeps
  | blockCommands => exact ClosureTable.keeps_truncate _ _
  | _ => exact (ClosureTable.Grows.refl _).keeps

/-- A group that a step finds or leaves in the tables was there, or has been declared by
the step. -/
theorem Rule.members?_cases (rule : Rule image entry before after) {id : GroupId}
    {members : List Member} (listed : after.closures.members? id = some members) :
    before.closures.members? id = some members ∨
      ∃ site, entry = .op (.recBind site) ∧ id = ⟨before.closures.groupCount⟩ := by
  cases rule with
  | @recBind site =>
      rw [ClosureTable.members?_addGroup] at listed
      split at listed
      next isNew => exact .inr ⟨site, rfl, isNew⟩
      next => exact .inl listed
  | blockCommands =>
      rw [ClosureTable.members?_truncate] at listed
      split at listed
      next => exact .inl listed
      next => cases listed
  | _ => exact .inl listed

end BlockMachine
