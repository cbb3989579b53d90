import BlockMachine.Proofs.Closures.Growth
import BlockMachine.Proofs.Scoping.Environments
import BlockMachine.Proofs.Surface.Evaluation
import BlockMachine.Proofs.Translation.Layout

namespace BlockMachine

/-! # Agreement of values

A machine holds a function as a reference to a table entry, whose body is a node
and whose captured environment goes by names. It agrees with a function of the
surface program if the node lays out the function's body and the environment
agrees with the function's scope. -/

namespace Draft

variable (draft : Draft)

/-- Whether a closure is made of the formals and the body of a function. -/
structure LaysClosure (formals : List String) (body : Block) (closure : Closure) : Prop where
  formals : List.Forall₂ draft.Names formals (draft.code.formals closure.formals)
  body : draft.LaysBlock body closure.body

/-- Whether a member of a group was made of a function in a given environment. -/
inductive LaysMember (table : ClosureTable) (captured : Environment) : Function → Member → Prop where
  | mk {text : String} {formals : List String} {body : Block} {name : Name} {id : ClosureId}
      {closure : Closure} (named : draft.Names text name)
      (found : table.closure? id = some closure) (sameScope : closure.captured = captured)
      (laid : draft.LaysClosure formals body closure) :
      LaysMember table captured (.mk text formals body) (name, id)

/-- Whether the group of a function is the one that a reference gives. -/
inductive LaysGroup (table : ClosureTable) (captured : Environment) :
    List Function → Option GroupId → Prop where
  | alone : LaysGroup table captured [] none
  | group {functions : List Function} {id : GroupId} {members : List Member}
      (listed : table.members? id = some members)
      (laid : List.Forall₂ (draft.LaysMember table captured) functions members) :
      LaysGroup table captured functions (some id)

/-- What an identifier stands for and what its name is bound to, where they are
anything. -/
inductive Agrees (table : ClosureTable) : Option Value → Option Bindable → Prop where
  | unbound : Agrees table none none
  | storable (value : Storable) : Agrees table (some (.storable value)) (some (.storable value))
  | function {formals : List String} {body : Block} {captured : Scope} {group : List Function}
      {reference : ClosureRef} {closure : Closure}
      (found : table.closure? reference.closure = some closure)
      (laid : draft.LaysClosure formals body closure)
      (scope : ∀ text name, draft.Names text name →
        Agrees table (captured.lookup text) (closure.captured.lookup name))
      (groupLaid : draft.LaysGroup table closure.captured group reference.group) :
      Agrees table (some (.function formals body captured group)) (some (.closure reference))

/-- Whether a scope and an environment agree on every identifier. -/
def AgreesOn (table : ClosureTable) (scope : Scope) (environment : Environment) : Prop :=
  ∀ text name, draft.Names text name →
    draft.Agrees table (scope.lookup text) (environment.lookup name)

/-- Whether a binding of an identifier is that of a name. -/
structure Binds (table : ClosureTable) (left : String × Value) (right : Name × Bindable) : Prop where
  named : draft.Names left.1 right.1
  agrees : draft.Agrees table (some left.2) (some right.2)

variable {draft} {table : ClosureTable}

theorem Names.eq {text : String} {first second : Name} (left : draft.Names text first)
    (right : draft.Names text second) : first = second :=
  Option.some.inj (left.symm.trans right)

theorem Names.text_eq {first second : String} {name : Name} (left : draft.Names first name)
    (right : draft.Names second name) : first = second := by
  rw [← NameTable.text_of_find? left, ← NameTable.text_of_find? right]

/-! ## Growing tables -/

section

variable {after : ClosureTable} {captured : Environment}

theorem LaysMember.grow (grows : table.Grows after) {function : Function} {member : Member}
    (laid : draft.LaysMember table captured function member) :
    draft.LaysMember after captured function member := by
  cases laid with
  | mk named found sameScope laid => exact .mk named (grows.closure?_of found) sameScope laid

theorem LaysGroup.grow (grows : table.Grows after) {group : List Function}
    {id : Option GroupId} (laid : draft.LaysGroup table captured group id) :
    draft.LaysGroup after captured group id := by
  cases laid with
  | alone => exact .alone
  | group listed laid =>
      exact .group (grows.members?_of listed) (laid.imp fun _ _ => LaysMember.grow grows)

theorem Agrees.grow (grows : table.Grows after) {value : Option Value} {bound : Option Bindable}
    (agrees : draft.Agrees table value bound) : draft.Agrees after value bound := by
  induction agrees with
  | unbound => exact .unbound
  | storable value => exact .storable value
  | function found laid scope groupLaid induction =>
      exact .function (grows.closure?_of found) laid induction (groupLaid.grow grows)

theorem AgreesOn.grow (grows : table.Grows after) {scope : Scope} {environment : Environment}
    (agrees : draft.AgreesOn table scope environment) : draft.AgreesOn after scope environment :=
  fun text name named => (agrees text name named).grow grows

theorem Binds.grow (grows : table.Grows after) {left : String × Value} {right : Name × Bindable}
    (binds : draft.Binds table left right) : draft.Binds after left right :=
  ⟨binds.named, binds.agrees.grow grows⟩

end

/-! ## Binding -/

variable {scope : Scope} {environment : Environment}

theorem AgreesOn.bind (agrees : draft.AgreesOn table scope environment) {left : String × Value}
    {right : Name × Bindable} (binds : draft.Binds table left right) :
    draft.AgreesOn table (left :: scope) (environment.bind right.1 right.2) := by
  intro text name named
  rw [Environment.lookup_bind, List.lookup_cons]
  by_cases same : text = left.1
  · subst same
    rw [if_pos (named.eq binds.named)]
    simpa using binds.agrees
  · have different : name ≠ right.1 := by
      intro equal
      exact same (named.text_eq (equal ▸ binds.named))
    have differs : (text == left.1) = false := by simpa using same
    rw [if_neg different, differs]
    exact agrees text name named

theorem AgreesOn.bindAll (agrees : draft.AgreesOn table scope environment)
    {declared : List (String × Value)} {bindings : List (Name × Bindable)}
    (binds : List.Forall₂ (draft.Binds table) declared bindings) :
    draft.AgreesOn table (declared.reverse ++ scope) (environment.bindAll bindings) := by
  induction binds generalizing scope environment with
  | nil => exact agrees
  | @cons left right declared bindings head _ induction =>
      rw [List.reverse_cons, List.append_assoc]
      exact induction (agrees.bind head)

theorem AgreesOn.extend (agrees : draft.AgreesOn table scope environment)
    {declared : List (String × Value)} {bindings : List (Name × Bindable)}
    (binds : List.Forall₂ (draft.Binds table) declared bindings) :
    draft.AgreesOn table (declared.reverse ++ scope)
      (environment.extend (Environment.empty.bindAll bindings)) := by
  intro text name named
  rw [Environment.lookup_extend_bindAll]
  exact agrees.bindAll binds text name named

/-! ## Values -/

/-- A function declared in a scope agrees with the closure made of it. -/
theorem LaysMember.agrees {captured : Environment} {function : Function} {name : Name}
    {reference : ClosureRef} {group : List Function}
    (laid : draft.LaysMember table captured function (name, reference.closure))
    (agrees : draft.AgreesOn table scope captured)
    (groupLaid : draft.LaysGroup table captured group reference.group) :
    draft.Agrees table (some (function.toValue scope group)) (some (.closure reference)) := by
  cases laid with
  | mk named found sameScope laid =>
      subst sameScope
      exact .function found laid agrees groupLaid

theorem Agrees.text {value : Value} {bound : Bindable}
    (agrees : draft.Agrees table (some value) (some bound)) : bound.text = value.text := by
  cases agrees <;> rfl

end Draft

end BlockMachine
