import BlockMachine.Proofs.Closures.Coverage
import BlockMachine.Proofs.Scoping.Bindings
import BlockMachine.Proofs.Translation.Occurrences

namespace BlockMachine

/-! # Closures and scopes

A closure captures an environment where its function is declared, and takes it along
wherever it is passed. It is sound if that environment binds just the identifiers that
are visible there: then the body sees those, its group and its formals, whoever calls
it. -/

namespace Image

variable (image : Image) (body : List Command)

/-- Whether a closure is made of a function that sees a scope where it is declared. The
function's formals, and its group if it has one, are visible in its body too. -/
structure Closes (group : List Function) (formals scope : List String) (closure : Closure) :
    Prop where
  named : List.Forall₂ image.draft.Names formals (image.code.formals closure.formals)
  occurs : ∃ inner, image.program.Occurs body (formals ++ group.map Function.name ++ scope)
    (.command (.block inner)) closure.body
  captured : image.draft.BindsJust scope closure.captured

/-- Whether a group of the closure tables has the names of a group of functions. -/
inductive Lists (table : ClosureTable) : List Function → Option GroupId → Prop where
  | alone : Lists table [] none
  | group {id : GroupId} {members : List Member} (listed : table.members? id = some members)
      (named : List.Forall₂ (fun function member => image.draft.Names function.name member.1)
        functions members) : Lists table functions (some id)

/-- Whether a value is plain or refers to a closure of a function of the program. -/
inductive Sound (table : ClosureTable) : Bindable → Prop where
  | storable (value : Storable) : Sound table (.storable value)
  | closure {reference : ClosureRef} {closure : Closure} {group : List Function}
      {formals scope : List String} (found : table.closure? reference.closure = some closure)
      (closes : image.Closes body group formals scope closure)
      (lists : image.Lists table group reference.group) : Sound table (.closure reference)

/-- Whether a reference is to a closure of a function that is being declared, and that
does not know its group yet. -/
inductive Makes (table : ClosureTable) : List Function → List String → ClosureRef → Prop where
  | plain {id : ClosureId} {closure : Closure} {group : List Function}
      {formals scope : List String} (found : table.closure? id = some closure)
      (closes : image.Closes body group formals scope closure) :
      Makes table group scope (.plain id)

/-- Whether all that closure tables refer to is sound. -/
structure SoundTable (table : ClosureTable) : Prop where
  captured : ∀ id closure, table.closure? id = some closure →
    closure.captured.Holds (image.Sound body table)
  members : ∀ id members, table.members? id = some members →
    ∀ member ∈ members, image.Sound body table (.closure (.recursive member.2 id))

end Image

namespace Image

variable {image : Image} {body : List Command} {before after : ClosureTable}
  {group : List Function} {formals scope : List String}

theorem Lists.keep (keeps : before.Keeps after) {id : Option GroupId}
    (covers : ∀ known ∈ id, known.index < after.mark.groups)
    (lists : image.Lists before group id) : image.Lists after group id := by
  cases lists with
  | alone => exact .alone
  | group listed named => exact .group (keeps.groups _ _ listed (covers _ rfl)) named

theorem Lists.covers {id : Option GroupId} (lists : image.Lists before group id) :
    ∀ known ∈ id, known.index < before.mark.groups := by
  cases lists with
  | alone => simp
  | group listed =>
      rintro _ ⟨rfl⟩
      exact ClosureTable.index_lt_of_members? listed

/-- What is sound stays so as long as it is in the tables. -/
theorem Sound.keep (keeps : before.Keeps after) {value : Bindable}
    (covers : after.mark.Covers value) (sound : image.Sound body before value) :
    image.Sound body after value := by
  cases sound with
  | storable value => exact .storable value
  | closure found closes lists =>
      exact .closure (keeps.closures _ _ found covers.1) closes (lists.keep keeps covers.2)

theorem Sound.covers (sound : image.Sound body before value) : before.mark.Covers value := by
  cases sound with
  | storable => trivial
  | closure found _ lists => exact ⟨ClosureTable.index_lt_of_closure? found, lists.covers⟩

theorem Sound.grow (grows : before.Grows after) {value : Bindable}
    (sound : image.Sound body before value) : image.Sound body after value :=
  sound.keep grows.keeps (sound.covers.mono grows.mark)

theorem Makes.keep (keeps : before.Keeps after) {reference : ClosureRef}
    (covers : after.mark.Covers (.closure reference))
    (makes : image.Makes body before group scope reference) :
    image.Makes body after group scope reference := by
  cases makes with
  | plain found closes => exact .plain (keeps.closures _ _ found covers.1) closes

theorem holds_keep (keeps : before.Keeps after) {environment : Environment}
    (covers : environment.Holds after.mark.Covers)
    (holds : environment.Holds (image.Sound body before)) :
    environment.Holds (image.Sound body after) :=
  fun entry member => (holds entry member).keep keeps (covers entry member)

/-- Sound tables stay so if what they get is sound. -/
theorem SoundTable.keep {state : State} (tables : image.SoundTable body before)
    (keeps : before.Keeps state.closures) (covered : state.Covered)
    (closures : ∀ id closure, state.closures.closure? id = some closure →
      before.closure? id = some closure ∨
        closure.captured.Holds (image.Sound body state.closures))
    (groups : ∀ id members, state.closures.members? id = some members →
      before.members? id = some members ∨ ∀ member ∈ members,
        image.Sound body state.closures (.closure (.recursive member.2 id))) :
    image.SoundTable body state.closures where
  captured := by
    intro id closure found
    rcases closures id closure found with old | new
    · exact holds_keep keeps (covered.captured id closure found) (tables.captured id closure old)
    · exact new
  members := by
    intro id members found member isMember
    rcases groups id members found with old | new
    · refine (tables.members id members old member isMember).keep keeps ⟨?_, ?_⟩
      · exact covered.members id members found member isMember
      · rintro _ ⟨rfl⟩
        exact ClosureTable.index_lt_of_members? found
    · exact new member isMember

theorem SoundTable.insert {state : State} {closure : Closure} (tables : image.SoundTable body before)
    (inserted : state.closures = (before.insert closure).2) (covered : state.Covered)
    (captured : closure.captured.Holds (image.Sound body state.closures)) :
    image.SoundTable body state.closures := by
  have keeps : before.Keeps state.closures := inserted ▸ (ClosureTable.grows_insert _ _).keeps
  refine tables.keep keeps covered ?_ ?_
  · intro id other found
    rw [inserted, ClosureTable.closure?_insert] at found
    split at found
    next =>
      cases found
      exact .inr captured
    next => exact .inl found
  · intro id members found
    rw [inserted] at found
    exact .inl found

theorem SoundTable.addGroup {state : State} {members : List Member}
    (tables : image.SoundTable body before)
    (added : state.closures = (before.addGroup members).2) (covered : state.Covered)
    (sound : ∀ member ∈ members,
      image.Sound body state.closures (.closure (.recursive member.2 ⟨before.groupCount⟩))) :
    image.SoundTable body state.closures := by
  have keeps : before.Keeps state.closures := added ▸ (ClosureTable.grows_addGroup _ _).keeps
  refine tables.keep keeps covered ?_ ?_
  · intro id closure found
    rw [added] at found
    exact .inl found
  · intro id others found
    rw [added, ClosureTable.members?_addGroup] at found
    split at found
    next isNew =>
      cases found
      rw [isNew]
      exact .inr sound
    next => exact .inl found

theorem SoundTable.truncate {state : State} {mark : Mark}
    (tables : image.SoundTable body before) (truncated : state.closures = before.truncate mark)
    (covered : state.Covered) : image.SoundTable body state.closures := by
  have keeps : before.Keeps state.closures := truncated ▸ ClosureTable.keeps_truncate _ _
  refine tables.keep keeps covered ?_ ?_
  · intro id closure found
    rw [truncated, ClosureTable.closure?_truncate] at found
    split at found
    next => exact .inl found
    next => cases found
  · intro id members found
    rw [truncated, ClosureTable.members?_truncate] at found
    split at found
    next => exact .inl found
    next => cases found

/-- A function's node makes a closure of the function. -/
theorem exists_closes (of : image.IsOf body) {declared : Function} {id bodyId : NodeId}
    (occurs : image.program.Occurs body scope (.function group declared) id) {span : Span Name}
    (fetched : image.code.node? id = some (.abstraction span bodyId)) {environment : Environment}
    (binds : image.draft.BindsJust scope environment) :
    ∃ formals, image.Closes body group formals scope ⟨span, bodyId, environment⟩ := by
  rcases occurs.lays of with ⟨name, laid⟩
  cases laid with
  | @mk _ formals inner _ _ _ _ _ namedFormals listed _ fetchedLaid =>
      cases fetched.symm.trans fetchedLaid
      have inside := (List.forall₂_cons.mp (occurs.parts of fetched)).1
      exact ⟨formals, listed ▸ namedFormals, ⟨inner, inside⟩, binds⟩

/-- A group's functions are bound to their own names. -/
theorem forall₂_memberBindings {members : List Member} {id : GroupId}
    (named : List.Forall₂ (fun function member => image.draft.Names function.name member.1) group
      members) : List.Forall₂ image.draft.Names (group.map Function.name)
        ((ClosureTable.memberBindings id members).map Prod.fst) := by
  rw [ClosureTable.memberBindings, List.map_map, List.forall₂_map_left_iff,
    List.forall₂_map_right_iff]
  exact named

/-- The functions of a group that is added to the tables are its members, and sound as
such. -/
theorem sound_addGroup {bindings : List Binding} {references : List ClosureRef}
    (named : List.Forall₂ (fun function binding => image.draft.Names function.name binding.1) group
      bindings)
    (counted : references.length = bindings.length)
    (made : ∀ reference ∈ references, image.Makes body before group scope reference) :
    List.Forall₂ (fun function member => image.draft.Names function.name member.1) group
      (Binding.members bindings references) ∧
    ∀ member ∈ Binding.members bindings references,
      image.Sound body (before.addGroup (Binding.members bindings references)).2
        (.closure (.recursive member.2 ⟨before.groupCount⟩)) := by
  have names : (Binding.members bindings references).map Prod.fst = bindings.map Prod.fst := by
    rw [Binding.members, List.map_fst_zip]
    simp [counted]
  have listed : List.Forall₂ (fun function member => image.draft.Names function.name member.1) group
      (Binding.members bindings references) := by
    have mapped : List.Forall₂ (fun function name => image.draft.Names function.name name) group
        ((Binding.members bindings references).map Prod.fst) := by
      rw [names, List.forall₂_map_right_iff]
      exact named
    exact List.forall₂_map_right_iff.mp mapped
  refine ⟨listed, ?_⟩
  intro member isMember
  rcases List.mem_map.mp (List.of_mem_zip isMember).2 with ⟨reference, isReference, same⟩
  rw [← same]
  have grows := ClosureTable.grows_addGroup before (Binding.members bindings references)
  cases made reference isReference with
  | plain found closes =>
      refine .closure (grows.closure?_of found) closes (.group ?_ listed)
      rw [ClosureTable.members?_addGroup]
      exact if_pos rfl

/-- The environment that a call of a closure starts from binds the group and what is
visible where the function is declared. -/
theorem Sound.home {table : ClosureTable} (tables : image.SoundTable body table)
    {reference : ClosureRef} (sound : image.Sound body table (.closure reference))
    {closure : Closure} (found : table.closure? reference.closure = some closure)
    {home : Environment}
    (entered : table.homeEnvironment? closure reference.group = some home) :
    ∃ group formals scope, image.Closes body group formals scope closure ∧
      image.draft.BindsJust (group.map Function.name ++ scope) home ∧
      home.Holds (image.Sound body table) := by
  cases sound with
  | closure foundSound closes lists =>
      cases found.symm.trans foundSound
      have captured := tables.captured _ _ found
      refine ⟨_, _, _, closes, ?_⟩
      generalize reference.group = id at lists entered
      cases lists with
      | alone =>
          cases entered
          exact ⟨closes.captured, captured⟩
      | group listed named =>
          rw [ClosureTable.homeEnvironment?, ClosureTable.groupEnvironment?, listed] at entered
          cases entered
          refine ⟨closes.captured.extend (.ofList (forall₂_memberBindings named)),
            captured.extend ?_⟩
          refine Environment.Holds.bindAll Environment.holds_empty ?_
          intro entry member
          rcases List.mem_map.mp member with ⟨listedMember, isMember, rfl⟩
          exact tables.members _ _ listed listedMember isMember

end Image

end BlockMachine
