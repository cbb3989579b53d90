import BlockMachine.Proofs.Closures.Coverage
import BlockMachine.Proofs.Closures.Renaming

namespace BlockMachine

/-! # Lockstep

What a node or opcode does, a fault included, does not depend on how closures are
numbered: in states that agree but for that, it does the same. -/

/-- Whether two actions do the same in states that agree but for the numbers of
closures, without changing the closure tables. -/
abbrev Commutes (rename : Renaming) (table kept : ClosureTable) (Value : α → β → Prop)
    (action : Action α) (keptAction : Action β) : Prop :=
  SameEffect id (rename.Alike table kept) Value action keptAction

variable {rename : Renaming} {table kept : ClosureTable}

namespace Renaming.Alike

variable {state keptState : State}

theorem withValues (alike : rename.Alike table kept state keptState) {values keptValues : ValueStack}
    (same : List.Forall₂ rename.Entry values keptValues) :
    rename.Alike table kept { state with values := values }
      { keptState with values := keptValues } :=
  { alike with values := same }

theorem push (alike : rename.Alike table kept state keptState) {entry keptEntry : StackValue}
    (same : rename.Entry entry keptEntry) :
    rename.Alike table kept { state with values := entry :: state.values }
      { keptState with values := keptEntry :: keptState.values } :=
  alike.withValues (.cons same alike.values)

theorem lookup (alike : rename.Alike table kept state keptState) (name : Name) :
    keptState.environment.lookup name = (state.environment.lookup name).map rename.value := by
  rw [alike.environment]
  exact state.environment.lookup_map name

end Renaming.Alike

open Renaming (shares)

namespace Commutes

/-! ## Stacks -/

theorem declare (bindings : List (Name × Bindable)) :
    Commutes rename table kept Eq (Action.onValues (ValueStack.declare bindings))
      (Action.onValues (ValueStack.declare (bindings.map fun entry =>
        (entry.1, rename.value entry.2)))) := by
  apply shares.changeDeclarations
  intro collected _ same
  cases same with
  | declarations =>
      rw [Renaming.environment, ← Environment.map_bindAll]
      exact .declarations _

theorem schedule (entries : List Control) :
    Commutes rename table kept Eq (Action.schedule entries) (Action.schedule entries) := by
  intro state keptState alike
  refine .ok rfl { alike with control := ?_ }
  exact congrArg (entries ++ ·) alike.control

theorem popBindable : Commutes rename table kept (fun value keptValue => keptValue = rename.value value)
    (Action.onValues ValueStack.popBindable) (Action.onValues ValueStack.popBindable) := by
  apply shares.popAs
  intro top keptTop same
  cases same with
  | bindable value => exact .some rfl
  | _ => exact .none

theorem popClosure : Commutes rename table kept
    (fun reference keptReference => keptReference = rename.reference reference)
    (Action.onValues ValueStack.popClosure) (Action.onValues ValueStack.popClosure) := by
  apply shares.popAs
  intro top keptTop same
  cases same with
  | bindable value => rcases value with _ | _ <;> constructor; rfl
  | _ => exact .none

theorem popIdentifier : Commutes rename table kept Eq (Action.onValues ValueStack.popIdentifier)
    (Action.onValues ValueStack.popIdentifier) := by
  apply shares.popSame
  intro entry keptEntry same
  cases same <;> rfl

theorem popMark : Commutes rename table kept (fun _ _ => True) (Action.onValues ValueStack.popMark)
    (Action.onValues ValueStack.popMark) := by
  apply shares.popAs
  intro top keptTop same
  cases same <;> constructor; trivial

theorem popEnvironment : Commutes rename table kept
    (fun saved keptSaved => keptSaved = rename.environment saved)
    (Action.onValues ValueStack.popEnvironment) (Action.onValues ValueStack.popEnvironment) := by
  apply shares.popAs
  intro top keptTop same
  cases same <;> constructor; rfl

theorem popDeclarations : Commutes rename table kept
    (fun collected keptCollected => keptCollected = rename.environment collected)
    (Action.onValues ValueStack.popDeclarations) (Action.onValues ValueStack.popDeclarations) := by
  apply shares.popAs
  intro top keptTop same
  cases same <;> constructor; rfl

/-! ## Code and names -/

theorem fetch (image : Image) (site : NodeId) :
    Commutes rename table kept Eq (Action.fetch image site) (Action.fetch image site) := by
  unfold Action.fetch
  split
  · exact .pure rfl
  · exact .fail rfl

theorem lookup (image : Image) (name : Name) :
    Commutes rename table kept (fun value keptValue => keptValue = rename.value value)
      (Action.lookup image name) (Action.lookup image name) := by
  intro state keptState alike
  simp only [Action.lookup, alike.lookup name]
  cases state.environment.lookup name with
  | none => exact .error alike
  | some value => exact .ok rfl alike

theorem locationOf (image : Image) (name : Name) :
    Commutes rename table kept Eq (Action.locationOf image name) (Action.locationOf image name) := by
  apply (lookup image name).bind
  intro value _ same
  subst same
  rcases value with (_ | _ | address) | reference
  · exact .fail rfl
  · exact .fail rfl
  · exact .pure rfl
  · exact .fail rfl

/-! ## Scopes and closures -/

theorem currentEnvironment : Commutes rename table kept
    (fun environment keptEnvironment => keptEnvironment = rename.environment environment)
    Action.currentEnvironment Action.currentEnvironment :=
  fun _ _ alike => .ok alike.environment alike

theorem setEnvironment (environment : Environment) :
    Commutes rename table kept Eq (Action.setEnvironment environment)
      (Action.setEnvironment (rename.environment environment)) :=
  fun _ _ alike => .ok rfl { alike with environment := rfl }

theorem openScope : Commutes rename table kept Eq Action.openScope Action.openScope := by
  intro state keptState alike
  have environments : rename.Entry (.environment state.environment)
      (.environment keptState.environment) := alike.environment ▸ .environment _
  have regions : rename.Entry (.region state.region) (.region keptState.region) :=
    alike.region ▸ .region _
  have same := alike.values.cons environments |>.cons regions |>.cons
    (.mark state.closures.mark keptState.closures.mark)
  exact .ok rfl { alike with values := same, region := rfl }

theorem closureAt (links : rename.Links table kept) {id : ClosureId}
    (known : id.index < table.size) :
    Commutes rename table kept (fun closure keptClosure => keptClosure = rename.closureEntry closure)
      (Action.closureAt id) (Action.closureAt (rename.closure id)) := by
  intro state keptState alike
  rcases ClosureTable.exists_closure?_of_lt known with ⟨closure, found⟩
  simp only [Action.closureAt, alike.closures, alike.keptClosures, found,
    links.closures id closure found]
  exact .ok rfl alike

theorem unfold (links : rename.Links table kept) {id : GroupId}
    (known : id.index < table.groupCount) :
    Commutes rename table kept
      (fun bindings keptBindings => keptBindings = rename.environment bindings)
      (Action.unfold id) (Action.unfold (rename.group id)) := by
  intro state keptState alike
  rcases ClosureTable.exists_members?_of_lt known with ⟨members, found⟩
  simp only [Action.unfold, alike.closures, alike.keptClosures, ClosureTable.groupEnvironment?,
    found, links.groups id members found, Option.map_some]
  refine .ok ?_ alike
  rw [Environment.ofList, ← Renaming.map_memberBindings, Environment.ofList, Renaming.environment,
    Environment.map_bindAll]
  rfl

/-! ## Entering nodes -/

variable (image : Image)

theorem enterIdentifier (name : Name) : Commutes rename table kept Eq
    (Action.enterIdentifier image name) (Action.enterIdentifier image name) := by
  apply (lookup image name).bind
  intro value _ same
  subst same
  rcases value with (_ | _ | address) | reference
  · exact shares.push (.bindable _)
  · exact shares.push (.bindable _)
  · exact (shares.read address).bind_eq fun held => shares.push (.bindable _)
  · exact shares.push (.bindable _)

theorem enterValueOf (name : Name) : Commutes rename table kept Eq
    (Action.enterValueOf image name) (Action.enterValueOf image name) := by
  refine (locationOf image name).bind_eq fun cell => (shares.read cell).bind_eq fun held => ?_
  cases held with
  | location target => exact (shares.read target).bind_eq fun held => shares.push (.bindable _)
  | number value => exact .fail rfl
  | boolean value => exact .fail rfl

theorem enterBlock (declarations commands : NodeId) : Commutes rename table kept Eq
    (Action.enterBlock declarations commands) (Action.enterBlock declarations commands) :=
  openScope.bind_eq fun _ => (shares.push (.declarations .empty)).bind_eq fun _ => schedule _

theorem requireFunctions (group : List Binding) : Commutes rename table kept Eq
    (Action.requireFunctions image group) (Action.requireFunctions image group) := by
  induction group with
  | nil => exact .pure rfl
  | cons member rest induction =>
      refine (fetch image member.2).bind_eq fun node => ?_
      split
      · exact induction
      · exact .fail rfl

theorem enterNode {site : NodeId} {node : Node}
    (noAbstraction : ∀ formals body, node ≠ .abstraction formals body) :
    Commutes rename table kept Eq (Action.enterNode image site node)
      (Action.enterNode image site node) := by
  cases node with
  | identifier name => exact enterIdentifier image name
  | number value => exact shares.push (.bindable (.storable (.number value)))
  | truth value => exact shares.push (.bindable (.storable (.boolean value)))
  | addressOf name =>
      exact (locationOf image name).bind_eq fun address =>
        shares.push (.bindable (.storable (.location address)))
  | valueOf name => exact enterValueOf image name
  | noOp => exact .pure rfl
  | assign target value => exact (shares.push (.identifier target)).bind_eq fun _ => schedule _
  | conditional condition thenBranch elseBranch =>
      exact (shares.push (.pending site)).bind_eq fun _ => schedule _
  | loop condition body => exact (shares.push (.pending site)).bind_eq fun _ => schedule _
  | block declarations commands => exact enterBlock declarations commands
  | bind name value => exact (shares.push (.identifier name)).bind_eq fun _ => schedule _
  | recBind span => exact (requireFunctions image _).bind_eq fun _ => schedule _
  | abstraction formals body => exact absurd rfl (noAbstraction formals body)
  | _ => exact schedule _

/-! ## Applying opcodes -/

theorem applyAssign :
    Commutes rename table kept Eq (Action.applyAssign image) (Action.applyAssign image) := by
  refine shares.popStorable.bind_eq fun value => popIdentifier.bind_eq fun target =>
    (lookup image target).bind ?_
  intro bound _ same
  subst same
  rcases bound with (_ | _ | address) | reference
  · exact .fail rfl
  · exact .fail rfl
  · exact shares.write address value
  · exact .fail rfl

theorem applyBind : Commutes rename table kept Eq Action.applyBind Action.applyBind := by
  apply popBindable.bind
  intro value _ same
  subst same
  exact popIdentifier.bind_eq fun name => declare [(name, value)]

theorem popMembers (group : List Binding) : Commutes rename table kept
    (fun members keptMembers => keptMembers = members.map rename.member)
    (Action.popMembers group) (Action.popMembers group) := by
  induction group with
  | nil => exact .pure rfl
  | cons head rest induction =>
      apply popClosure.bind
      intro reference _ same
      subst same
      apply induction.bind
      intro members _ same
      subst same
      exact .pure rfl

theorem applyBlockDeclarations : Commutes rename table kept Eq Action.applyBlockDeclarations
    Action.applyBlockDeclarations := by
  apply popDeclarations.bind
  intro declared _ same
  subst same
  apply currentEnvironment.bind
  intro outer _ same
  subst same
  rw [Renaming.environment, Renaming.environment, ← Environment.map_extend]
  exact setEnvironment (outer.extend declared)

theorem applyCond :
    Commutes rename table kept Eq (Action.applyCond image) (Action.applyCond image) := by
  refine shares.popBoolean.bind_eq fun condition => shares.popPending.bind_eq fun site =>
    (fetch image site).bind_eq fun node => ?_
  split
  next elseBranch =>
    split
    · exact schedule _
    · cases elseBranch with
      | none => exact .pure rfl
      | some elseBranch => exact schedule _
  next => exact .fail rfl

theorem applyLoop :
    Commutes rename table kept Eq (Action.applyLoop image) (Action.applyLoop image) := by
  refine shares.popBoolean.bind_eq fun condition => shares.popPending.bind_eq fun site =>
    (fetch image site).bind_eq fun node => ?_
  split
  · split
    · exact schedule _
    · exact .pure rfl
  · exact .fail rfl

theorem applyPrint : Commutes rename table kept Eq Action.applyPrint Action.applyPrint := by
  apply popBindable.bind
  intro value _ same
  subst same
  rw [Renaming.text_value]
  exact shares.println _

theorem bindActuals (home : Environment) (formals : List Name) : Commutes rename table kept
    (fun environment keptEnvironment => keptEnvironment = rename.environment environment)
    (Action.bindActuals home formals) (Action.bindActuals (rename.environment home) formals) := by
  induction formals generalizing home with
  | nil => exact .pure rfl
  | cons formal rest induction =>
      apply popBindable.bind
      intro actual _ same
      subst same
      rw [Renaming.environment, ← Environment.map_bind]
      exact induction (home.bind formal actual)

theorem homeEnvironment (links : rename.Links table kept) (closure : Closure)
    {group : Option GroupId} (known : ∀ id ∈ group, id.index < table.groupCount) :
    Commutes rename table kept
      (fun environment keptEnvironment => keptEnvironment = rename.environment environment)
      (Action.homeEnvironment closure group)
      (Action.homeEnvironment (rename.closureEntry closure) (group.map rename.group)) := by
  cases group with
  | none => exact .pure rfl
  | some id =>
      apply (unfold links (known id rfl)).bind
      intro bindings _ same
      subst same
      exact .pure (Environment.map_extend _ _).symm

/-- A call finds its callee in the tables if these cover the environment. -/
theorem applyCall (links : rename.Links table kept) (callee : Name) (arity : Nat)
    {state keptState : State} (alike : rename.Alike table kept state keptState)
    (covered : state.environment.Holds table.mark.Covers) :
    SameResult id Eq (rename.Alike table kept) (Action.applyCall image callee arity state)
      (Action.applyCall image callee arity keptState) := by
  have found : SameResult id
      (fun value keptValue => keptValue = rename.value value ∧ table.mark.Covers value)
      (rename.Alike table kept) (Action.lookup image callee state)
      (Action.lookup image callee keptState) := by
    simp only [Action.lookup, alike.lookup callee]
    cases bound : state.environment.lookup callee with
    | none => exact .error alike
    | some value => exact .ok ⟨rfl, covered.lookup bound⟩ alike
  apply found.bind (fun _ _ => id)
  intro value _ middle keptMiddle same related
  rcases same with ⟨rfl, covers⟩
  cases value with
  | storable value => exact .error related
  | closure reference =>
      refine SameEffect.bind (closureAt links covers.1) ?_ middle keptMiddle related
      intro closure _ same
      subst same
      refine (SameEffect.requireArity _ _ rfl rfl).bind_eq fun _ =>
        (homeEnvironment links closure covers.2).bind ?_
      intro home _ same
      subst same
      apply (bindActuals home _).bind
      intro environment _ same
      subst same
      exact openScope.bind_eq fun _ => (setEnvironment environment).bind_eq fun _ => schedule _

end Commutes

end BlockMachine
