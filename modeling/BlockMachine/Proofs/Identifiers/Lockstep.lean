import BlockMachine.Proofs.Identifiers.States

namespace BlockMachine

/-! # Lockstep of renamed programs

What a node or opcode does depends on names only in so far as they are equal. In states
that match, the nodes and opcodes of code that matches do the same, or come up with the
same fault but for the identifier that it speaks of. -/

theorem map_snd_eq {Same : Name → Name → Prop} {entries others : List (Name × α)}
    (same : List.Forall₂ (EntryMatches Same) entries others) :
    others.map Prod.snd = entries.map Prod.snd := by
  induction same with
  | nil => rfl
  | cons head _ induction => rw [List.map_cons, List.map_cons, head.2, induction]

/-- Images with code that matches, where corresponding names stand for a text and for
what that is changed to. -/
structure Image.Matches (Same : Name → Name → Prop) (change : String → String)
    (image other : Image) : Prop where
  program : image.program.Matches Same other.program
  text : ∀ name known, Same name known → other.text known = change (image.text name)

/-- Whether two actions do the same in states that match, but for the identifiers that a
fault speaks of. -/
abbrev Parallels (Same : Name → Name → Prop) (change : String → String) (Value : α → β → Prop)
    (action : Action α) (other : Action β) : Prop :=
  SameEffect (Fault.rename change) (State.Matches Same) Value action other

open State.Matches (shares)

namespace Parallels

variable {Same : Name → Name → Prop} {change : String → String}

/-! ## Stacks -/

theorem schedule {entries others : List Control}
    (same : List.Forall₂ (Control.Matches Same) entries others) :
    Parallels Same change Eq (Action.schedule entries) (Action.schedule others) :=
  fun _ _ states => .ok rfl { states with control := List.rel_append same states.control }

theorem scheduleOperands (operands : List NodeId) {opcode known : Opcode}
    (same : Control.Matches Same (.op opcode) (.op known)) :
    Parallels Same change Eq (Action.scheduleOperands operands opcode)
      (Action.scheduleOperands operands known) := by
  apply schedule
  refine List.rel_append (List.forall₂_same.mpr fun entry member => ?_) (.cons same .nil)
  rcases List.mem_map.mp member with ⟨id, _, rfl⟩
  exact .node id

/-- An opcode other than a call is scheduled as it is. -/
theorem scheduleNameless (operands : List NodeId) {opcode : Opcode}
    (nameless : ∀ callee arity, opcode ≠ .call callee arity) :
    Parallels Same change Eq (Action.scheduleOperands operands opcode)
      (Action.scheduleOperands operands opcode) :=
  scheduleOperands operands (.op nameless)

theorem popBindable : Parallels Same change Eq (Action.onValues ValueStack.popBindable)
    (Action.onValues ValueStack.popBindable) := by
  apply shares.popSame
  intro entry other same
  cases same <;> rfl

theorem popClosure : Parallels Same change Eq (Action.onValues ValueStack.popClosure)
    (Action.onValues ValueStack.popClosure) := by
  apply shares.popSame
  intro entry other same
  cases same <;> rfl

theorem popIdentifier : Parallels Same change Same (Action.onValues ValueStack.popIdentifier)
    (Action.onValues ValueStack.popIdentifier) := by
  apply shares.popAs
  intro top otherTop same
  cases same with
  | identifier names => exact .some names
  | _ => exact .none

theorem popMark : Parallels Same change Eq (Action.onValues ValueStack.popMark)
    (Action.onValues ValueStack.popMark) := by
  apply shares.popSame
  intro entry other same
  cases same <;> rfl

theorem popEnvironment : Parallels Same change (Environment.Matches Same)
    (Action.onValues ValueStack.popEnvironment) (Action.onValues ValueStack.popEnvironment) := by
  apply shares.popAs
  intro top otherTop same
  cases same with
  | environment saved => exact .some saved
  | _ => exact .none

theorem popDeclarations : Parallels Same change (Environment.Matches Same)
    (Action.onValues ValueStack.popDeclarations) (Action.onValues ValueStack.popDeclarations) := by
  apply shares.popAs
  intro top otherTop same
  cases same with
  | declarations collected => exact .some collected
  | _ => exact .none

theorem popMembers {group others : List Binding}
    (entries : List.Forall₂ (EntryMatches Same) group others) :
    Parallels Same change (List.Forall₂ (EntryMatches Same)) (Action.popMembers group)
      (Action.popMembers others) := by
  induction entries with
  | nil => exact .pure .nil
  | cons head _ induction =>
      exact popClosure.bind_eq fun reference => induction.bind fun members known rest =>
        .pure (.cons ⟨head.1, rfl⟩ rest)

theorem applyPrint : Parallels Same change Eq Action.applyPrint Action.applyPrint :=
  popBindable.bind_eq fun value => shares.println value.text

/-! ## Scopes and closures -/

theorem currentEnvironment : Parallels Same change (Environment.Matches Same)
    Action.currentEnvironment Action.currentEnvironment :=
  fun _ _ states => .ok states.environment states

theorem setEnvironment {environment other : Environment}
    (same : environment.Matches Same other) :
    Parallels Same change Eq (Action.setEnvironment environment) (Action.setEnvironment other) :=
  fun _ _ states => .ok rfl { states with environment := same }

theorem openScope : Parallels Same change Eq Action.openScope Action.openScope := by
  intro state otherState states
  have saved := states.values.cons (.environment states.environment)
  simp only [Action.openScope, states.region, states.closures.mark]
  exact .ok rfl { states with
    values := (saved.cons (.region state.region)).cons (.mark state.closures.mark)
    region := rfl }

theorem closeScope : Parallels Same change Eq Action.closeScope Action.closeScope := by
  refine popMark.bind_eq fun mark => shares.popRegion.bind_eq fun region => popEnvironment.bind
    fun environment other same => ?_
  intro state otherState states
  exact .ok rfl { states with
    store := by rw [states.region, states.store]
    environment := same
    region := rfl
    closures := states.closures.truncate mark }

theorem enterBlock (declarations commands : NodeId) : Parallels Same change Eq
    (Action.enterBlock declarations commands) (Action.enterBlock declarations commands) := by
  refine openScope.bind_eq fun _ => (shares.push (.declarations .empty)).bind_eq fun _ =>
    schedule ?_
  exact .cons (.node _) (.cons (.op (by simp)) (.cons (.node _) (.cons (.op (by simp)) .nil)))

theorem insertClosure {closure other : Closure} (same : closure.Matches Same other) :
    Parallels Same change Eq (Action.insertClosure closure) (Action.insertClosure other) := by
  intro state otherState states
  have inserted := states.closures.insert same
  exact .ok inserted.1.symm { states with closures := inserted.2 }

theorem addGroup {members others : List Member}
    (entries : List.Forall₂ (EntryMatches Same) members others) :
    Parallels Same change Eq (Action.addGroup members) (Action.addGroup others) := by
  intro state otherState states
  have added := states.closures.addGroup entries
  exact .ok added.1.symm { states with closures := added.2 }

theorem closureAt (id : ClosureId) :
    Parallels Same change (Closure.Matches Same) (Action.closureAt id) (Action.closureAt id) := by
  intro state otherState states
  have found := states.closures.closure? id
  simp only [Action.closureAt]
  generalize state.closures.closure? id = closure at found
  generalize otherState.closures.closure? id = other at found
  cases found with
  | some same => exact .ok same states
  | none => exact .error states

/-! ## Bindings -/

section

variable (unique : Relator.BiUnique Same)

include unique

theorem declare {bindings others : List (Name × Bindable)}
    (entries : List.Forall₂ (EntryMatches Same) bindings others) :
    Parallels Same change Eq (Action.onValues (ValueStack.declare bindings))
      (Action.onValues (ValueStack.declare others)) := by
  apply shares.changeDeclarations
  intro collected known same
  cases same with
  | declarations same => exact .declarations (same.bindAll unique entries)

theorem applyBind : Parallels Same change Eq Action.applyBind Action.applyBind :=
  popBindable.bind_eq fun _ => popIdentifier.bind fun _ _ names =>
    declare unique (.cons ⟨names, rfl⟩ .nil)

theorem applyBlockDeclarations : Parallels Same change Eq Action.applyBlockDeclarations
    Action.applyBlockDeclarations :=
  popDeclarations.bind fun _ _ same => currentEnvironment.bind
    fun _ _ sameOuter => setEnvironment (sameOuter.extend unique same)

theorem unfold (id : GroupId) :
    Parallels Same change (Environment.Matches Same) (Action.unfold id) (Action.unfold id) := by
  intro state otherState states
  have found := states.closures.members? id
  simp only [Action.unfold, ClosureTable.groupEnvironment?]
  generalize state.closures.members? id = members at found
  generalize otherState.closures.members? id = others at found
  cases found with
  | some entries =>
      exact .ok (Environment.Matches.empty.bindAll unique (forall₂_memberBindings id entries)) states
  | none => exact .error states

theorem homeEnvironment {closure otherClosure : Closure}
    (same : closure.Matches Same otherClosure) (group : Option GroupId) :
    Parallels Same change (Environment.Matches Same) (Action.homeEnvironment closure group)
      (Action.homeEnvironment otherClosure group) := by
  cases group with
  | none => exact .pure same.captured
  | some id =>
      exact (unfold unique id).bind fun bindings others overlay =>
        .pure (same.captured.extend unique overlay)

theorem bindActuals {home otherHome : Environment} (homes : home.Matches Same otherHome)
    {formals others : List Name} (named : List.Forall₂ Same formals others) :
    Parallels Same change (Environment.Matches Same) (Action.bindActuals home formals)
      (Action.bindActuals otherHome others) := by
  induction named generalizing home otherHome with
  | nil => exact .pure homes
  | cons names _ induction =>
      exact popBindable.bind_eq fun actual => induction (homes.bind unique names actual)

end

/-! ## Nodes -/

variable {image other : Image} (images : image.Matches Same change other)

include images

theorem fetch (id : NodeId) : Parallels Same change (Node.Matches Same) (Action.fetch image id)
    (Action.fetch other id) := by
  have found := images.program.code.node? id
  simp only [Action.fetch, Image.code]
  generalize image.program.code.node? id = node at found
  generalize other.program.code.node? id = otherNode at found
  cases found with
  | some same => exact .pure same
  | none => exact .fail rfl

theorem requireFunctions {group others : List Binding}
    (entries : List.Forall₂ (EntryMatches Same) group others) : Parallels Same change Eq
    (Action.requireFunctions image group) (Action.requireFunctions other others) := by
  induction entries with
  | nil => exact .pure rfl
  | @cons left right group others head _ induction =>
      rcases left with ⟨name, id⟩
      rcases right with ⟨known, _⟩
      rcases head with ⟨_, rfl⟩
      refine (fetch images _).bind fun node otherNode same => ?_
      cases same with
      | nameless =>
          split
          · exact induction
          · exact .fail rfl
      | _ => exact .fail rfl

theorem applyCond : Parallels Same change Eq (Action.applyCond image)
    (Action.applyCond other) := by
  refine shares.popBoolean.bind_eq fun condition => shares.popPending.bind_eq fun site =>
    (fetch images site).bind fun node otherNode same => ?_
  cases same with
  | nameless =>
      cases node with
      | conditional test thenBranch elseBranch =>
          simp only
          split
          · exact schedule (.cons (.node _) .nil)
          · cases elseBranch with
            | none => exact .pure rfl
            | some elseBranch => exact schedule (.cons (.node _) .nil)
      | _ => exact .fail rfl
  | _ => exact .fail rfl

theorem applyLoop : Parallels Same change Eq (Action.applyLoop image)
    (Action.applyLoop other) := by
  refine shares.popBoolean.bind_eq fun condition => shares.popPending.bind_eq fun site =>
    (fetch images site).bind fun node otherNode same => ?_
  cases same with
  | nameless =>
      cases node with
      | loop test body =>
          simp only
          split
          · exact schedule (.cons (.node _) (.cons (.node _) .nil))
          · exact .pure rfl
      | _ => exact .fail rfl
  | _ => exact .fail rfl

/-! ## Names -/

variable (unique : Relator.BiUnique Same)

include unique

theorem lookup {name known : Name} (names : Same name known) :
    Parallels Same change Eq (Action.lookup image name) (Action.lookup other known) := by
  intro state otherState states
  simp only [Action.lookup, states.environment.lookup unique names, images.text name known names]
  cases state.environment.lookup name with
  | some value => exact .ok rfl states
  | none => exact .error states

theorem locationOf {name known : Name} (names : Same name known) :
    Parallels Same change Eq (Action.locationOf image name) (Action.locationOf other known) := by
  refine (lookup images unique names).bind_eq fun value => ?_
  rw [images.text name known names]
  split
  · exact .pure rfl
  · exact .fail rfl

theorem enterIdentifier {name known : Name} (names : Same name known) :
    Parallels Same change Eq (Action.enterIdentifier image name)
      (Action.enterIdentifier other known) := by
  refine (lookup images unique names).bind_eq fun value => ?_
  split
  · exact (shares.read _).bind_eq fun held => shares.push (.bindable _)
  · exact shares.push (.bindable _)

theorem enterValueOf {name known : Name} (names : Same name known) :
    Parallels Same change Eq (Action.enterValueOf image name)
      (Action.enterValueOf other known) := by
  refine (locationOf images unique names).bind_eq fun cell =>
    (shares.read cell).bind_eq fun held => ?_
  rw [images.text name known names]
  split
  · exact (shares.read _).bind_eq fun held => shares.push (.bindable _)
  · exact .fail rfl

theorem applyAssign : Parallels Same change Eq (Action.applyAssign image)
    (Action.applyAssign other) := by
  refine shares.popStorable.bind_eq fun value => popIdentifier.bind fun name known names =>
    (lookup images unique names).bind_eq fun bound => ?_
  rw [images.text name known names]
  split
  · exact shares.write _ value
  · exact .fail rfl

theorem applyRecBind (site : NodeId) : Parallels Same change Eq (Action.applyRecBind image site)
    (Action.applyRecBind other site) := by
  refine (fetch images site).bind fun node otherNode same => ?_
  cases same with
  | nameless =>
      cases node with
      | recBind span =>
          refine (popMembers (images.program.code.group span)).bind fun _ _ entries =>
            (addGroup entries).bind_eq fun group => ?_
          rw [Action.changeDeclarations_bindMembers, Action.changeDeclarations_bindMembers]
          exact declare unique (forall₂_memberBindings group entries)
      | _ => exact .fail rfl
  | _ => exact .fail rfl

theorem applyCall {callee known : Name} (names : Same callee known) (arity : Nat) :
    Parallels Same change Eq (Action.applyCall image callee arity)
      (Action.applyCall other known arity) := by
  refine (lookup images unique names).bind_eq fun value => ?_
  rw [images.text callee known names]
  cases value with
  | storable value => exact .fail rfl
  | closure reference =>
      refine (closureAt reference.closure).bind fun closure otherClosure same => ?_
      have formals : List.Forall₂ Same (image.code.formals closure.formals)
        (other.code.formals closure.formals) := images.program.code.formals closure.formals
      simp only [same.formals, same.body, ← formals.length_eq]
      refine (SameEffect.requireArity _ _ rfl rfl).bind_eq fun _ => ?_
      refine (homeEnvironment unique same _).bind fun home otherHome homes => ?_
      refine (bindActuals unique homes formals).bind fun environment otherEnvironment bound => ?_
      refine openScope.bind_eq fun _ => (setEnvironment bound).bind_eq fun _ => schedule ?_
      exact .cons (.node _) (.cons (.op (by simp)) .nil)

/-! ## Entries of the control stack -/

theorem enterNode (site : NodeId) {node otherNode : Node} (same : node.Matches Same otherNode) :
    Parallels Same change Eq (Action.enterNode image site node)
      (Action.enterNode other site otherNode) := by
  cases same with
  | identifier names => exact enterIdentifier images unique names
  | valueOf names => exact enterValueOf images unique names
  | addressOf names =>
      exact (locationOf images unique names).bind_eq fun address => shares.push (.bindable _)
  | assign names value =>
      exact (shares.push (.identifier names)).bind_eq fun _ => scheduleNameless _ (by simp)
  | bind names value =>
      exact (shares.push (.identifier names)).bind_eq fun _ => scheduleNameless _ (by simp)
  | call names actuals =>
      have operands : other.code.actuals actuals = image.code.actuals actuals :=
        images.program.code.actuals actuals
      simp only [Action.enterNode, operands]
      exact scheduleOperands _ (.call names _)
  -- A node without names is the same in both, and what it schedules too.
  | nameless nameless =>
      cases node with
      | number value => exact shares.push (.bindable (.storable (.number value)))
      | truth value => exact shares.push (.bindable (.storable (.boolean value)))
      | noOp => exact .pure rfl
      | sequence first second => exact schedule (.cons (.node _) (.cons (.node _) .nil))
      | conditional condition thenBranch elseBranch =>
          exact (shares.push (.pending site)).bind_eq fun _ => scheduleNameless _ (by simp)
      | loop condition body =>
          exact (shares.push (.pending site)).bind_eq fun _ => scheduleNameless _ (by simp)
      | block declarations commands => exact enterBlock declarations commands
      | abstraction formals body =>
          refine currentEnvironment.bind fun environment known captured => ?_
          have closures : Closure.Matches Same ⟨formals, body, environment⟩
            ⟨formals, body, known⟩ := ⟨rfl, rfl, captured⟩
          exact (insertClosure closures).bind_eq fun closure => shares.push (.bindable _)
      | recBind span =>
          have entries : List.Forall₂ (EntryMatches Same) (image.code.group span)
            (other.code.group span) := images.program.code.group span
          simp only [Action.enterNode, map_snd_eq entries]
          exact (requireFunctions images entries).bind_eq fun _ => scheduleNameless _ (by simp)
      | arith | logic | not | allocateReference | print => exact scheduleNameless _ (by simp)
      | _ => simp [Node.names] at nameless

theorem enter (id : NodeId) :
    Parallels Same change Eq (Action.enter image id) (Action.enter other id) :=
  (fetch images id).bind fun _ _ same => enterNode images unique id same

theorem execute {entry known : Control} (same : entry.Matches Same known) :
    Parallels Same change Eq (entry.execute image) (known.execute other) := by
  cases same with
  | node id => exact enter images unique id
  | call names arity => exact applyCall images unique names arity
  | @op opcode nameless =>
      cases opcode with
      | arith op => exact shares.applyArith op
      | logic op => exact shares.applyLogic op
      | not => exact shares.applyNot
      | assign => exact applyAssign images unique
      | bind => exact applyBind unique
      | recBind site => exact applyRecBind images unique site
      | ref => exact shares.applyRef
      | blockDeclarations => exact applyBlockDeclarations unique
      | blockCommands => exact closeScope
      | cond => exact applyCond images
      | loop => exact applyLoop images
      | print => exact applyPrint
      | call callee arity => exact absurd rfl (nameless callee arity)

end Parallels

end BlockMachine
