import BlockMachine.Proofs.Declarations.Runs

namespace BlockMachine

/-! # Declarations are simultaneous

The declarations of a block can change places. Two machines that run them in different
orders from the same state get past them alike, and what they then have corresponds: what
the declarations have made is found at other places, and whatever refers to it follows. -/

namespace Environment

variable {environment : Environment}

theorem bind_comm {first second : Name} (different : first ≠ second) (left right : Bindable) :
    (environment.bind first left).bind second right =
      (environment.bind second right).bind first left := by
  apply ext_lookup
  intro query
  simp only [lookup_bind]
  by_cases isFirst : query = first
  · have notSecond : query ≠ second := isFirst ▸ different
    simp only [isFirst, if_true, if_neg (isFirst ▸ notSecond)]
  · simp only [if_neg isFirst]

/-- The order of bindings does not matter if no name is bound twice. -/
theorem bindAll_perm {entries others : List (Name × Bindable)} (perm : entries.Perm others)
    (nodup : (entries.map Prod.fst).Nodup) :
    environment.bindAll entries = environment.bindAll others := by
  apply perm.foldl_eq'
  intro first isFirst second isSecond bound
  by_cases same : first.1 = second.1
  · rw [List.inj_on_of_nodup_map nodup isFirst isSecond same]
  · exact bind_comm same first.2 second.2

end Environment

/-! ## Correspondence -/

/-- Whether a node runs just these commands. -/
def Draft.LaysBody (draft : Draft) (body : List Command) (id : NodeId) : Prop :=
  ∃ ids, draft.LaysCommands body ids ∧ draft.code.Flattens id ids

namespace Exchange

variable (exchange : Exchange)

/-- Whether two closures are of one function, which two images lay out, and have captured
the same but for the exchange. -/
structure SameFunction (image other : Image) (closure twin : Closure) : Prop where
  captured : twin.captured = closure.captured.map exchange.value
  laid : ∃ formals body,
    image.draft.LaysClosure formals body closure ∧ other.draft.LaysClosure formals body twin

/-- Whether what two machines have made since `start` corresponds, and both go on with the
commands of `body`. Addresses and entries of the tables from before stay what they are, and
so does all that they hold. -/
structure Carries (image other : Image) (body : List Command) (start after twin : State) :
    Prop where
  within : exchange.Within start.extent after.extent
  extent : twin.extent = after.extent
  environment : twin.environment = after.environment.map exchange.value
  cells : ∀ address, twin.store.get? (exchange.address address) =
    (after.store.get? address).map exchange.storable
  older : ∀ address, address.index < start.store.cells.size →
    after.store.get? address = start.store.get? address ∧
    twin.store.get? address = start.store.get? address
  grows : start.closures.Grows after.closures
  twinGrows : start.closures.Grows twin.closures
  closures : ∀ id closure, after.closures.closure? id = some closure →
    start.closures.size ≤ id.index →
      ∃ twinClosure, twin.closures.closure? (exchange.toRenaming.closure id) = some twinClosure ∧
        exchange.SameFunction image other closure twinClosure
  groups : ∀ id, twin.closures.members? (exchange.toRenaming.group id) =
    (after.closures.members? id).map (List.map exchange.toRenaming.member)
  values : twin.values = after.values
  region : twin.region = after.region
  printer : after.printer = start.printer ∧ twin.printer = start.printer
  steps : twin.steps = after.steps
  control : ∃ commands twinCommands,
    after.control = .node commands :: .op .blockCommands :: start.control ∧
    twin.control = .node twinCommands :: .op .blockCommands :: start.control ∧
    image.draft.LaysBody body commands ∧ other.draft.LaysBody body twinCommands

variable {exchange}

/-- An exchange of what is new does not change what can be read. -/
theorem Within.value_eq_of_evaluate {exchange : Exchange} {start : State} {last : Extent}
    (within : exchange.Within start.extent last) (issued : start.Issued) (covered : start.Covered)
    {image : Image} {expr : Expr} {value : Bindable}
    (found : expr.evaluate (Action.reading image start) = .ok value) :
    exchange.value value = value := by
  have provides : (Action.reading image start).Provides fun value =>
      start.store.Issued value ∧ start.closures.mark.Covers value := {
    environment := fun entry member =>
      ⟨issued.holds.environment entry member, covered.environment entry member⟩
    cells := fun address value held => ⟨issued.cells address value held, trivial⟩
    number := fun _ => ⟨trivial, trivial⟩
    boolean := fun _ => ⟨trivial, trivial⟩ }
  have known := Expr.yields_evaluate provides expr value found
  exact within.value_eq known.1 known.2

theorem Within.map_environment {exchange : Exchange} {start : State} {last : Extent}
    (within : exchange.Within start.extent last) (issued : start.Issued) (covered : start.Covered) :
    start.environment.map exchange.value = start.environment := by
  have same : start.environment.Holds fun value => exchange.value value = id value :=
    fun entry member =>
      within.value_eq (issued.holds.environment entry member) (covered.environment entry member)
  rw [Environment.map_congr same]
  simp [Environment.map]

end Exchange

namespace Setting

/-- Whether two machines have run the same declarations in different orders, both for a
block that they entered from `start`. -/
structure Reorders (setting twin : Setting) (start : State) (control twinControl : List Control)
    (parts others : List Declaration) (made twinMade : State) : Prop where
  distinct : Declaration.Distinct parts
  perm : parts.Perm others
  sameNames : twin.image.names = setting.image.names
  issued : start.Issued
  covered : start.Covered
  left : setting.Declared (start.declaring control (openingCost parts)) .empty start.saved parts
    made
  right : twin.Declared (start.declaring twinControl (openingCost others)) .empty start.saved
    others twinMade

namespace Reorders

variable {setting twin : Setting} {start made twinMade : State} {parts others : List Declaration}
  {control twinControl : List Control}

def exchange
    (reorders : setting.Reorders twin start control twinControl parts others made twinMade) :
    Exchange :=
  reorders.distinct.exchange reorders.perm start.extent

variable
  (reorders : setting.Reorders twin start control twinControl parts others made twinMade)

include reorders

theorem reading_eq : twin.reading start = setting.reading start := by
  rw [reading, reading, Action.reading, Action.reading, reorders.sameNames]

theorem within_made : reorders.exchange.Within start.extent made.extent :=
  reorders.left.extent ▸ reorders.distinct.within_exchange reorders.perm start.extent

theorem extent_eq : twinMade.extent = made.extent := by
  rw [reorders.right.extent, reorders.left.extent]
  exact Extent.after_perm _ reorders.perm

/-! ### Cells -/

theorem older {address : Address} (known : address.index < start.store.cells.size) :
    made.store.get? address = start.store.get? address ∧
      twinMade.store.get? address = start.store.get? address :=
  ⟨reorders.left.older address known, reorders.right.older address known⟩

/-- A cell is made with the value that its declaration gives it, wherever it lies. -/
theorem cells {text : String} {initial : Expr} (member : .var text initial ∈ parts) :
    ∃ value, initial.evaluate (setting.reading start) = .ok (.storable value) ∧
      made.store.get? ((start.extent.places parts).cell text) = some value ∧
      twinMade.store.get? ((start.extent.places others).cell text) = some value := by
  rcases reorders.left.cells text initial member with ⟨value, found, held⟩
  rcases reorders.right.cells text initial (reorders.perm.mem_iff.mp member) with
    ⟨twinValue, twinFound, twinHeld⟩
  have found : initial.evaluate (setting.reading start) = .ok (.storable value) := found
  have twinFound : initial.evaluate (twin.reading start) = .ok (.storable twinValue) := twinFound
  rw [reorders.reading_eq, found] at twinFound
  cases twinFound
  exact ⟨value, found, held, twinHeld⟩

theorem get?_exchange (address : Address) :
    twinMade.store.get? (reorders.exchange.address address) =
      (made.store.get? address).map reorders.exchange.storable := by
  have within := reorders.within_made
  rcases place_or_outside start.extent.cells address.index reorders.distinct.cells with
    ⟨text, isMade, same⟩ | below | beyond
  · rcases List.mem_flatMap.mp isMade with ⟨part, member, isCell⟩
    cases part with
    | var other initial =>
        cases List.mem_singleton.mp isCell
        have isPlace : address = (start.extent.places parts).cell text := congrArg Address.mk same
        have moves : reorders.exchange.address address = (start.extent.places others).cell text :=
          isPlace ▸ reorders.distinct.exchange_cell start.extent reorders.perm member
            List.mem_cons_self
        rcases reorders.cells member with ⟨value, found, held, twinHeld⟩
        have known := Expr.yields_evaluate (reorders.issued.reading setting.image) initial _ found
        rw [moves, twinHeld, isPlace, held, Option.map_some, within.storable_eq known]
    | _ => cases isCell
  · have sameAddress : reorders.exchange.address address = address :=
      congrArg Address.mk (within.cells _ (.inl below))
    rcases reorders.older below with ⟨kept, twinKept⟩
    rw [sameAddress, kept, twinKept]
    cases held : start.store.get? address with
    | none => rfl
    | some value => rw [Option.map_some, within.storable_eq (reorders.issued.cells _ _ held)]
  · have beyond : made.extent.cells ≤ address.index := reorders.left.extent ▸ beyond
    have sameAddress : reorders.exchange.address address = address :=
      congrArg Address.mk (within.cells _ (.inr beyond))
    have beyondToo : twinMade.extent.cells ≤ address.index := reorders.extent_eq ▸ beyond
    rw [sameAddress, Store.get?_eq_none_of_le beyond, Store.get?_eq_none_of_le beyondToo]
    rfl

/-! ### Closures and groups -/

theorem map_environment : start.environment.map reorders.exchange.value = start.environment :=
  reorders.within_made.map_environment reorders.issued reorders.covered

/-- A new closure is one of the same function in the same environment, wherever it lies. -/
theorem exists_sameFunction {id : ClosureId} {closure : Closure}
    (found : made.closures.closure? id = some closure) (isNew : start.closures.size ≤ id.index) :
    ∃ twinClosure,
      twinMade.closures.closure? (reorders.exchange.toRenaming.closure id) = some twinClosure ∧
        reorders.exchange.SameFunction setting.image twin.image closure twinClosure := by
  have inside : id.index < made.extent.closures := ClosureTable.index_lt_of_closure? found
  rw [reorders.left.extent] at inside
  rcases place_or_outside start.extent.closures id.index reorders.distinct.closures with
    ⟨text, isMade, same⟩ | below | beyond
  · rcases List.mem_flatMap.mp isMade with ⟨part, member, isClosure⟩
    rcases List.mem_map.mp isClosure with ⟨function, isFunction, rfl⟩
    have isPlace : id = (start.extent.places parts).closure function.name :=
      congrArg ClosureId.mk same
    have moves : reorders.exchange.toRenaming.closure id =
        (start.extent.places others).closure function.name :=
      isPlace ▸ reorders.distinct.exchange_closure start.extent reorders.perm member isClosure
    have laid := reorders.left.closures part member function isFunction
    have twinLaid := reorders.right.closures part (reorders.perm.mem_iff.mp member) function
      isFunction
    cases laid with
    | @mk text formals body _ _ listed _ listedAt sameScope laid =>
        have listedAt : made.closures.closure? id = some listed := isPlace ▸ listedAt
        cases found.symm.trans listedAt
        cases twinLaid with
        | @mk _ _ _ _ _ twinClosure _ twinListed twinScope twinLaid =>
            refine ⟨twinClosure, moves ▸ twinListed, ?_, formals, body, laid, twinLaid⟩
            rw [twinScope, sameScope]
            exact reorders.map_environment.symm
  · exact absurd isNew (Nat.not_le.mpr below)
  · exact absurd inside (Nat.not_lt.mpr beyond)

theorem label_twin (entry : String × α) : twin.draft.label entry = setting.draft.label entry := by
  have sameNames : twin.draft.names = setting.draft.names := reorders.sameNames
  rw [Draft.label, Draft.label, Draft.nameOf, Draft.nameOf, sameNames]

/-- A group is made with its members, wherever they lie. -/
theorem groups {group : List Function} (member : .recursive group ∈ parts) :
    made.closures.members? ((start.extent.places parts).group (group.map Function.name)) =
        some (group.map fun function => setting.draft.label
          (function.name, (start.extent.places parts).closure function.name)) ∧
      twinMade.closures.members? ((start.extent.places others).group (group.map Function.name)) =
        some (group.map fun function => setting.draft.label
          (function.name, (start.extent.places others).closure function.name)) := by
  refine ⟨reorders.left.groups group member, ?_⟩
  have listed := reorders.right.groups group (reorders.perm.mem_iff.mp member)
  simp only [reorders.label_twin] at listed
  exact listed

theorem members?_exchange (id : GroupId) :
    twinMade.closures.members? (reorders.exchange.toRenaming.group id) =
      (made.closures.members? id).map (List.map reorders.exchange.toRenaming.member) := by
  have within := reorders.within_made
  rcases place_or_outside start.extent.groups id.index reorders.distinct.groups with
    ⟨names, isMade, same⟩ | below | beyond
  · rcases List.mem_flatMap.mp isMade with ⟨part, member, isGroup⟩
    cases part with
    | recursive group =>
        cases List.mem_singleton.mp isGroup
        have isPlace : id = (start.extent.places parts).group (group.map Function.name) :=
          congrArg GroupId.mk same
        have moves : reorders.exchange.toRenaming.group id =
            (start.extent.places others).group (group.map Function.name) :=
          isPlace ▸ reorders.distinct.exchange_group start.extent reorders.perm member isGroup
        rcases reorders.groups member with ⟨listed, twinListed⟩
        rw [moves, twinListed, isPlace, listed, Option.map_some, List.map_map]
        apply congrArg some
        apply List.map_congr_left
        intro function isMember
        have movesClosure := reorders.distinct.exchange_closure start.extent reorders.perm member
          (Declaration.name_mem_closures isMember)
        exact congrArg (Prod.mk _) movesClosure.symm
    | _ => cases isGroup
  · have sameId : reorders.exchange.toRenaming.group id = id :=
      congrArg GroupId.mk (within.groups _ (.inl below))
    have kept : made.closures.members? id = start.closures.members? id :=
      reorders.left.grows.groups id below
    have twinKept : twinMade.closures.members? id = start.closures.members? id :=
      reorders.right.grows.groups id below
    rw [sameId, kept, twinKept]
    cases listed : start.closures.members? id with
    | none => rfl
    | some members =>
        have fixed : members.map reorders.exchange.toRenaming.member =
            members.map fun member => member := by
          apply List.map_congr_left
          intro member isMember
          have known := reorders.covered.members id members listed member isMember
          have sameClosure := within.closures member.2.index (.inl known)
          exact congrArg (fun index => (member.1, ClosureId.mk index)) sameClosure
        rw [Option.map_some, fixed, List.map_id']
  · have beyond : made.extent.groups ≤ id.index := reorders.left.extent ▸ beyond
    have sameId : reorders.exchange.toRenaming.group id = id :=
      congrArg GroupId.mk (within.groups _ (.inr beyond))
    have twinBeyond : twinMade.extent.groups ≤ id.index := reorders.extent_eq ▸ beyond
    have absent : made.closures.members? id = none := Array.getElem?_eq_none beyond
    have twinAbsent : twinMade.closures.members? id = none := Array.getElem?_eq_none twinBeyond
    rw [sameId, absent, twinAbsent]
    rfl

/-! ### Names -/

/-- No two declarations bind one name, as no two declare one identifier. -/
theorem nodup_names (succeed : ∀ part ∈ parts, part.Succeeds (setting.reading start)) :
    ((setting.bindings start parts).map Prod.fst).Nodup := by
  have texts : (parts.flatMap (Declaration.bindings (setting.reading start)
      (start.extent.places parts))).map Prod.fst = parts.flatMap Declaration.names := by
    rw [List.map_flatMap]
    apply List.flatMap_congr
    intro part member
    exact Declaration.map_fst_bindings (succeed part member) _
  have names : (setting.bindings start parts).map Prod.fst =
      (parts.flatMap Declaration.names).map setting.draft.nameOf := by
    rw [← texts, bindings, List.map_map, List.map_map]
    rfl
  rw [names]
  apply reorders.distinct.names.map_on
  intro first isFirst second isSecond same
  rcases reorders.left.named first isFirst with ⟨name, named⟩
  rcases reorders.left.named second isSecond with ⟨other, namedToo⟩
  rw [named.nameOf_eq, namedToo.nameOf_eq] at same
  exact named.text_eq (same ▸ namedToo)

theorem perm_bindings :
    ((setting.bindings start parts).map fun entry =>
      (entry.1, reorders.exchange.value entry.2)).Perm (twin.bindings start others) := by
  have within := reorders.within_made
  have sameLabel : twin.draft.label = (setting.draft.label : String × Bindable → Name × Bindable) :=
    funext reorders.label_twin
  have fixed (expr : Expr) (value : Bindable)
      (found : expr.evaluate (setting.reading start) = .ok value) :
      reorders.exchange.value value = value :=
    within.value_eq_of_evaluate reorders.issued reorders.covered found
  have perm := (reorders.distinct.perm_bindings start.extent reorders.perm fixed).map
    setting.draft.label
  rw [bindings, bindings, sameLabel, reorders.reading_eq]
  rw [List.map_map] at perm ⊢
  exact perm

/-- Each name is bound to what corresponds to its value in the other order. -/
theorem environment_eq (succeed : ∀ part ∈ parts, part.Succeeds (setting.reading start)) :
    start.environment.extend (Environment.empty.bindAll (twin.bindings start others)) =
      (start.environment.extend (Environment.empty.bindAll (setting.bindings start parts))).map
        reorders.exchange.value := by
  have nodup : (((setting.bindings start parts).map fun entry =>
      (entry.1, reorders.exchange.value entry.2)).map Prod.fst).Nodup := by
    rw [List.map_map]
    exact reorders.nodup_names succeed
  rw [Environment.map_extend, reorders.map_environment, Environment.map_bindAll]
  exact congrArg _ (Environment.bindAll_perm reorders.perm_bindings nodup).symm

/-! ### States -/

theorem steps_eq : twinMade.steps = made.steps := by
  have opening : openingCost others = openingCost parts :=
    congrArg (1 + sequenceCost ·) reorders.perm.length_eq.symm
  have costs := Declaration.totalCost_perm reorders.perm
  rw [reorders.right.steps, reorders.left.steps, costs, State.declaring, State.declaring, opening]

theorem region_eq : twinMade.region = made.region := by
  have cells := (reorders.perm.flatMap_right Declaration.cells).length_eq
  have addresses : twinMade.region.addresses = made.region.addresses := by
    rw [reorders.right.region, reorders.left.region, cells]
    rfl
  exact congrArg Region.mk addresses

/-- The states in which the commands of the block are run correspond. -/
theorem carries (succeed : ∀ part ∈ parts, part.Succeeds (setting.reading start))
    {body : List Command} {commands twinCommands : NodeId}
    (laid : setting.draft.LaysBody body commands)
    (twinLaid : twin.draft.LaysBody body twinCommands) :
    reorders.exchange.Carries setting.image twin.image body start
      (start.commanding made (.node commands :: .op .blockCommands :: start.control)
        (setting.bindings start parts))
      (start.commanding twinMade (.node twinCommands :: .op .blockCommands :: start.control)
        (twin.bindings start others)) where
  within := reorders.within_made
  extent := reorders.extent_eq
  environment := reorders.environment_eq succeed
  cells := reorders.get?_exchange
  older := fun _ known => reorders.older known
  grows := reorders.left.grows
  twinGrows := reorders.right.grows
  closures := fun _ _ found isNew => reorders.exists_sameFunction found isNew
  groups := reorders.members?_exchange
  values := rfl
  region := reorders.region_eq
  printer := ⟨reorders.left.printer, reorders.right.printer⟩
  steps := congrArg (· + 1) reorders.steps_eq
  control := ⟨commands, twinCommands, rfl, rfl, laid, twinLaid⟩

end Reorders

end Setting

namespace Build

/-- No group of an accepted block is empty. -/
theorem ensures_notEmpty (parts : List Declaration) :
    (declarations parts).Ensures fun _ _ => ∀ group, .recursive group ∈ parts → group ≠ [] := by
  have single (part : Declaration) :
      (declaration part).Ensures fun _ _ => part ≠ .recursive [] := by
    cases part with
    | recursive group =>
        cases group with
        | nil => exact .reject _
        | cons => exact (ensures_declaration _).mono fun _ _ _ => by simp
    | _ => exact (ensures_declaration _).mono fun _ _ _ => by simp
  induction parts with
  | nil => exact .pure fun _ => by simp
  | cons first rest induction =>
      refine (single first).bind fun _ => induction.bind fun _ => .pure ?_
      intro _ restNotEmpty firstNotEmpty group member
      rcases List.mem_cons.mp member with rfl | later
      · intro empty
        exact firstNotEmpty (congrArg Declaration.recursive empty)
      · exact restNotEmpty group later

theorem distinct_of_block {parts : List Declaration} {body : List Command} {before grown : Draft}
    {id : NodeId} (built : block (.mk parts body) before = .ok id grown)
    (nodup : (parts.flatMap Declaration.names).Nodup) : Declaration.Distinct parts := by
  rcases exists_of_bind_eq_ok built with ⟨declared, middle, builtParts, _⟩
  exact ⟨nodup, (ensures_notEmpty parts _ _ _ builtParts).2 middle (.refl _)⟩

/-- What an accepted block is laid out as. -/
theorem exists_laid_of_block {parts : List Declaration} {body : List Command}
    {before grown : Draft} {id : NodeId} {image : Image}
    (built : block (.mk parts body) before = .ok id grown) (grows : grown.Extends image.draft) :
    ∃ declared declarations commands, image.draft.LaysDeclarations parts declared ∧
      image.code.Flattens declarations declared ∧ image.draft.LaysBody body commands ∧
      image.code.node? id = some (.block declarations commands) := by
  cases (ensures_block _ _ _ _ built).2 _ grows with
  | mk partsLaid declarationsFlat bodyLaid commandsFlat fetched =>
      exact ⟨_, _, _, partsLaid, declarationsFlat, ⟨_, bodyLaid, commandsFlat⟩, fetched⟩

/-- What an attempt to translate something has written. -/
def written : EStateM.Result Rejection Draft NodeId → Draft
  | .ok _ draft | .error _ draft => draft

def node? : EStateM.Result Rejection Draft NodeId → Option NodeId
  | .ok id _ => some id
  | .error _ _ => none

theorem eq_ok_of_node? {result : EStateM.Result Rejection Draft NodeId} {id : NodeId}
    (found : node? result = some id) : result = .ok id (written result) := by
  cases result with
  | ok => cases found; rfl
  | error => cases found

end Build

/-- The image of a draft that is finished. -/
def Image.ofDraft (draft : Draft) (root : NodeId) : Image :=
  ⟨⟨draft.code, root⟩, draft.names⟩

theorem Draft.extends_ofDraft (draft : Draft) (root : NodeId) :
    draft.Extends (Image.ofDraft draft root).draft :=
  .refl draft

namespace Machine

/-- A machine that is about to enter a node, with what a state has scheduled left for
later. -/
def entering (image : Image) (options : Options) (state : State) (id : NodeId) : Machine :=
  ⟨image, options, { state with control := .node id :: state.control }⟩

theorem Reaches.issued_and_covered {image : Image} {options : Options} {printer : Printer}
    {machine : Machine} (reaches : (load image options printer).Reaches machine) :
    machine.state.Issued ∧ machine.state.Covered :=
  ⟨reaches.issued (State.Issued.start _ _),
    (reaches.settled_covers (State.owns_start _ _) (State.settled_start _ _)).2.covered⟩

/-- The declarations of a block are simultaneous. In a state that a program comes to, a
machine gets past the declarations of a block in one order if and only if it does in
another one. It takes as many steps, and has the same but for an exchange of what the
declarations have made. -/
theorem declarations_simultaneous {image other : Image} {options : Options}
    (unlimited : options.maxSteps = none) (sameNames : other.names = image.names)
    {parts others : List Declaration} {body : List Command}
    (perm : parts.Perm others) (nodup : (parts.flatMap Declaration.names).Nodup)
    {before grown otherBefore otherGrown : Draft} {id otherId : NodeId}
    (built : Build.block (.mk parts body) before = .ok id grown)
    (grows : grown.Extends image.draft)
    (otherBuilt : Build.block (.mk others body) otherBefore = .ok otherId otherGrown)
    (otherGrows : otherGrown.Extends other.draft)
    {state : State} (issued : state.Issued) (covered : state.Covered) :
    (∀ image options printer machine, (load image options printer).Reaches machine →
      machine.state.Issued ∧ machine.state.Covered) ∧
    ((∃ after, (entering image options state id).PassesDeclarations after) ↔
      ∃ twin, (entering other options state otherId).PassesDeclarations twin) ∧
    ∀ after twin, (entering image options state id).PassesDeclarations after →
      (entering other options state otherId).PassesDeclarations twin →
      ∃ exchange : Exchange, exchange.Carries image other body state after.state twin.state := by
  have distinct := Build.distinct_of_block built nodup
  rcases Build.exists_laid_of_block built grows with
    ⟨declared, declarations, commands, laid, flat, bodyLaid, fetched⟩
  rcases Build.exists_laid_of_block otherBuilt otherGrows with
    ⟨otherDeclared, otherDeclarations, otherCommands, otherLaid, otherFlat, otherBodyLaid,
      otherFetched⟩
  let setting : Setting := ⟨image, options, state.printer, unlimited⟩
  let otherSetting : Setting := ⟨other, options, state.printer, unlimited⟩
  let start (id : NodeId) : State := { state with control := .node id :: state.control }
  have sameReading : otherSetting.reading state = setting.reading state :=
    congrArg (Reading.mk · state.environment state.store) sameNames
  rcases @Setting.passesDeclarations setting _ (start id) _ _ _ _ _ laid flat fetched distinct
    (issued.reading image) rfl with ⟨exists_iff, passed⟩
  rcases @Setting.passesDeclarations otherSetting _ (start otherId) _ _ _ _ _ otherLaid otherFlat
    otherFetched (distinct.perm perm) (issued.reading other) rfl with ⟨exists_iffToo, passedToo⟩
  have succeed_iff : (∀ part ∈ others, part.Succeeds (otherSetting.reading state)) ↔
      ∀ part ∈ parts, part.Succeeds (setting.reading state) := by
    simp only [sameReading, perm.mem_iff]
  refine ⟨fun _ _ _ _ reaches => reaches.issued_and_covered, ?_, ?_⟩
  · exact exists_iff.trans (succeed_iff.symm.trans exists_iffToo.symm)
  · intro after twin passes passesToo
    rcases passed after passes with ⟨control, made, left, rfl⟩
    rcases passedToo twin passesToo with ⟨twinControl, twinMade, right, rfl⟩
    have reorders : setting.Reorders otherSetting state control twinControl parts others made
        twinMade :=
      ⟨distinct, perm, sameNames, issued, covered, left, right⟩
    have succeed := exists_iff.mp ⟨_, passes⟩
    exact ⟨_, reorders.carries succeed bodyLaid otherBodyLaid⟩

/-- Declarations of every kind. Some of them read a cell from outside of the block. -/
def mixed : List Declaration :=
  [.var "pointer" (.addressOf "outer"), .const "held" (.ident "outer"),
    .function (.mk "show" ["value"] (.mk [] [.print (.ident "value")])),
    .recursive [.mk "first" [] (.mk [] [.call "second" []]), .mk "second" [] (.mk [] [])],
    .var "copy" (.ident "outer")]

def printing : List Command := [.print (.ident "held")]

/-- What translation has written after the block. -/
def mixedDraft : Draft :=
  Build.written (Build.block (.mk mixed printing) ⟨.initial, .empty⟩)

/-- The same with the block once more, its declarations in reverse order. -/
def reversedDraft : Draft :=
  Build.written (Build.block (.mk mixed.reverse printing) mixedDraft)

def mixedImage : Image :=
  .ofDraft reversedDraft ⟨29⟩

/-- A state in which a cell is bound to the name from outside of the block. -/
def outside : State :=
  { State.start ⟨29⟩ .silent with
    control := []
    store := (Store.empty.allocate (.number 5)).2
    environment := Environment.empty.bind ⟨1⟩ (.storable (.location ⟨0⟩)) }

/-- From the same state the machine gets past the declarations in both orders. -/
theorem declarations_simultaneous_reversed :
    Build.block (.mk mixed printing) ⟨.initial, .empty⟩ = .ok ⟨29⟩ mixedDraft ∧
    Build.block (.mk mixed.reverse printing) mixedDraft = .ok ⟨59⟩ reversedDraft ∧
    outside.Issued ∧ outside.Covered ∧
    ∃ after twin exchange,
      (entering mixedImage .unbounded outside ⟨29⟩).PassesDeclarations after ∧
      (entering mixedImage .unbounded outside ⟨59⟩).PassesDeclarations twin ∧
      Exchange.Carries exchange mixedImage mixedImage printing outside after.state twin.state := by
  have built : Build.block (.mk mixed printing) ⟨.initial, .empty⟩ = .ok ⟨29⟩ mixedDraft :=
    Build.eq_ok_of_node? (by decide +kernel)
  have reversedBuilt : Build.block (.mk mixed.reverse printing) mixedDraft =
      .ok ⟨59⟩ reversedDraft :=
    Build.eq_ok_of_node? (by decide +kernel)
  have reversedGrows : reversedDraft.Extends mixedImage.draft := Draft.extends_ofDraft _ _
  have grows : mixedDraft.Extends mixedImage.draft :=
    (Build.ensures_block _ _ _ _ reversedBuilt).1.trans reversedGrows
  have nodup : (mixed.flatMap Declaration.names).Nodup := by decide
  have issued : outside.Issued := {
    holds := {
      environment := Environment.holds_empty.bind _ Nat.zero_lt_one
      values := by simp [outside, State.start]
      captured := by
        intro _ _ found
        cases found }
    cells := (State.Issued.start ⟨29⟩ .silent).cells.allocate trivial }
  have covered : outside.Covered := {
    environment := Environment.holds_empty.bind _ trivial
    values := by simp [outside, State.start]
    captured := by
      intro _ _ found
      cases found
    members := by
      intro _ _ found
      cases found }
  have unlimited : Options.unbounded.maxSteps = none := rfl
  rcases declarations_simultaneous unlimited rfl (List.reverse_perm mixed).symm nodup built grows
    reversedBuilt reversedGrows issued covered with ⟨_, exists_iff, carries⟩
  have passes : ∃ after,
      (entering mixedImage .unbounded outside ⟨29⟩).PassesDeclarations after := by
    rcases Build.exists_laid_of_block built grows with
      ⟨declared, declarations, commands, laid, flat, _, fetched⟩
    let setting : Setting := ⟨mixedImage, .unbounded, outside.printer, unlimited⟩
    have distinct := Build.distinct_of_block built nodup
    have passes := @Setting.passesDeclarations setting _
      { outside with control := .node ⟨29⟩ :: outside.control } _ _ _ _ _ laid flat fetched distinct
      (issued.reading mixedImage) rfl
    apply passes.1.mpr
    have named : mixedImage.names.find? "outer" = some ⟨1⟩ := by decide +kernel
    have found : (Action.reading mixedImage outside).find "outer" =
        .ok (.storable (.location ⟨0⟩)) := by
      simp only [Reading.find, Action.reading, named]
      rfl
    have read : (Expr.ident "outer").evaluate (Action.reading mixedImage outside) =
        .ok (.storable (.number 5)) := by
      simp only [Expr.evaluate, found]
      rfl
    have locate : (Expr.addressOf "outer").evaluate (Action.reading mixedImage outside) =
        .ok (.storable (.location ⟨0⟩)) := by
      simp only [Expr.evaluate, Reading.locate, found]
      rfl
    simp only [mixed, List.forall_mem_cons]
    exact ⟨⟨_, locate⟩, ⟨_, read⟩, trivial, trivial, ⟨_, read⟩, List.forall_mem_nil _⟩
  rcases passes with ⟨after, passes⟩
  rcases exists_iff.mp ⟨after, passes⟩ with ⟨twin, twinPasses⟩
  rcases carries after twin passes twinPasses with ⟨exchange, carried⟩
  exact ⟨built, reversedBuilt, issued, covered, after, twin, exchange, passes, twinPasses, carried⟩

end Machine

end BlockMachine
