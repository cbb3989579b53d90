import BlockMachine.Proofs.Closures.Coverage
import BlockMachine.Proofs.Closures.Provenance
import BlockMachine.Proofs.Machine.Execution
import BlockMachine.Proofs.Scoping.Environments
import BlockMachine.Proofs.Translation.Occurrences

namespace BlockMachine

/-! # Recursive groups

The functions of a group are made one after another in one environment, and the group
is added to the tables when all of them are there. From then on, for as long as the
tables keep the group, every reference to a member finds the same members with the same
captured environment, however its caller came by it. -/

/-- Whether a reference to a member of a group is to a closure that the group lists. -/
def ClosureTable.Ties (table : ClosureTable) : Bindable → Prop
  | .closure ⟨id, some group⟩ =>
    ∃ members, table.members? group = some members ∧ id ∈ members.map Prod.snd
  | _ => True

/-- Whether a closure was made by entering a function's node in an environment. -/
def ClosureTable.MadeAt (table : ClosureTable) (code : Code) (environment : Environment)
    (site : NodeId) (id : ClosureId) : Prop :=
  ∃ formals body, code.node? site = some (.abstraction formals body) ∧
    table.closure? id = some ⟨formals, body, environment⟩

/-- What a name stands for in a group: the closure of the last member of that name, as a
member of the group. -/
def ClosureTable.memberNamed? (id : GroupId) (members : List Member) (name : Name) :
    Option Bindable :=
  (members.reverse.lookup name).map fun closure => .closure (.recursive closure id)

/-- Whether no group is being declared: its opcode waits for its functions. -/
def Control.NoGroups (control : List Control) : Prop :=
  ∀ site, Control.op (.recBind site) ∉ control

namespace ClosureTable

variable {before after : ClosureTable}

/-- A tied reference stays tied as long as it is in the tables. -/
theorem Ties.keep (keeps : before.Keeps after) {value : Bindable} (ties : before.Ties value)
    (covers : after.mark.Covers value) : after.Ties value := by
  cases value with
  | storable value => trivial
  | closure reference =>
      rcases reference with ⟨id, _ | group⟩
      · trivial
      · obtain ⟨members, listed, isMember⟩ := ties
        exact ⟨members, keeps.groups group members listed (covers.2 group rfl), isMember⟩

theorem ties_memberBindings {table : ClosureTable} {id : GroupId} {members : List Member}
    (listed : table.members? id = some members) :
    ∀ entry ∈ memberBindings id members, table.Ties entry.2 := by
  intro entry isEntry
  obtain ⟨member, isMember, rfl⟩ := List.mem_map.mp isEntry
  exact ⟨members, listed, List.mem_map_of_mem isMember⟩

theorem MadeAt.keep (keeps : before.Keeps after) {code : Code} {environment : Environment}
    {site : NodeId} {id : ClosureId} (made : before.MadeAt code environment site id)
    (known : id.index < after.size) : after.MadeAt code environment site id := by
  obtain ⟨formals, body, fetched, found⟩ := made
  exact ⟨formals, body, fetched, keeps.closures id _ found known⟩

theorem MadeAt.known {table : ClosureTable} {code : Code} {environment : Environment}
    {site : NodeId} {id : ClosureId} (made : table.MadeAt code environment site id) :
    id.index < table.size := by
  obtain ⟨formals, body, fetched, found⟩ := made
  exact index_lt_of_closure? found

theorem MadeAt.grow (grows : before.Grows after) {code : Code} {environment : Environment}
    {site : NodeId} {id : ClosureId} (made : before.MadeAt code environment site id) :
    after.MadeAt code environment site id :=
  made.keep grows.keeps (Nat.lt_of_lt_of_le made.known grows.mark.closures)

/-- Of the bindings of a group the last one of a name is that of its last member. -/
theorem lookup_memberBindings (id : GroupId) (members : List Member) (name : Name) :
    (memberBindings id members).reverse.lookup name = memberNamed? id members name := by
  rw [memberBindings, ← List.map_reverse, memberNamed?]
  induction members.reverse with
  | nil => rfl
  | cons member others induction =>
      rcases member with ⟨known, closure⟩
      rw [List.map_cons, List.lookup_cons, List.lookup_cons, induction]
      cases name == known <;> rfl

theorem lookup_of_groupEnvironment? {table : ClosureTable} {id : GroupId} {members : List Member}
    {bindings : Environment} (listed : table.members? id = some members)
    (made : table.groupEnvironment? id = some bindings) (name : Name) :
    bindings.lookup name = memberNamed? id members name := by
  rw [groupEnvironment?, listed, Option.map_some] at made
  cases made
  rw [Environment.ofList, Environment.lookup_bindAll, Environment.lookup_empty, Option.or_none,
    lookup_memberBindings]

/-- A group that has just been added makes an environment of its members. -/
theorem groupEnvironment?_addGroup (table : ClosureTable) (members : List Member) :
    (table.addGroup members).2.groupEnvironment? ⟨table.groupCount⟩ =
      some (.ofList (memberBindings ⟨table.groupCount⟩ members)) := by
  rw [groupEnvironment?, members?_addGroup_new]
  rfl

end ClosureTable

/-! ## Rules -/

section

variable {image : Image} {entry : Control} {before after : State}

theorem Control.NoGroups.append {front rest : List Control} (noneInFront : NoGroups front)
    (noneInRest : NoGroups rest) : NoGroups (front ++ rest) := by
  intro site member
  rcases List.mem_append.mp member with inFront | inRest
  · exact noneInFront site inFront
  · exact noneInRest site inRest

theorem Control.noGroups_branch (condition : Bool) (thenBranch : NodeId)
    (elseBranch : Option NodeId) : NoGroups (Node.branch condition thenBranch elseBranch) := by
  cases condition with
  | true => simp [NoGroups, Node.branch]
  | false => cases elseBranch <;> simp [NoGroups, Node.branch]

theorem Node.noGroups_of_agenda? {code : Code} {site : NodeId} {node : Node}
    {parked : List StackValue} {scheduled : List Control}
    (agenda : node.agenda? code site = some (parked, scheduled))
    (other : ∀ span, node ≠ .recBind span) : Control.NoGroups scheduled := by
  cases node with
  | recBind span => exact absurd rfl (other span)
  | call callee actuals =>
      cases agenda
      simp [Control.NoGroups]
  | _ => cases agenda <;> simp [Control.NoGroups]

/-- Only entering a group's node schedules the opcode that adds a group. -/
theorem Rule.control_cases (rule : Rule image entry before after) :
    (∃ scheduled, Control.NoGroups scheduled ∧ after.control = scheduled ++ before.control) ∨
      ∃ site span, entry = .node site ∧ image.code.node? site = some (.recBind span) ∧
        Node.AreFunctions image.code (image.code.group span) ∧
        after = { before with
          control := ((image.code.group span).map Prod.snd).reverse.map .node ++
            .op (.recBind site) :: before.control } := by
  cases rule with
  | @agenda _ node _ _ _ fetched agenda functions =>
      by_cases group : ∃ span, node = .recBind span
      · obtain ⟨span, rfl⟩ := group
        cases agenda
        refine .inr ⟨_, span, rfl, fetched, functions span rfl, ?_⟩
        simp
      · exact .inl ⟨_, Node.noGroups_of_agenda? agenda (not_exists.mp group), rfl⟩
  | block => exact .inl ⟨[_, _, _, _], by simp [Control.NoGroups], rfl⟩
  | cond => exact .inl ⟨_, Control.noGroups_branch _ _ _, rfl⟩
  | @loop _ _ _ _ _ condition =>
      refine .inl ⟨_, ?_, rfl⟩
      cases condition <;> simp [Control.NoGroups]
  | call => exact .inl ⟨[_, _], by simp [Control.NoGroups], rfl⟩
  | _ => exact .inl ⟨[], by simp [Control.NoGroups], rfl⟩

/-- What adding a group takes from the value stack, and what it leaves there and in the
tables. -/
theorem Rule.of_recBind {site : NodeId} (rule : Rule image (.op (.recBind site)) before after) :
    ∃ span references collected rest, image.code.node? site = some (.recBind span) ∧
      references.length = (image.code.group span).length ∧
      before.values = references.map .closure ++ .declarations collected :: rest ∧
      after = { before with
        values := .declarations (collected.bindAll
          (ClosureTable.memberBindings ⟨before.closures.groupCount⟩
            (Binding.members (image.code.group span) references))) :: rest
        closures := (before.closures.addGroup
          (Binding.members (image.code.group span) references)).2 } := by
  cases rule with
  | operator combines => cases combines
  | recBind fetched counted taken => exact ⟨_, _, _, _, fetched, counted, taken, rfl⟩

/-- Where a call of a closure goes on, and in which environment. -/
theorem Rule.of_call {callee : Name} {count : Nat}
    (rule : Rule image (.op (.call callee count)) before after) {reference : ClosureRef}
    (bound : before.environment.lookup callee = some (.closure reference)) :
    ∃ closure actuals rest home,
      before.closures.closure? reference.closure = some closure ∧
      before.closures.homeEnvironment? closure reference.group = some home ∧
      actuals.length = (image.code.formals closure.formals).length ∧
      before.values = actuals.map .bindable ++ rest ∧
      after.environment = home.bindAll ((image.code.formals closure.formals).zip actuals) ∧
      after.control = .node closure.body :: .op .blockCommands :: before.control := by
  cases rule with
  | operator combines => cases combines
  | call isBound found arity matched taken entered =>
      cases bound.symm.trans isBound
      exact ⟨_, _, _, _, found, entered, matched, taken, rfl, rfl⟩

/-- What relates the functions of a group to references relates them to its members. -/
theorem Binding.forall₂_members {Related : NodeId → ClosureId → Prop} {group : List Binding}
    {references : List ClosureRef} (related : List.Forall₂ (fun binding reference =>
      Related binding.2 reference.closure) group references) :
    List.Forall₂ (fun binding member => binding.1 = member.1 ∧ Related binding.2 member.2) group
      (members group references) := by
  induction related with
  | nil => exact .nil
  | cons head _ induction => exact .cons ⟨rfl, head⟩ induction

theorem StackValue.closure_injective : Function.Injective closure := by
  intro reference other same
  cases same
  rfl

end

namespace Machine

/-! ## Declaring a group -/

/-- The declaration of a group in a run: `entered` is about to enter the group's node, and
at `declared` its opcode has just added the group. Its members have the names of the
group and are closures made of the group's functions, all in the environment that was in
force at `entered`. -/
inductive DeclaresGroup (image : Image) (entered declared : Machine) (id : GroupId)
    (members : List Member) : Prop where
  | mk {site : NodeId} {span : Span Binding} {rest : List Control} {closing : Machine}
      (enters : entered.state.control = .node site :: rest)
      (fetched : image.code.node? site = some (.recBind span))
      (makes : entered.Reaches closing)
      (applies : closing.state.control = .op (.recBind site) :: rest)
      (adds : closing.Advances declared)
      (fresh : id = ⟨closing.state.closures.groupCount⟩)
      (listed : declared.state.closures.members? id = some members)
      (made : List.Forall₂ (fun binding member => binding.1 = member.1 ∧
        declared.state.closures.MadeAt image.code entered.state.environment binding.2 member.2)
        (image.code.group span) members)

/-- A step that leaves a group in the tables. -/
def AdvancesKeeping (id : GroupId) (before after : Machine) : Prop :=
  before.Advances after ∧ id.index < after.state.closures.groupCount

/-- Whether no group is being declared, or one is: some functions of the group, `made`,
have left their closures on the value stack, and the others are still to be entered. -/
inductive Declaring (image : Image) (start machine : Machine) : Prop where
  | idle (none : Control.NoGroups machine.state.control)
  | group {site : NodeId} {span : Span Binding} {rest : List Control} {entered : Machine}
      {waiting made : List Binding} {references : List ClosureRef}
      (reaches : start.Reaches entered)
      (enters : entered.state.control = .node site :: rest)
      (fetched : image.code.node? site = some (.recBind span))
      (functions : Node.AreFunctions image.code (image.code.group span))
      (none : Control.NoGroups rest)
      (makes : entered.Reaches machine)
      (split : image.code.group span = waiting ++ made)
      (scheduled : machine.state.control =
        (waiting.map Prod.snd).reverse.map .node ++ .op (.recBind site) :: rest)
      (environment : machine.state.environment = entered.state.environment)
      (values : machine.state.values = references.map .closure ++ entered.state.values)
      (closures : List.Forall₂ (fun binding reference => machine.state.closures.MadeAt image.code
        entered.state.environment binding.2 reference.closure) made references)

variable {image : Image} {start before after : Machine}

theorem Declaring.advances (declaring : Declaring image start before)
    (runs : before.image = image) (reaches : start.Reaches before)
    (advances : before.Advances after) : Declaring image start after := by
  obtain ⟨entry, left, scheduledEntry, rule⟩ := advances.rule
  rw [runs] at rule
  cases declaring with
  | idle none =>
      have noneLeft : Control.NoGroups left := fun site member =>
        none site (scheduledEntry ▸ List.mem_cons_of_mem entry member)
      rcases rule.control_cases with ⟨scheduled, noneScheduled, control⟩ |
        ⟨site, span, rfl, fetched, functions, same⟩
      · exact .idle (control ▸ noneScheduled.append noneLeft)
      · refine @group _ _ _ _ span left before (image.code.group span) [] [] reaches
          scheduledEntry fetched functions noneLeft (.single advances) (by simp) ?_ ?_ ?_ .nil
        · rw [same]
          rfl
        · rw [same]
          rfl
        · rw [same]
          rfl
  | @group site span rest entered waiting made references reachesEntered enters fetched functions
      none makes split scheduled environment values closures =>
      rw [scheduledEntry] at scheduled
      rcases List.eq_nil_or_concat waiting with rfl | ⟨front, binding, rfl⟩
      · -- All functions are made, so the step adds the group.
        obtain ⟨rfl, rfl⟩ := List.cons.inj scheduled
        obtain ⟨_, _, _, _, _, _, _, same⟩ := rule.of_recBind
        exact .idle (same ▸ none)
      · -- The step makes the function after those that are made.
        rw [List.concat_eq_append, List.map_append, List.reverse_append] at scheduled
        obtain ⟨rfl, rfl⟩ := List.cons.inj scheduled
        have isMember : binding ∈ image.code.group span := by
          rw [split]
          simp
        obtain ⟨formals, body, fetchedFunction⟩ := functions binding isMember
        have same := rule.unique (.abstraction fetchedFunction)
        have grows := before.state.closures.grows_insert ⟨formals, body, before.state.environment⟩
        refine @group _ _ _ _ span rest entered front (binding :: made)
          (.plain ⟨before.state.closures.size⟩ :: references) reachesEntered enters
          fetched functions none (makes.tail advances) (by simp [split]) ?_ ?_ ?_ ?_
        · rw [same]
          rfl
        · rw [same]
          exact environment
        · rw [same]
          exact congrArg _ values
        · rw [same]
          refine .cons ⟨formals, body, fetchedFunction, ?_⟩ (closures.imp fun _ _ => .grow grows)
          rw [← environment]
          exact ClosureTable.closure?_insert_new _ _

theorem Reaches.declaring (reaches : start.Reaches before) (runs : start.image = image)
    (idle : Control.NoGroups start.state.control) : Declaring image start before := by
  induction reaches with
  | refl => exact .idle idle
  | tail reaches last induction =>
      exact induction.advances ((Reaches.image_eq reaches).trans runs) reaches last

/-- The step that adds a group ends its declaration. -/
theorem Declaring.declares (declaring : Declaring image start before) (runs : before.image = image)
    {site : NodeId} {rest : List Control}
    (applies : before.state.control = .op (.recBind site) :: rest)
    (adds : before.Advances after) :
    ∃ entered members, start.Reaches entered ∧
      DeclaresGroup image entered after ⟨before.state.closures.groupCount⟩ members := by
  obtain ⟨entry, left, scheduledEntry, rule⟩ := adds.rule
  rw [runs] at rule
  obtain ⟨rfl, rfl⟩ := List.cons.inj (applies.symm.trans scheduledEntry)
  cases declaring with
  | idle none => exact absurd (applies ▸ List.mem_cons_self) (none site)
  | @group site span rest entered waiting made references reaches enters fetched functions none
      makes split scheduled environment values closures =>
      rw [applies] at scheduled
      rcases List.eq_nil_or_concat waiting with rfl | ⟨front, binding, rfl⟩
      · obtain ⟨same, rfl⟩ := List.cons.inj scheduled
        cases same
        obtain ⟨other, taken, collected, below, fetchedHere, counted, valuesHere, changed⟩ :=
          rule.of_recBind
        cases fetched.symm.trans fetchedHere
        have stacked : references.map StackValue.closure ++ entered.state.values =
            taken.map StackValue.closure ++ .declarations collected :: below :=
          values.symm.trans valuesHere
        have equal : references = taken := by
          have length : references.length = taken.length := by
            rw [counted, split]
            exact closures.length_eq.symm
          exact StackValue.closure_injective.list_map (List.append_inj_left stacked (by simpa using length))
        subst equal
        refine ⟨entered, Binding.members (image.code.group span) references, reaches,
          .mk enters fetched makes applies adds rfl ?_ ?_⟩
        · rw [changed]
          exact ClosureTable.members?_addGroup_new _ _
        · rw [split, changed]
          apply Binding.forall₂_members
          exact closures.imp fun _ _ => .grow (ClosureTable.grows_addGroup _ _)
      · rw [List.concat_eq_append, List.map_append, List.reverse_append] at scheduled
        cases (List.cons.inj scheduled).1

/-- Whether a group of a machine has been declared from `entered` to `declared` in a run,
and no step since then has cut it off. -/
structure HasGroup (image : Image) (start entered declared machine : Machine) (id : GroupId)
    (members : List Member) : Prop where
  reaches : start.Reaches entered
  declares : DeclaresGroup image entered declared id members
  kept : Relation.ReflTransGen (AdvancesKeeping id) declared machine

theorem DeclaresGroup.reaches {entered declared : Machine} {id : GroupId} {members : List Member}
    (declares : DeclaresGroup image entered declared id members) : entered.Reaches declared := by
  obtain ⟨_, _, makes, _, adds, _, _, _⟩ := declares
  exact makes.tail adds

theorem DeclaresGroup.exists_captured {entered declared : Machine} {id : GroupId}
    {members : List Member} (declares : DeclaresGroup image entered declared id members) :
    declared.state.closures.members? id = some members ∧
      ∀ member ∈ members, ∃ closure, declared.state.closures.closure? member.2 = some closure ∧
        closure.captured = entered.state.environment := by
  obtain ⟨_, _, _, _, _, _, listed, made⟩ := declares
  refine ⟨listed, ?_⟩
  intro member isMember
  obtain ⟨binding, _, _, formals, body, _, found⟩ := exists_of_mem_right made isMember
  exact ⟨_, found, rfl⟩

/-- Every group in the tables of a machine comes from a declaration. -/
theorem Reaches.exists_hasGroup (reaches : start.Reaches after) (runs : start.image = image)
    (idle : Control.NoGroups start.state.control) (none : start.state.closures.groupCount = 0)
    {id : GroupId} {members : List Member}
    (listed : after.state.closures.members? id = some members) :
    ∃ entered declared, HasGroup image start entered declared after id members := by
  induction reaches with
  | refl =>
      have known : id.index < start.state.closures.groupCount :=
        ClosureTable.index_lt_of_members? listed
      rw [none] at known
      exact absurd known (Nat.not_lt_zero _)
  | @tail before after reaches last induction =>
      obtain ⟨entry, rest, scheduled, rule⟩ := last.rule
      rcases rule.members?_cases listed with old | ⟨site, rfl, rfl⟩
      · obtain ⟨entered, declared, has⟩ := induction old
        have keeps : AdvancesKeeping id before after :=
          ⟨last, ClosureTable.index_lt_of_members? listed⟩
        exact ⟨entered, declared, has.reaches, has.declares, has.kept.tail keeps⟩
      · have runsBefore : before.image = image := (Reaches.image_eq reaches).trans runs
        obtain ⟨entered, others, reachesEntered, declares⟩ :=
          (Reaches.declaring reaches runs idle).declares runsBefore scheduled last
        obtain rfl : members = others :=
          Option.some.inj (listed.symm.trans declares.exists_captured.1)
        exact ⟨entered, after, reachesEntered, declares, .refl⟩

/-- A group stays as it was declared, with the closures of its members. -/
theorem HasGroup.keeps (covered : ∀ machine, start.Reaches machine → machine.state.Covered)
    {entered declared machine : Machine} {id : GroupId} {members : List Member}
    (has : HasGroup image start entered declared machine id members) :
    start.Reaches machine ∧ machine.state.closures.members? id = some members ∧
      ∀ member ∈ members, ∀ closure,
        declared.state.closures.closure? member.2 = some closure →
          machine.state.closures.closure? member.2 = some closure := by
  obtain ⟨reaches, declares, kept⟩ := has
  induction kept with
  | refl =>
      exact ⟨reaches.trans declares.reaches, declares.exists_captured.1, fun _ _ _ found => found⟩
  | tail _ last induction =>
      obtain ⟨reachesBefore, listed, found⟩ := induction
      obtain ⟨entry, rest, _, rule⟩ := last.1.rule
      have reachesAfter := reachesBefore.tail last.1
      have listedAfter := rule.keeps.groups id members listed last.2
      refine ⟨reachesAfter, listedAfter, ?_⟩
      intro member isMember closure atDeclared
      have known := (covered _ reachesAfter).members id members listedAfter member isMember
      exact rule.keeps.closures _ closure (found member isMember closure atDeclared) known

/-! ## References -/

theorem Advances.holds_ties (advances : before.Advances after) (covered : after.state.Covered)
    (ties : before.state.Holds before.state.closures.Ties) :
    after.state.Holds after.state.closures.Ties := by
  obtain ⟨entry, rest, _, rule⟩ := advances.rule
  have begun : (begin before.state rest).Holds before.state.closures.Ties :=
    ⟨ties.environment, ties.values, ties.captured⟩
  -- A reference that is left behind may be to what the step cuts off, but none is left in the state.
  have tiesCovered : after.state.Holds fun value =>
      after.state.closures.mark.Covers value → after.state.closures.Ties value := by
    apply rule.holds (fun _ _ => trivial) (fun _ _ => trivial)
    · intro id members listed entry isEntry _
      exact ClosureTable.ties_memberBindings listed entry isEntry
    · exact begun.imp fun value tied covers => tied.keep rule.keeps covers
  exact tiesCovered.mp ⟨covered.environment, covered.values, covered.captured⟩

theorem Reaches.holds_ties (covered : ∀ machine, start.Reaches machine → machine.state.Covered)
    (ties : start.state.Holds start.state.closures.Ties) (reaches : start.Reaches after) :
    after.state.Holds after.state.closures.Ties := by
  induction reaches with
  | refl => exact ties
  | tail reaches last induction => exact last.holds_ties (covered _ (reaches.tail last)) induction

/-! ## Adding a group and calling its members -/

/-- Adding a group declares the members, and just what the tables then give for it. -/
theorem Advances.groupEnvironment?_of_recBind (advances : before.Advances after) {site : NodeId}
    {rest : List Control} (applies : before.state.control = .op (.recBind site) :: rest) :
    ∃ members collected declared bindings upper lower,
      after.state.closures.members? ⟨before.state.closures.groupCount⟩ = some members ∧
      after.state.closures.groupEnvironment? ⟨before.state.closures.groupCount⟩ =
        some bindings ∧
      before.state.values = upper ++ .declarations collected :: lower ∧
      after.state.values = .declarations declared :: lower ∧
      declared = collected.extend bindings ∧
      ∀ name,
        let member := ClosureTable.memberNamed? ⟨before.state.closures.groupCount⟩ members name
        bindings.lookup name = member ∧
        declared.lookup name = member.or (collected.lookup name) := by
  obtain ⟨entry, left, scheduled, rule⟩ := advances.rule
  obtain ⟨rfl, rfl⟩ := List.cons.inj (applies.symm.trans scheduled)
  obtain ⟨span, references, collected, lower, _, _, taken, changed⟩ := rule.of_recBind
  let id : GroupId := ⟨before.state.closures.groupCount⟩
  let members := Binding.members (before.image.code.group span) references
  let bindings := ClosureTable.memberBindings id members
  have listed : after.state.closures.members? id = some members := by
    rw [changed]
    exact ClosureTable.members?_addGroup_new _ _
  have made : after.state.closures.groupEnvironment? id = some (.ofList bindings) := by
    rw [changed]
    exact ClosureTable.groupEnvironment?_addGroup _ _
  refine ⟨members, collected, collected.bindAll bindings, .ofList bindings, _, lower, listed, made,
    taken, congrArg State.values changed, (collected.extend_ofList bindings).symm, fun name => ⟨?_, ?_⟩⟩
  · exact ClosureTable.lookup_of_groupEnvironment? listed made name
  · rw [Environment.lookup_bindAll, ClosureTable.lookup_memberBindings]

/-- A call through a reference to a member runs the body of the closure that was made for
it. A formal there stands for its actual, any other name for a member of the group, and
any other for what it stood for at the group's declaration. -/
theorem HasGroup.call (covered : ∀ machine, start.Reaches machine → machine.state.Covered)
    {entered declared : Machine} {id : GroupId} {members : List Member}
    (has : HasGroup image start entered declared before id members)
    (ties : before.state.Holds before.state.closures.Ties) (runs : before.image = image)
    {callee : Name} {count : Nat} {rest : List Control} {closureId : ClosureId}
    (applies : before.state.control = .op (.call callee count) :: rest)
    (bound : before.state.environment.lookup callee =
      some (.closure (.recursive closureId id)))
    (advances : before.Advances after) :
    ∃ closure actuals lower, closureId ∈ members.map Prod.snd ∧
      declared.state.closures.closure? closureId = some closure ∧
      before.state.values = actuals.map .bindable ++ lower ∧
      actuals.length = (image.code.formals closure.formals).length ∧
      after.state.control = .node closure.body :: .op .blockCommands :: rest ∧
      ∀ name, after.state.environment.lookup name =
        (((image.code.formals closure.formals).zip actuals).reverse.lookup name).or
          ((ClosureTable.memberNamed? id members name).or
            (entered.state.environment.lookup name)) := by
  obtain ⟨_, listed, kept⟩ := has.keeps covered
  obtain ⟨others, listedOthers, isMember⟩ := ties.environment.lookup bound
  obtain rfl : members = others := Option.some.inj (listed.symm.trans listedOthers)
  obtain ⟨member, among, rfl⟩ := List.mem_map.mp isMember
  obtain ⟨closure, atDeclared, captured⟩ := has.declares.exists_captured.2 member among
  obtain ⟨entry, left, scheduled, rule⟩ := advances.rule
  rw [runs] at rule
  obtain ⟨rfl, rfl⟩ := List.cons.inj (applies.symm.trans scheduled)
  obtain ⟨found, actuals, lower, home, isFound, isHome, matched, taken, environment, control⟩ :=
    rule.of_call bound
  obtain rfl : closure = found :=
    Option.some.inj ((kept member among closure atDeclared).symm.trans isFound)
  obtain ⟨bindings, made, rfl⟩ := Option.map_eq_some_iff.mp isHome
  refine ⟨closure, actuals, lower, isMember, atDeclared, taken, matched, control, fun name => ?_⟩
  rw [environment, Environment.lookup_bindAll, Environment.lookup_extend, captured,
    ClosureTable.lookup_of_groupEnvironment? listed made]

/-- The members of a recursive group stay tied together.

In a machine that a run has reached, every reference to a member of a group is to a
closure that the group lists, and every group has been declared in the run and kept since.
All members have captured the environment in force when the group's node was entered.
Adding a group declares what the tables then give for it: each name of the group stands
for its member, of two members of one name for the last. A call through a reference to a
member, whatever calls have led to it and whatever is in force at the caller, enters the
body of the closure made at the declaration. There the environment is that of the
declaration, overlaid with the members of the group and then with the formals, bound to
the actuals in order. -/
theorem recursive_groups_tied {image : Image} {options : Options} {printer : Printer}
    {machine : Machine} (reaches : (load image options printer).Reaches machine) :
    let start := load image options printer
    machine.state.Holds machine.state.closures.Ties ∧
    (∀ id members, machine.state.closures.members? id = some members →
      ∃ entered declared, HasGroup image start entered declared machine id members) ∧
    (∀ entered declared id members, HasGroup image start entered declared machine id members →
      ∀ member ∈ members, ∃ closure,
        machine.state.closures.closure? member.2 = some closure ∧
        closure.captured = entered.state.environment) ∧
    (∀ site rest next, machine.state.control = .op (.recBind site) :: rest →
      machine.Advances next →
      ∃ members collected declared bindings upper lower,
        next.state.closures.members? ⟨machine.state.closures.groupCount⟩ = some members ∧
        next.state.closures.groupEnvironment? ⟨machine.state.closures.groupCount⟩ =
          some bindings ∧
        machine.state.values = upper ++ .declarations collected :: lower ∧
        next.state.values = .declarations declared :: lower ∧
        declared = collected.extend bindings ∧
        ∀ name,
          let member := ClosureTable.memberNamed? ⟨machine.state.closures.groupCount⟩ members name
          bindings.lookup name = member ∧
          declared.lookup name = member.or (collected.lookup name)) ∧
    ∀ entered declared id members, HasGroup image start entered declared machine id members →
      ∀ callee count rest closureId next,
        machine.state.control = .op (.call callee count) :: rest →
        machine.state.environment.lookup callee = some (.closure (.recursive closureId id)) →
        machine.Advances next →
        ∃ closure actuals lower, closureId ∈ members.map Prod.snd ∧
          declared.state.closures.closure? closureId = some closure ∧
          machine.state.values = actuals.map .bindable ++ lower ∧
          actuals.length = (image.code.formals closure.formals).length ∧
          next.state.control = .node closure.body :: .op .blockCommands :: rest ∧
          ∀ name, next.state.environment.lookup name =
            (((image.code.formals closure.formals).zip actuals).reverse.lookup name).or
              ((ClosureTable.memberNamed? id members name).or
                (entered.state.environment.lookup name)) := by
  intro start
  have idle : Control.NoGroups start.state.control := by
    intro site member
    cases List.mem_singleton.mp member
  have covered : ∀ machine, start.Reaches machine → machine.state.Covered := by
    intro machine reaches
    exact (reaches.settled_covers (State.owns_start _ _) (State.settled_start _ _)).2.covered
  have ties := Reaches.holds_ties covered (State.holds_start _ _) reaches
  refine ⟨ties, ?_, ?_, ?_, ?_⟩
  · intro id members listed
    exact Reaches.exists_hasGroup reaches rfl idle rfl listed
  · intro entered declared id members has member isMember
    obtain ⟨_, _, kept⟩ := has.keeps covered
    obtain ⟨closure, found, captured⟩ := has.declares.exists_captured.2 member isMember
    exact ⟨closure, kept member isMember closure found, captured⟩
  · intro site rest next applies advances
    exact advances.groupEnvironment?_of_recBind applies
  · intro entered declared id members has callee count rest closureId next applies bound advances
    exact has.call covered ties reaches.image_eq applies bound advances

/-- Two functions that call one another. The constant that the first one prints is hidden
where they are first called, and again where the second calls the first. -/
def alternating : List Command :=
  [.block (.mk [.const "tone" (.bool true)]
    [.block (.mk
      [.recursive [
        .mk "even" ["done"] (.mk [] [.ifThenElse (.ident "done") [.print (.ident "tone")]
          [.call "odd" [.bool true]]]),
        .mk "odd" ["done"] (.mk [.const "tone" (.bool false)] [.call "even" [.ident "done"]])]]
      [.block (.mk [.const "tone" (.bool false)] [.call "even" [.bool false]])])])]

/-- The third call is from where the constant is hidden, and its body sees the constant. -/
theorem recursive_groups_tied_alternating :
    let image : Image := ⟨.ofBody alternating, (translate .initial alternating).2⟩
    let start := load image .unbounded .silent
    let calling := (start.runFor 35).2
    let called := (start.runFor 36).2
    start.Reaches calling ∧ calling.Advances called ∧
      calling.state.control.head? = some (.op (.call ⟨4⟩ 1)) ∧
      (calling.state.environment.lookup ⟨1⟩).map Bindable.text = some "false" ∧
      (called.state.environment.lookup ⟨1⟩).map Bindable.text = some "true" ∧
      calling.state.Holds calling.state.closures.Ties ∧
      ∃ entered declared members closure actuals,
        HasGroup image start entered declared calling ⟨0⟩ members ∧
        declared.state.closures.closure? ⟨1⟩ = some closure ∧
        ∀ name, called.state.environment.lookup name =
          (((image.code.formals closure.formals).zip actuals).reverse.lookup name).or
            ((ClosureTable.memberNamed? ⟨0⟩ members name).or
              (entered.state.environment.lookup name)) := by
  intro image start calling called
  have reaches : start.Reaches calling := reaches_runFor (by decide +kernel)
  have advances : calling.Advances called := advances_runFor (by decide +kernel)
  have atCalling : calling.state.control.head? = some (.op (.call ⟨4⟩ 1)) := by decide +kernel
  have isClosure : ((calling.state.environment.lookup ⟨4⟩).map StackValue.bindable).bind
      StackValue.closure? = some (.recursive ⟨1⟩ ⟨0⟩) := by decide +kernel
  have isListed : (calling.state.closures.members? ⟨0⟩).isSome := by decide +kernel
  obtain ⟨rest, applies⟩ := List.head?_eq_some_iff.mp atCalling
  obtain ⟨top, isTop, views⟩ := Option.bind_eq_some_iff.mp isClosure
  obtain ⟨value, bound, rfl⟩ := Option.map_eq_some_iff.mp isTop
  cases StackValue.closure?_eq_some_iff.mp views
  obtain ⟨members, listed⟩ := Option.isSome_iff_exists.mp isListed
  obtain ⟨ties, declared, _, _, calls⟩ := recursive_groups_tied reaches
  obtain ⟨entered, declaredAt, has⟩ := declared _ _ listed
  obtain ⟨closure, actuals, _, _, found, _, _, _, environment⟩ :=
    calls _ _ _ _ has _ _ _ _ _ applies bound advances
  exact ⟨reaches, advances, atCalling, by decide +kernel, by decide +kernel, ties, entered,
    declaredAt, members, closure, actuals, has, found, environment⟩

end Machine

end BlockMachine
