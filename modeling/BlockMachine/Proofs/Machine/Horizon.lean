import BlockMachine.Proofs.Closures.Growth
import BlockMachine.Proofs.Memory.Ownership

namespace BlockMachine

/-! # Horizons

A scope can only mention what was there before it ended: cells of regions that
were open around it, and closures made by then. The horizon of a point of a run
says what these are. Values on the value stack lie within the horizon at which
they were pushed, and a scope that ends leaves only what lies within the horizon
at which it was opened. -/

namespace Environment

/-- Whether everything that is bound has a property. -/
def Holds (property : Bindable → Prop) (environment : Environment) : Prop :=
  ∀ entry ∈ environment.entries, property entry.2

variable {property : Bindable → Prop} {environment : Environment}

theorem holds_empty : empty.Holds property := by
  intro entry member
  cases member

theorem Holds.lookup (holds : environment.Holds property) {name : Name} {value : Bindable}
    (bound : environment.lookup name = some value) : property value := by
  rcases List.lookup_eq_some_iff.mp bound with ⟨earlier, later, entries, _⟩
  exact holds (name, value) (by simp [entries])

theorem Holds.bind (holds : environment.Holds property) (name : Name) {value : Bindable}
    (holdsValue : property value) : (environment.bind name value).Holds property := by
  intro entry member
  rcases eq_or_mem_of_mem_insertEntry member with equal | known
  · exact equal ▸ holdsValue
  · exact holds entry known

theorem Holds.bindAll (holds : environment.Holds property) {entries : List (Name × Bindable)}
    (holdsEntries : ∀ entry ∈ entries, property entry.2) :
    (environment.bindAll entries).Holds property := by
  induction entries generalizing environment with
  | nil => exact holds
  | cons head rest induction =>
      apply induction (holds.bind head.1 (holdsEntries head List.mem_cons_self))
      intro entry member
      exact holdsEntries entry (List.mem_cons_of_mem head member)

theorem Holds.extend {overlay : Environment} (holds : environment.Holds property)
    (holdsOverlay : overlay.Holds property) : (environment.extend overlay).Holds property :=
  holds.bindAll holdsOverlay

theorem Holds.imp {weaker : Bindable → Prop} (holds : environment.Holds property)
    (implies : ∀ value, property value → weaker value) : environment.Holds weaker :=
  fun entry member => implies entry.2 (holds entry member)

end Environment

/-- Whether all values in an entry of the value stack have a property. -/
def StackValue.Holds (property : Bindable → Prop) : StackValue → Prop
  | bindable value => property value
  | environment saved => saved.Holds property
  | declarations collected => collected.Holds property
  | identifier _ | pending _ | region _ | mark _ => True

theorem StackValue.Holds.imp {property weaker : Bindable → Prop} {entry : StackValue}
    (holds : entry.Holds property) (implies : ∀ value, property value → weaker value) :
    entry.Holds weaker := by
  cases entry with
  | bindable value => exact implies value holds
  | environment saved => exact Environment.Holds.imp holds implies
  | declarations collected => exact Environment.Holds.imp holds implies
  | _ => trivial

/-- The regions that are open at some point, outermost first, and how far the
closure tables reach. -/
structure Horizon where
  regions : List Region
  mark : Mark

namespace Horizon

/-- Whether a cell belongs to one of the open regions. -/
def Owns (horizon : Horizon) (address : Address) : Prop :=
  address ∈ horizon.regions.flatMap Region.addresses

theorem owns_concat {regions : List Region} {region : Region} {mark : Mark} {address : Address} :
    Owns ⟨regions ++ [region], mark⟩ address ↔
      Owns ⟨regions, mark⟩ address ∨ address ∈ region.addresses := by
  simp [Owns]

/-- A later horizon, in which no more than before is out of sight. -/
structure Within (inner outer : Horizon) : Prop where
  owns : ∀ address, inner.Owns address → outer.Owns address
  mark : inner.mark.Below outer.mark

end Horizon

/-- A property of values that goes wherever the machine may take them: what is
true within a horizon stays true within a wider one, it says nothing of plain
data, and it is true of an owned cell and of a closure in the tables. -/
structure Carried (property : Horizon → Bindable → Prop) : Prop where
  widen : ∀ {inner outer value}, inner.Within outer → property inner value →
    property outer value
  number : ∀ horizon value, property horizon (.storable (.number value))
  boolean : ∀ horizon value, property horizon (.storable (.boolean value))
  location : ∀ {horizon address}, horizon.Owns address →
    property horizon (.storable (.location address))
  plain : ∀ {horizon : Horizon} {closure : ClosureId},
    closure.index < horizon.mark.closures → property horizon (.closure (.plain closure))
  recursive : ∀ {horizon : Horizon} {reference : ClosureRef} {group : GroupId},
    property horizon (.closure reference) → group.index < horizon.mark.groups →
    property horizon (.closure (.recursive reference.closure group))

/-- Whether a property holds of all that lies within a horizon: what closures
have captured, the members of groups, and the contents of owned cells. -/
structure Horizon.Settled (property : Horizon → Bindable → Prop) (store : Store)
    (table : ClosureTable) (horizon : Horizon) : Prop where
  captured : ∀ id closure, id.index < horizon.mark.closures →
    table.closure? id = some closure → closure.captured.Holds (property horizon)
  members : ∀ id members, id.index < horizon.mark.groups →
    table.members? id = some members →
    ∀ member ∈ members, property horizon (.closure (.recursive member.2 id))
  cells : ∀ address value, horizon.Owns address → store.get? address = some value →
    property horizon (.storable value)

/-- Whether everything on a value stack has a property within the horizon at which
it was pushed. `region` and `mark` belong to the top of the stack; a saved region
and a saved mark take their place below. -/
def ValueStack.Settled (property : Horizon → Bindable → Prop) (store : Store)
    (table : ClosureTable) : ValueStack → Region → Mark → Prop
  | [], _, _ => True
  | .bindable value :: rest, region, mark =>
    property ⟨savedRegions rest ++ [region], mark⟩ value ∧
      Settled property store table rest region mark
  | .environment saved :: rest, region, mark =>
    saved.Holds (property ⟨savedRegions rest ++ [region], mark⟩) ∧
      Settled property store table rest region mark
  | .declarations collected :: rest, region, mark =>
    collected.Holds (property ⟨savedRegions rest ++ [region], mark⟩) ∧
      Settled property store table rest region mark
  | .region saved :: rest, _, mark => Settled property store table rest saved mark
  | .mark saved :: rest, region, mark =>
    saved.Below mark ∧ Horizon.Settled property store table ⟨savedRegions rest, saved⟩ ∧
      Settled property store table rest region saved
  | .identifier _ :: rest, region, mark => Settled property store table rest region mark
  | .pending _ :: rest, region, mark => Settled property store table rest region mark

/-- The horizon of a state. -/
def State.horizon (state : State) : Horizon :=
  ⟨state.regions, state.closures.mark⟩

/-- Whether a property holds of every value of a state within its horizon. -/
structure State.Settled (property : Horizon → Bindable → Prop) (state : State) : Prop where
  environment : state.environment.Holds (property state.horizon)
  horizon : state.horizon.Settled property state.store state.closures
  stack : ValueStack.Settled property state.store state.closures state.values state.region
    state.closures.mark

variable {property : Horizon → Bindable → Prop} {store : Store} {table : ClosureTable}

/-! ## Changing what lies around a stack -/

theorem Horizon.Settled.mono {horizon : Horizon} {store' : Store} {table' : ClosureTable}
    (settled : horizon.Settled property store table)
    (closures : ∀ id : ClosureId, id.index < horizon.mark.closures →
      table'.closure? id = table.closure? id)
    (groups : ∀ id : GroupId, id.index < horizon.mark.groups →
      table'.members? id = table.members? id)
    (cells : ∀ address value, horizon.Owns address → store'.get? address = some value →
      store.get? address = some value ∨ property horizon (.storable value)) :
    horizon.Settled property store' table' where
  captured := by
    intro id closure below found
    exact settled.captured id closure below (closures id below ▸ found)
  members := by
    intro id members below found
    exact settled.members id members below (groups id below ▸ found)
  cells := by
    intro address value owns held
    rcases cells address value owns held with before | carried
    · exact settled.cells address value owns before
    · exact carried

namespace ValueStack.Settled

/-- The store may change as long as what saved regions own keeps its contents, or
takes such as lie within its horizon; the tables may change above the mark. -/
theorem mono {stack : ValueStack} {region : Region} {mark : Mark} {store' : Store}
    {table' : ClosureTable} (settled : Settled property store table stack region mark)
    (closures : ∀ id : ClosureId, id.index < mark.closures →
      table'.closure? id = table.closure? id)
    (groups : ∀ id : GroupId, id.index < mark.groups →
      table'.members? id = table.members? id)
    (cells : ∀ saved mark, saved <+: savedRegions stack → ∀ address value,
      Horizon.Owns ⟨saved, mark⟩ address → store'.get? address = some value →
      store.get? address = some value ∨ property ⟨saved, mark⟩ (.storable value)) :
    Settled property store' table' stack region mark := by
  induction stack generalizing region mark with
  | nil => trivial
  | cons head rest induction =>
      cases head with
      | bindable value => exact ⟨settled.1, induction settled.2 closures groups cells⟩
      | environment saved => exact ⟨settled.1, induction settled.2 closures groups cells⟩
      | declarations collected => exact ⟨settled.1, induction settled.2 closures groups cells⟩
      | identifier name => exact induction settled closures groups cells
      | pending node => exact induction settled closures groups cells
      | region saved =>
          apply induction settled closures groups
          intro outer mark isPrefix
          exact cells outer mark (isPrefix.trans (List.prefix_append _ _))
      | mark saved =>
          have closures' : ∀ id : ClosureId, id.index < saved.closures →
              table'.closure? id = table.closure? id :=
            fun id below => closures id (Nat.lt_of_lt_of_le below settled.1.closures)
          have groups' : ∀ id : GroupId, id.index < saved.groups →
              table'.members? id = table.members? id :=
            fun id below => groups id (Nat.lt_of_lt_of_le below settled.1.groups)
          refine ⟨settled.1, settled.2.1.mono closures' groups' ?_,
            induction settled.2.2 closures' groups' cells⟩
          exact cells _ saved (List.prefix_refl _)

/-- A stack stays settled when the region of its top grows and the tables do. -/
theorem widen (carried : Carried property) {stack : ValueStack} {region region' : Region}
    {mark mark' : Mark} (settled : Settled property store table stack region mark)
    (regions : ∀ address ∈ region.addresses, address ∈ region'.addresses)
    (below : mark.Below mark') : Settled property store table stack region' mark' := by
  induction stack generalizing region region' mark mark' with
  | nil => trivial
  | cons head rest induction =>
      have within : Horizon.Within ⟨savedRegions rest ++ [region], mark⟩
          ⟨savedRegions rest ++ [region'], mark'⟩ := by
        refine ⟨?_, below⟩
        intro address owns
        rw [Horizon.owns_concat] at owns ⊢
        exact owns.imp_right (regions address)
      cases head with
      | bindable value =>
          exact ⟨carried.widen within settled.1, induction settled.2 regions below⟩
      | environment saved =>
          exact ⟨settled.1.imp fun _ => carried.widen within, induction settled.2 regions below⟩
      | declarations collected =>
          exact ⟨settled.1.imp fun _ => carried.widen within, induction settled.2 regions below⟩
      | identifier name => exact induction settled regions below
      | pending node => exact induction settled regions below
      | region saved => exact induction settled (fun _ member => member) below
      | mark saved =>
          exact ⟨settled.1.trans below, settled.2.1, induction settled.2.2 regions (.refl _)⟩

variable {stack : ValueStack} {region : Region} {mark : Mark}

theorem append_bindables {values : List Bindable}
    (settled : Settled property store table (values.map .bindable ++ stack) region mark) :
    (∀ value ∈ values, property ⟨savedRegions stack ++ [region], mark⟩ value) ∧
      Settled property store table stack region mark := by
  induction values with
  | nil => exact ⟨by simp, settled⟩
  | cons head rest induction =>
      rcases settled with ⟨holdsHead, settledRest⟩
      rcases induction settledRest with ⟨holdsRest, settledStack⟩
      refine ⟨?_, settledStack⟩
      intro value member
      rcases List.mem_cons.mp member with equal | later
      · simpa [equal] using holdsHead
      · exact holdsRest value later

/-- All of a stack has the property within the horizon of its top. -/
theorem holds (carried : Carried property)
    (settled : Settled property store table stack region mark) :
    ∀ entry ∈ stack, entry.Holds (property ⟨savedRegions stack ++ [region], mark⟩) := by
  induction stack generalizing region mark with
  | nil => simp
  | cons head rest induction =>
      intro entry member
      cases head with
      | bindable value =>
          rcases List.mem_cons.mp member with rfl | below
          · exact settled.1
          · exact induction settled.2 entry below
      | environment saved =>
          rcases List.mem_cons.mp member with rfl | below
          · exact settled.1
          · exact induction settled.2 entry below
      | declarations collected =>
          rcases List.mem_cons.mp member with rfl | below
          · exact settled.1
          · exact induction settled.2 entry below
      | identifier name =>
          rcases List.mem_cons.mp member with rfl | below
          · trivial
          · exact induction settled entry below
      | pending node =>
          rcases List.mem_cons.mp member with rfl | below
          · trivial
          · exact induction settled entry below
      | region saved =>
          rcases List.mem_cons.mp member with rfl | below
          · trivial
          · refine (induction settled entry below).imp fun _ => carried.widen ⟨?_, .refl _⟩
            intro address owns
            exact Horizon.owns_concat.mpr (.inl owns)
      | mark saved =>
          rcases List.mem_cons.mp member with rfl | below
          · trivial
          · exact (induction settled.2.2 entry below).imp fun _ =>
              carried.widen ⟨fun _ owns => owns, settled.1⟩

theorem append_parked {code : Code} {site : NodeId} {node : Node} {parked : List StackValue}
    {scheduled : List Control} (agenda : node.agenda? code site = some (parked, scheduled))
    (settled : Settled property store table stack region mark) :
    Settled property store table (parked ++ stack) region mark := by
  cases node with
  | _ => cases agenda <;> exact settled

end ValueStack.Settled

/-! ## What every rule keeps -/

namespace State

/-- What the next assignment would write lies within the horizon of every scope
that can see its target. -/
def AssignsWithin (property : Horizon → Bindable → Prop) (state : State) : Prop :=
  ∀ value target rest address,
    state.values = .storable value :: .identifier target :: rest →
    state.environment.lookup target = some (.storable (.location address)) →
    ∀ regions mark, regions <+: state.regions → Horizon.Owns ⟨regions, mark⟩ address →
      property ⟨regions, mark⟩ (.storable value)

variable {state : State}

theorem settled_start (root : NodeId) (printer : Printer) :
    (start root printer).Settled property where
  environment := Environment.holds_empty
  horizon := by
    refine ⟨?_, ?_, ?_⟩
    · intro id closure below
      exact absurd below (Nat.not_lt_zero _)
    · intro id members below
      exact absurd below (Nat.not_lt_zero _)
    · intro address value owns
      exact absurd owns List.not_mem_nil
  stack := trivial

theorem Owns.owns_of_get? (owns : state.Owns) {address : Address} {value : Storable}
    (held : state.store.get? address = some value) : state.horizon.Owns address :=
  (owns.live address).mpr (by simp [Store.isLive, held])

theorem Owns.replace (owns : state.Owns) {rest : ValueStack}
    (regions : rest.savedRegions = state.values.savedRegions) :
    Owns { state with values := rest } := by
  have same : owned { state with values := rest } = state.owned := by
    simp [owned, State.regions, regions]
  exact ⟨same ▸ owns.increasing, same ▸ owns.live⟩

namespace Settled

/-- Neither the control stack nor the output nor the step count matters. -/
theorem frame (settled : state.Settled property) (control : List Control) (printer : Printer)
    (steps : Nat) : Settled property { state with
      control := control
      printer := printer
      steps := steps } :=
  ⟨settled.environment, settled.horizon, settled.stack⟩

/-- A stack with the same saved regions may take the place of the stack. -/
theorem replace (settled : state.Settled property) {rest : ValueStack}
    (regions : rest.savedRegions = state.values.savedRegions)
    (stack : ValueStack.Settled property state.store state.closures rest state.region
      state.closures.mark) :
    Settled property { state with values := rest } := by
  have same : State.horizon { state with values := rest } = state.horizon := by
    simp [State.horizon, State.regions, regions]
  exact ⟨same ▸ settled.environment, same ▸ settled.horizon, stack⟩

theorem pop (settled : state.Settled property) {values : List Bindable} {rest : ValueStack}
    (taken : state.values = values.map .bindable ++ rest) :
    (∀ value ∈ values, property (State.horizon { state with values := rest }) value) ∧
      Settled property { state with values := rest } := by
  have stack := settled.stack
  rw [taken] at stack
  rcases stack.append_bindables with ⟨holds, settledRest⟩
  exact ⟨holds, settled.replace (by simp [taken]) settledRest⟩

theorem popClosures (settled : state.Settled property) {references : List ClosureRef}
    {rest : ValueStack} (taken : state.values = references.map .closure ++ rest) :
    (∀ reference ∈ references,
        property (State.horizon { state with values := rest }) (.closure reference)) ∧
      Settled property { state with values := rest } := by
  have bindables : references.map StackValue.closure =
      (references.map Bindable.closure).map StackValue.bindable := by
    simp [StackValue.closure]
  rw [bindables] at taken
  rcases settled.pop taken with ⟨holds, settledRest⟩
  exact ⟨fun reference member => holds _ (List.mem_map_of_mem member), settledRest⟩

theorem popStorables (settled : state.Settled property) {operands : List Storable}
    {rest : ValueStack} (taken : state.values = operands.map .storable ++ rest) :
    Settled property { state with values := rest } := by
  have bindables : operands.map StackValue.storable =
      (operands.map Bindable.storable).map StackValue.bindable := by
    simp [StackValue.storable]
  rw [bindables] at taken
  exact (settled.pop taken).2

theorem popBindable (settled : state.Settled property) {value : Bindable} {rest : ValueStack}
    (taken : state.values = .bindable value :: rest) :
    property (State.horizon { state with values := rest }) value ∧
      Settled property { state with values := rest } := by
  have taken : state.values = [value].map .bindable ++ rest := taken
  rcases settled.pop taken with ⟨holds, settledRest⟩
  exact ⟨holds value List.mem_cons_self, settledRest⟩

theorem popDeclarations (settled : state.Settled property) {collected : Environment}
    {rest : ValueStack} (taken : state.values = .declarations collected :: rest) :
    collected.Holds (property (State.horizon { state with values := rest })) ∧
      Settled property { state with values := rest } := by
  have stack := settled.stack
  rw [taken] at stack
  exact ⟨stack.1, settled.replace (by simp [taken, ValueStack.savedRegions]) stack.2⟩

theorem popIdentifier (settled : state.Settled property) {name : Name} {rest : ValueStack}
    (taken : state.values = .identifier name :: rest) :
    Settled property { state with values := rest } := by
  have stack := settled.stack
  rw [taken] at stack
  exact settled.replace (by simp [taken, ValueStack.savedRegions]) stack

theorem popPending (settled : state.Settled property) {node : NodeId} {rest : ValueStack}
    (taken : state.values = .pending node :: rest) :
    Settled property { state with values := rest } := by
  have stack := settled.stack
  rw [taken] at stack
  exact settled.replace (by simp [taken, ValueStack.savedRegions]) stack

/-- Whatever the environment, closures and cells yield may be pushed. -/
theorem push (settled : state.Settled property) {value : Bindable}
    (holds : property state.horizon value) :
    Settled property { state with values := .bindable value :: state.values } :=
  ⟨settled.environment, settled.horizon, holds, settled.stack⟩

theorem declare (settled : state.Settled property) {collected : Environment}
    (holds : collected.Holds (property state.horizon)) :
    Settled property { state with values := .declarations collected :: state.values } :=
  ⟨settled.environment, settled.horizon, holds, settled.stack⟩

/-- Opening a scope widens nothing: its region is still empty. -/
theorem openScope (carried : Carried property) (settled : state.Settled property)
    {environment : Environment} (control : List Control)
    (holds : environment.Holds (property state.horizon)) :
    Settled property { state with
      values := .mark state.closures.mark :: .region state.region ::
        .environment state.environment :: state.values
      region := .empty
      environment := environment
      control := control } := by
  have owns (address : Address) :
      Horizon.Owns ⟨state.regions ++ [.empty], state.closures.mark⟩ address ↔
        state.horizon.Owns address :=
    Horizon.owns_concat.trans (or_iff_left List.not_mem_nil)
  have within : Horizon.Within state.horizon ⟨state.regions ++ [.empty], state.closures.mark⟩ :=
    ⟨fun address => (owns address).mpr, .refl _⟩
  refine ⟨holds.imp fun _ => carried.widen within, ⟨?_, ?_, ?_⟩, .refl _, settled.horizon,
    settled.environment, settled.stack⟩
  · intro id closure below found
    exact (settled.horizon.captured id closure below found).imp fun _ => carried.widen within
  · intro id members below found member isMember
    exact carried.widen within (settled.horizon.members id members below found member isMember)
  · intro address value owned held
    exact carried.widen within
      (settled.horizon.cells address value ((owns address).mp owned) held)

theorem dereference (settled : state.Settled property) (owns : state.Owns) {name : Name}
    {value result : Bindable} (bound : state.environment.lookup name = some value)
    (held : state.store.dereference? value = some result) : property state.horizon result := by
  unfold Store.dereference? at held
  split at held
  next address =>
    rcases Option.map_eq_some_iff.mp held with ⟨content, isHeld, rfl⟩
    exact settled.horizon.cells address content (owns.owns_of_get? isHeld) isHeld
  next =>
    cases held
    exact settled.environment.lookup bound

/-- The tables may grow by what has the property within the new horizon. -/
theorem grow (carried : Carried property) (settled : state.Settled property)
    {table : ClosureTable} (grows : state.closures.Grows table)
    (captured : ∀ id closure, ¬id.index < state.closures.mark.closures →
      table.closure? id = some closure →
      closure.captured.Holds (property ⟨state.regions, table.mark⟩))
    (members : ∀ id members, ¬id.index < state.closures.mark.groups →
      table.members? id = some members → ∀ member ∈ members,
      property ⟨state.regions, table.mark⟩ (.closure (.recursive member.2 id))) :
    Settled property { state with closures := table } := by
  have within : Horizon.Within state.horizon ⟨state.regions, table.mark⟩ :=
    ⟨fun _ owns => owns, grows.mark⟩
  refine ⟨settled.environment.imp fun _ => carried.widen within, ⟨?_, ?_, ?_⟩,
    (settled.stack.mono grows.closures grows.groups fun _ _ _ _ _ _ => .inl).widen carried
      (fun _ member => member) grows.mark⟩
  · intro id closure _ found
    by_cases known : id.index < state.closures.mark.closures
    · rw [grows.closures id known] at found
      exact (settled.horizon.captured id closure known found).imp fun _ => carried.widen within
    · exact captured id closure known found
  · intro id listed _ found
    by_cases known : id.index < state.closures.mark.groups
    · rw [grows.groups id known] at found
      intro member isMember
      exact carried.widen within (settled.horizon.members id listed known found member isMember)
    · exact members id listed known found
  · intro address value owned held
    exact carried.widen within (settled.horizon.cells address value owned held)

theorem insertClosure (carried : Carried property) (settled : state.Settled property)
    (formals : Span Name) (body : NodeId) :
    Settled property { state with
      values := .closure (.plain ⟨state.closures.size⟩) :: state.values
      closures := (state.closures.insert ⟨formals, body, state.environment⟩).2 } := by
  have grows := state.closures.grows_insert ⟨formals, body, state.environment⟩
  refine (settled.grow carried grows ?_ ?_).push (carried.plain ?_)
  · intro id closure fresh found
    rw [ClosureTable.closure?_insert] at found
    split at found
    next =>
      cases found
      exact settled.environment.imp fun _ => carried.widen ⟨fun _ owns => owns, grows.mark⟩
    next => exact absurd (ClosureTable.index_lt_of_closure? found) fresh
  · intro id members fresh found
    exact absurd (ClosureTable.index_lt_of_members? found) fresh
  · simp [State.horizon, ClosureTable.mark, ClosureTable.insert, ClosureTable.size]

theorem declareGroup (carried : Carried property) (settled : state.Settled property)
    {references : List ClosureRef} {collected : Environment}
    (holdsReferences : ∀ reference ∈ references, property state.horizon (.closure reference))
    (holdsCollected : collected.Holds (property state.horizon)) (group : List Binding) :
    Settled property { state with
      values := .declarations (collected.bindAll (ClosureTable.memberBindings
        ⟨state.closures.groupCount⟩ (Binding.members group references))) :: state.values
      closures := (state.closures.addGroup (Binding.members group references)).2 } := by
  have grows := state.closures.grows_addGroup (Binding.members group references)
  have within : Horizon.Within state.horizon
      ⟨state.regions, (state.closures.addGroup (Binding.members group references)).2.mark⟩ :=
    ⟨fun _ owns => owns, grows.mark⟩
  have holdsMembers : ∀ member ∈ Binding.members group references,
      property ⟨state.regions,
        (state.closures.addGroup (Binding.members group references)).2.mark⟩
        (.closure (.recursive member.2 ⟨state.closures.groupCount⟩)) := by
    intro member isMember
    rcases List.mem_map.mp (List.of_mem_zip isMember).2 with ⟨reference, isReference, closure⟩
    rw [← closure]
    apply carried.recursive (carried.widen within (holdsReferences reference isReference))
    simp [ClosureTable.mark, ClosureTable.addGroup, ClosureTable.groupCount]
  refine (settled.grow carried grows ?_ ?_).declare
    ((holdsCollected.imp fun _ => carried.widen within).bindAll ?_)
  · intro id closure fresh found
    exact absurd (ClosureTable.index_lt_of_closure? found) fresh
  · intro id members fresh found
    rw [ClosureTable.members?_addGroup] at found
    split at found
    next isNew =>
      cases found
      exact isNew ▸ holdsMembers
    next => exact absurd (ClosureTable.index_lt_of_members? found) fresh
  · intro entry isEntry
    rcases List.mem_map.mp isEntry with ⟨member, isMember, rfl⟩
    exact holdsMembers member isMember

/-- A new cell belongs to the innermost region and holds what lay within the
horizon. -/
theorem allocate (carried : Carried property) (settled : state.Settled property)
    (owns : state.Owns) {value : Storable} (holds : property state.horizon (.storable value)) :
    Settled property { state with
      values := .location (state.store.allocate value).1 :: state.values
      store := (state.store.allocate value).2
      region := state.region.push (state.store.allocate value).1 } := by
  have pushed {address : Address} (member : address ∈ state.region.addresses) :
      address ∈ (state.region.push (state.store.allocate value).1).addresses :=
    List.mem_append_left _ member
  have within : Horizon.Within state.horizon ⟨state.values.savedRegions ++
      [state.region.push (state.store.allocate value).1], state.closures.mark⟩ := by
    refine ⟨?_, .refl _⟩
    intro address owned
    exact Horizon.owns_concat.mpr ((Horizon.owns_concat.mp owned).imp_right pushed)
  have location : Horizon.Owns ⟨state.values.savedRegions ++
      [state.region.push (state.store.allocate value).1], state.closures.mark⟩
      (state.store.allocate value).1 :=
    Horizon.owns_concat.mpr (.inr (by simp [Region.push]))
  refine ⟨settled.environment.imp fun _ => carried.widen within, ⟨?_, ?_, ?_⟩,
    carried.location location, ?_⟩
  · intro id closure known found
    exact (settled.horizon.captured id closure known found).imp fun _ => carried.widen within
  · intro id members known found member isMember
    exact carried.widen within (settled.horizon.members id members known found member isMember)
  · intro address content _ held
    rw [Store.get?_allocate] at held
    split at held
    next =>
      cases held
      exact carried.widen within holds
    next =>
      exact carried.widen within
        (settled.horizon.cells address content (owns.owns_of_get? held) held)
  · refine ValueStack.Settled.widen carried (settled.stack.mono (fun _ _ => rfl) (fun _ _ => rfl)
      ?_) (fun _ => pushed) (.refl _)
    intro saved mark isPrefix address content owned held
    rw [Store.get?_allocate] at held
    split at held
    next isNew =>
      rcases List.mem_flatMap.mp owned with ⟨region, isOpen, inRegion⟩
      have owned : address ∈ state.owned := List.mem_flatMap.mpr
        ⟨region, List.mem_append_left _ (isPrefix.subset isOpen), inRegion⟩
      have known := Store.index_lt_of_isLive ((owns.live address).mp owned)
      exact absurd known (isNew ▸ Nat.lt_irrefl _)
    next => exact .inl held

/-- A write keeps the property if what is written lies within the horizon of every
scope that can see the cell. -/
theorem write (settled : state.Settled property) {address : Address} {value : Storable}
    {store : Store} (written : state.store.write address value = .ok store)
    (permitted : ∀ regions mark, regions <+: state.regions →
      Horizon.Owns ⟨regions, mark⟩ address → property ⟨regions, mark⟩ (.storable value)) :
    Settled property { state with store := store } := by
  have cells (regions : List Region) (mark : Mark) (isPrefix : regions <+: state.regions)
      (cell : Address) (content : Storable) (owned : Horizon.Owns ⟨regions, mark⟩ cell)
      (held : store.get? cell = some content) :
      state.store.get? cell = some content ∨ property ⟨regions, mark⟩ (.storable content) := by
    rw [Store.get?_of_write written] at held
    split at held
    next isTarget =>
      cases held
      exact .inr (permitted regions mark isPrefix (isTarget ▸ owned))
    next => exact .inl held
  refine ⟨settled.environment, settled.horizon.mono (fun _ _ => rfl) (fun _ _ => rfl) ?_,
    settled.stack.mono (fun _ _ => rfl) (fun _ _ => rfl) ?_⟩
  · exact cells _ _ (List.prefix_refl _)
  · intro saved mark isPrefix
    exact cells saved mark (isPrefix.trans (List.prefix_append _ _))

/-- What a scope leaves behind lay within the horizon at which it was opened. -/
theorem closeScope (settled : state.Settled property) {mark : Mark} {region : Region}
    {outer : Environment} {rest : ValueStack}
    (taken : state.values = .mark mark :: .region region :: .environment outer :: rest) :
    Settled property { state with
      values := rest
      store := state.region.release state.store
      region := region
      environment := outer
      closures := state.closures.truncate mark } := by
  have stack := settled.stack
  rw [taken] at stack
  rcases stack with ⟨below, settledHorizon, holdsOuter, settledRest⟩
  have sameMark := ClosureTable.mark_truncate below
  have closures (id : ClosureId) (known : id.index < mark.closures) :
      (state.closures.truncate mark).closure? id = state.closures.closure? id := by
    rw [ClosureTable.closure?_truncate, if_pos known]
  have groups (id : GroupId) (known : id.index < mark.groups) :
      (state.closures.truncate mark).members? id = state.closures.members? id := by
    rw [ClosureTable.members?_truncate, if_pos known]
  have cells (address : Address) (value : Storable)
      (held : (state.region.release state.store).get? address = some value) :
      state.store.get? address = some value := by
    rw [Region.get?_release] at held
    split at held
    next => contradiction
    next => exact held
  refine ⟨?_, ?_, ?_⟩
  · show outer.Holds (property ⟨_, (state.closures.truncate mark).mark⟩)
    rw [sameMark]
    exact holdsOuter
  · show Horizon.Settled property _ _ ⟨_, (state.closures.truncate mark).mark⟩
    rw [sameMark]
    exact settledHorizon.mono closures groups fun address value _ held =>
      .inl (cells address value held)
  · show ValueStack.Settled property _ _ _ _ (state.closures.truncate mark).mark
    rw [sameMark]
    exact settledRest.mono closures groups fun _ _ _ address value _ held =>
      .inl (cells address value held)

/-- The environment of a callee holds what its closure captured, its group and the
actuals. -/
theorem callee (settled : state.Settled property) {id : ClosureId} {closure : Closure}
    {group : Option GroupId} {home : Environment} {formals : List Name}
    {actuals : List Bindable} (found : state.closures.closure? id = some closure)
    (entered : state.closures.homeEnvironment? closure group = some home)
    (holdsActuals : ∀ actual ∈ actuals, property state.horizon actual) :
    (home.bindAll (formals.zip actuals)).Holds (property state.horizon) := by
  have captured := settled.horizon.captured id closure
    (ClosureTable.index_lt_of_closure? found) found
  have holdsHome : home.Holds (property state.horizon) := by
    cases group with
    | none =>
        cases entered
        exact captured
    | some group =>
        rcases Option.map_eq_some_iff.mp entered with ⟨bindings, unfolded, rfl⟩
        rcases Option.map_eq_some_iff.mp unfolded with ⟨members, listed, rfl⟩
        refine captured.extend (Environment.holds_empty.bindAll ?_)
        intro entry isEntry
        rcases List.mem_map.mp isEntry with ⟨member, isMember, rfl⟩
        exact settled.horizon.members group members
          (ClosureTable.index_lt_of_members? listed) listed member isMember
  apply holdsHome.bindAll
  intro entry isEntry
  exact holdsActuals entry.2 (List.of_mem_zip isEntry).2

/-- A property that is carried along holds after every rule if it held before,
provided that assignments write what lies within the right horizons. -/
theorem rule (carried : Carried property) {image : Image} {entry : Control}
    {before after : State} (rule : Rule image entry before after) (owns : before.Owns)
    (permitted : entry = .op .assign → before.AssignsWithin property)
    (settled : before.Settled property) : after.Settled property := by
  cases rule with
  | @literal _ node value _ fetched literal =>
      cases node with
      | number value =>
          cases literal
          exact settled.push (carried.number _ _)
      | truth value =>
          cases literal
          exact settled.push (carried.boolean _ _)
      | _ => cases literal
  | identifier fetched bound held => exact settled.push (settled.dereference owns bound held)
  | addressOf fetched bound => exact settled.push (settled.environment.lookup bound)
  | valueOf fetched bound pointer held =>
      exact settled.push (settled.horizon.cells _ _ (owns.owns_of_get? held) held)
  | agenda fetched agenda functions =>
      have regions := (Node.parked_of_agenda? agenda).1
      exact (settled.replace (by simp [regions]) (settled.stack.append_parked agenda)).frame _ _ _
  | block fetched =>
      exact (settled.openScope carried _ settled.environment).declare Environment.holds_empty
  | abstraction fetched => exact settled.insertClosure carried _ _
  | operator combines taken =>
      have popped := settled.popStorables taken
      cases combines with
      | arith evaluated => exact popped.push (carried.number _ _)
      | _ => exact popped.push (carried.boolean _ _)
  | assign taken bound written =>
      have popped := (settled.popBindable taken).2.popIdentifier rfl
      exact popped.write written fun regions mark isPrefix =>
        permitted rfl _ _ _ _ taken bound regions mark (by
          simpa [State.regions, taken, ValueStack.savedRegions, StackValue.storable]
            using isPrefix)
  | bind taken =>
      rcases settled.popBindable taken with ⟨holds, settledBelow⟩
      rcases (settledBelow.popIdentifier rfl).popDeclarations rfl with ⟨collected, settledRest⟩
      exact settledRest.declare (collected.bind _ holds)
  | recBind fetched members taken =>
      rcases settled.popClosures taken with ⟨holds, settledBelow⟩
      rcases settledBelow.popDeclarations rfl with ⟨holdsCollected, settledRest⟩
      exact settledRest.declareGroup carried holds holdsCollected _
  | ref taken =>
      rcases settled.popBindable taken with ⟨holds, settledRest⟩
      refine settledRest.allocate carried (owns.replace ?_) holds
      simp [taken, ValueStack.savedRegions, StackValue.storable]
  | blockDeclarations taken =>
      rcases settled.popDeclarations taken with ⟨declared, settledRest⟩
      exact ⟨settledRest.environment.extend declared, settledRest.horizon, settledRest.stack⟩
  | blockCommands taken => exact settled.closeScope taken
  | cond taken fetched =>
      exact ((settled.popBindable taken).2.popPending rfl).frame _ _ _
  | loop taken fetched =>
      exact ((settled.popBindable taken).2.popPending rfl).frame _ _ _
  | print taken => exact (settled.popBindable taken).2.frame _ _ _
  | call bound found arity matched taken entered =>
      rcases settled.pop taken with ⟨holds, settledRest⟩
      exact settledRest.openScope carried _ (settledRest.callee found entered holds)

end Settled

end State

end BlockMachine
