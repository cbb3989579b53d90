import BlockMachine.Proofs.Closures.Provenance

namespace BlockMachine

/-! # Addresses that were given out

Every address that occurs in a state has been given out by its store, although the cell
may be gone by now. So a new cell is one that nothing refers to yet. -/

/-- Whether a value is no address or one that a store has given out. -/
def Store.Issued (store : Store) : Bindable → Prop
  | .storable (.location address) => address.index < store.cells.size
  | _ => True

theorem Store.Issued.mono {store after : Store} {value : Bindable} (issued : store.Issued value)
    (larger : store.cells.size ≤ after.cells.size) : after.Issued value := by
  cases value with
  | closure => trivial
  | storable value =>
      cases value with
      | location address => exact Nat.lt_of_lt_of_le issued larger
      | _ => trivial

/-- Whether the cells of a store hold no addresses but those it has given out. -/
def Store.Closed (store : Store) : Prop :=
  ∀ address value, store.get? address = some value → store.Issued (.storable value)

/-- All addresses that occur in a state have been given out. -/
structure State.Issued (state : State) : Prop where
  holds : state.Holds state.store.Issued
  cells : state.store.Closed

namespace Store

variable {store written : Store} {address : Address} {value : Storable}

theorem index_lt_of_get? (held : store.get? address = some value) :
    address.index < store.cells.size := by
  apply index_lt_of_isLive
  rw [isLive, held]
  rfl

theorem get?_eq_none_of_le (beyond : store.cells.size ≤ address.index) :
    store.get? address = none := by
  cases held : store.get? address with
  | none => rfl
  | some value => exact absurd (index_lt_of_get? held) (Nat.not_lt.mpr beyond)

theorem Closed.allocate (closed : store.Closed) (issued : store.Issued (.storable value)) :
    (store.allocate value).2.Closed := by
  intro address content held
  rw [get?_allocate] at held
  have larger := (store.grows_allocate value).size
  split at held
  next =>
    cases held
    exact issued.mono larger
  next => exact (closed address content held).mono larger

theorem Closed.write (closed : store.Closed) (issued : store.Issued (.storable value))
    (success : store.write address value = .ok written) : written.Closed := by
  intro other content held
  have sameSize := Nat.le_of_eq (size_of_write success).symm
  rw [get?_of_write success] at held
  split at held
  next =>
    cases held
    exact issued.mono sameSize
  next => exact (closed other content held).mono sameSize

theorem Closed.release (closed : store.Closed) (region : Region) :
    (region.release store).Closed := by
  intro address content held
  have sameSize := Nat.le_of_eq (size_release region store).symm
  rw [Region.get?_release] at held
  split at held
  next => cases held
  next => exact (closed address content held).mono sameSize

/-- What a value stands for that is bound. -/
theorem Closed.dereference (closed : store.Closed) {bound result : Bindable}
    (issued : store.Issued bound) (held : store.dereference? bound = some result) :
    store.Issued result := by
  unfold Store.dereference? at held
  split at held
  next =>
    rcases Option.map_eq_some_iff.mp held with ⟨content, content?, rfl⟩
    exact closed _ _ content?
  next =>
    cases held
    exact issued

end Store

namespace State.Issued

variable {image : Image} {entry : Control} {before after : State}

theorem operator_result {opcode : Opcode} {operands : List Storable} {result : Storable}
    (combines : Opcode.Combines opcode operands result) (store : Store) :
    store.Issued (.storable result) := by
  cases combines <;> trivial

/-- No step makes an address up. -/
theorem rule (issued : before.Issued) (rule : Rule image entry before after) : after.Issued := by
  have holds := issued.holds
  cases rule with
  | @literal _ node value _ fetched literal =>
      refine ⟨holds.push ?_, issued.cells⟩
      cases node <;> cases literal <;> trivial
  | identifier fetched bound held =>
      exact ⟨holds.push (issued.cells.dereference (holds.environment.lookup bound) held),
        issued.cells⟩
  | addressOf fetched bound =>
      exact ⟨holds.push (holds.environment.lookup bound), issued.cells⟩
  | valueOf fetched bound pointer held =>
      exact ⟨holds.push (issued.cells _ _ held), issued.cells⟩
  | agenda fetched agenda functions =>
      refine ⟨⟨holds.environment, ?_, holds.captured⟩, issued.cells⟩
      intro entry member
      rcases List.mem_append.mp member with parked | old
      · exact Node.holds_parked agenda entry parked
      · exact holds.values entry old
  | block fetched =>
      refine ⟨⟨holds.environment, ?_, holds.captured⟩, issued.cells⟩
      simp only [List.forall_mem_cons]
      exact ⟨Environment.holds_empty, trivial, trivial, holds.environment, holds.values⟩
  | abstraction fetched =>
      refine ⟨⟨holds.environment, List.forall_mem_cons.mpr ⟨trivial, holds.values⟩, ?_⟩,
        issued.cells⟩
      intro id closure found
      rw [ClosureTable.closure?_insert] at found
      split at found
      next =>
        cases found
        exact holds.environment
      next => exact holds.captured id closure found
  | operator combines taken =>
      refine ⟨⟨holds.environment, ?_, holds.captured⟩, issued.cells⟩
      exact List.forall_mem_cons.mpr ⟨operator_result combines _, holds.below _ taken⟩
  | assign taken bound written =>
      have sameSize := Nat.le_of_eq (Store.size_of_write written).symm
      have values := holds.values
      simp only [taken, List.forall_mem_cons] at values
      have kept := holds.imp fun value issued => issued.mono sameSize
      exact ⟨⟨kept.environment, kept.below [_, _] taken, kept.captured⟩,
        issued.cells.write values.1 written⟩
  | bind taken =>
      have values := holds.values
      simp only [taken, List.forall_mem_cons] at values
      rcases values with ⟨issuedValue, _, collected, rest⟩
      refine ⟨⟨holds.environment, ?_, holds.captured⟩, issued.cells⟩
      exact List.forall_mem_cons.mpr ⟨Environment.Holds.bind collected _ issuedValue, rest⟩
  | recBind fetched counted taken =>
      rcases List.forall_mem_cons.mp (holds.below _ taken) with ⟨collected, rest⟩
      refine ⟨⟨holds.environment, ?_, holds.captured⟩, issued.cells⟩
      refine List.forall_mem_cons.mpr ⟨Environment.Holds.bindAll collected ?_, rest⟩
      intro entry member
      rcases List.mem_map.mp member with ⟨_, _, rfl⟩
      trivial
  | @ref _ _ value taken =>
      have larger := (before.store.grows_allocate value).size
      have values := holds.values
      simp only [taken, List.forall_mem_cons] at values
      have kept := holds.imp fun value issued => issued.mono larger
      refine ⟨⟨kept.environment, ?_, kept.captured⟩, issued.cells.allocate values.1⟩
      refine List.forall_mem_cons.mpr ⟨?_, kept.below [_] taken⟩
      simp [StackValue.location, StackValue.Holds, Store.Issued, Store.allocate]
  | blockDeclarations taken =>
      have values := holds.values
      rw [taken] at values
      rcases List.forall_mem_cons.mp values with ⟨declared, rest⟩
      exact ⟨⟨holds.environment.extend declared, rest, holds.captured⟩, issued.cells⟩
  | @blockCommands _ mark region outer rest taken =>
      have sameSize := Nat.le_of_eq (Store.size_release before.region before.store).symm
      have kept := holds.imp fun value issued => issued.mono sameSize
      rcases List.forall_mem_cons.mp (kept.below [_, _] taken) with ⟨saved, below⟩
      refine ⟨⟨saved, below, kept.captured_of_keeps ?_⟩, issued.cells.release _⟩
      intro id closure found
      rw [ClosureTable.closure?_truncate] at found
      split at found
      next => exact found
      next => cases found
  | cond taken fetched =>
      exact ⟨⟨holds.environment, holds.below [_, _] taken, holds.captured⟩, issued.cells⟩
  | loop taken fetched =>
      exact ⟨⟨holds.environment, holds.below [_, _] taken, holds.captured⟩, issued.cells⟩
  | print taken => exact ⟨⟨holds.environment, holds.below [_] taken, holds.captured⟩, issued.cells⟩
  | call bound found arity matched taken entered =>
      have members (id : GroupId) (members : List Member)
          (_ : before.closures.members? id = some members) :
          ∀ entry ∈ ClosureTable.memberBindings id members, before.store.Issued entry.2 := by
        intro entry member
        rcases List.mem_map.mp member with ⟨_, _, rfl⟩
        trivial
      refine ⟨⟨holds.callee members found entered taken, ?_, holds.captured⟩, issued.cells⟩
      simp only [List.forall_mem_cons]
      exact ⟨trivial, trivial, holds.environment, holds.below _ taken⟩

theorem start (root : NodeId) (printer : Printer) : (State.start root printer).Issued where
  holds := State.holds_start root printer
  cells := by
    intro address value held
    exact absurd (Store.index_lt_of_get? held) (Nat.not_lt_zero _)

end State.Issued

theorem Machine.Reaches.issued {before after : Machine} (reaches : before.Reaches after)
    (issued : before.state.Issued) : after.state.Issued := by
  have step (machine next : Machine) (advances : machine.Advances next)
      (kept : machine.state.Issued) : next.state.Issued := by
    rcases advances.rule with ⟨entry, rest, _, rule⟩
    have begun : (begin machine.state rest).Issued :=
      ⟨⟨kept.holds.environment, kept.holds.values, kept.holds.captured⟩, kept.cells⟩
    exact begun.rule rule
  exact reaches.keeps step issued

end BlockMachine
