import BlockMachine.Proofs.Memory.Scopes

namespace BlockMachine

/-! # Ownership of cells

Every live cell belongs to the region of exactly one open scope, and no region
holds an address that is not live. The regions of the open scopes, taken from the
outermost one inwards, list the live addresses in their order. When a scope
closes, the cells allocated since it was opened are therefore just those of its
region. -/

/-- The addresses owned by open scopes, those of the outermost scope first. -/
def State.owned (state : State) : List Address :=
  state.regions.flatMap Region.addresses

/-- The owned addresses increase and are just the live ones. -/
structure State.Owns (state : State) : Prop where
  increasing : state.owned.Pairwise fun earlier later => earlier.index < later.index
  live : ∀ address, address ∈ state.owned ↔ state.store.isLive address

theorem State.owns_start (root : NodeId) (printer : Printer) : (start root printer).Owns where
  increasing := List.Pairwise.nil
  live := by
    intro address
    simp [start, owned, regions, ValueStack.savedRegions, Region.empty, Store.isLive,
      Store.get?, Store.empty]

variable {code : Code} {entry : Control} {before after : State}

theorem State.Owns.change (owns : before.Owns) (change : ScopeChange code entry before after) :
    after.Owns := by
  cases change with
  | opens opener regions store closers =>
      have same : after.owned = before.owned := by
        simp [State.owned, regions, Region.empty]
      exact ⟨same ▸ owns.increasing, same ▸ store ▸ owns.live⟩
  | closes closer regions store control =>
      have split : before.owned = after.owned ++ before.region.addresses := by
        simp [State.owned, regions]
      have increasing := owns.increasing
      rw [split] at increasing
      have parts := List.pairwise_append.mp increasing
      refine ⟨parts.1, ?_⟩
      intro address
      rw [store, Store.isLive_release, ← owns.live, split, List.mem_append]
      constructor
      · intro kept
        refine ⟨?_, .inl kept⟩
        intro freed
        exact Nat.lt_irrefl _ (parts.2.2 address kept address freed)
      · intro remaining
        rcases remaining.2 with kept | freed
        · exact kept
        · exact absurd freed remaining.1
  | allocates opcode saved region store closers =>
      have grown : after.owned = before.owned ++ [⟨before.store.cells.size⟩] := by
        simp [State.owned, State.regions, saved, region, Region.push, Store.allocate]
      constructor
      · rw [grown, List.pairwise_append]
        refine ⟨owns.increasing, by simp, ?_⟩
        intro earlier member later isLater
        rw [List.mem_singleton.mp isLater]
        exact Store.index_lt_of_isLive ((owns.live earlier).mp member)
      · intro address
        rw [grown, store, Store.isLive_allocate, ← owns.live, List.mem_append,
          List.mem_singleton, or_comm]
        rfl
  | stays notOpener notCloser saved region live size closers =>
      have same : after.owned = before.owned := by
        simp [State.owned, State.regions, saved, region]
      exact ⟨same ▸ owns.increasing, fun address => by rw [same, live, owns.live]⟩

namespace Machine

variable {before after : Machine}

theorem Advances.scopeChange (advances : before.Advances after) :
    ∃ entry rest, before.state.control = entry :: rest ∧
      ScopeChange before.image.code entry (begin before.state rest) after.state := by
  rcases advances.rule with ⟨entry, rest, scheduled, rule⟩
  exact ⟨entry, rest, scheduled, .of_rule rule⟩

theorem Advances.owns (advances : before.Advances after) (owns : before.state.Owns) :
    after.state.Owns := by
  rcases advances.scopeChange with ⟨entry, rest, _, change⟩
  have begun : (begin before.state rest).Owns := ⟨owns.increasing, owns.live⟩
  exact begun.change change

theorem Reaches.owns (reaches : before.Reaches after) (owns : before.state.Owns) :
    after.state.Owns :=
  reaches.keeps (fun _ _ => Advances.owns) owns

/-! ## Between the opening and the closing of a scope -/

/-- A step after which the scope opened over `rest` is still to be closed. -/
def AdvancesInside (rest : List Control) (before after : Machine) : Prop :=
  before.Advances after ∧ Control.op .blockCommands :: rest <:+ after.state.control

theorem Advances.grows (advances : before.Advances after) :
    before.state.store.Grows after.state.store := by
  rcases advances.scopeChange with ⟨entry, rest, _, change⟩
  cases change with
  | opens opener regions store closers => exact store ▸ .refl _
  | closes closer regions store control => exact store ▸ Store.grows_release _ _
  | allocates opcode saved region store closers => exact store ▸ Store.grows_allocate _ _
  | stays notOpener notCloser saved region live size closers =>
      exact ⟨Nat.le_of_eq size.symm, fun address _ => (live address).mp⟩

theorem Reaches.grows (reaches : before.Reaches after) :
    before.state.store.Grows after.state.store := by
  induction reaches with
  | refl => exact .refl _
  | tail _ last induction => exact induction.trans last.grows

/-- As many scopes are saved as the control stack is to close. -/
def Balanced (machine : Machine) : Prop :=
  machine.state.values.savedRegions.length = machine.state.closers

theorem closers_eq {state : State} {entry : Control} {rest : List Control}
    (scheduled : state.control = entry :: rest) :
    state.closers = (begin state rest).closers +
      if entry = .op .blockCommands then 1 else 0 := by
  simp [State.closers, begin, scheduled, List.count_cons]

theorem Advances.balanced (advances : before.Advances after) (balanced : before.Balanced) :
    after.Balanced := by
  rcases advances.scopeChange with ⟨entry, rest, scheduled, change⟩
  have counted := closers_eq scheduled
  unfold Balanced at balanced ⊢
  rw [counted] at balanced
  cases change with
  | opens opener regions store closers =>
      have notCloser : entry ≠ .op .blockCommands := by
        intro equal
        exact (equal ▸ opener : (Control.op .blockCommands).OpensScope _)
      have lengths := congrArg List.length regions
      simp [State.regions, begin] at lengths
      simp [notCloser] at balanced
      omega
  | closes closer regions store control =>
      have lengths := congrArg List.length regions
      have closers : after.state.closers = (begin before.state rest).closers := by
        rw [State.closers, control, State.closers]
      simp [State.regions, begin] at lengths
      simp [closer] at balanced
      omega
  | allocates opcode saved region store closers =>
      simp [opcode] at balanced
      rw [saved, closers]
      exact balanced
  | stays notOpener notCloser saved region live size closers =>
      simp [notCloser] at balanced
      rw [saved, closers]
      exact balanced

theorem Reaches.balanced (reaches : before.Reaches after) (balanced : before.Balanced) :
    after.Balanced :=
  reaches.keeps (fun _ _ => Advances.balanced) balanced

/-- Until a scope is closed, the regions that were open before it stay saved. -/
theorem AdvancesInside.prefix_saved {rest : List Control} {outer : List Region}
    (advances : AdvancesInside rest before after) (balanced : before.Balanced)
    (enough : outer.length = rest.count (.op .blockCommands) + 1)
    (saved : outer <+: before.state.values.savedRegions) :
    outer <+: after.state.values.savedRegions := by
  have afterBalanced := advances.1.balanced balanced
  rcases advances.1.scopeChange with ⟨entry, _, scheduled, change⟩
  cases change with
  | opens opener regions store closers =>
      have grown : after.state.values.savedRegions =
          before.state.values.savedRegions ++ [before.state.region] := by
        simpa [State.regions, begin] using congrArg List.dropLast regions
      rw [grown]
      exact saved.trans (List.prefix_append _ _)
  | closes closer regions store control =>
      have shrunk : before.state.values.savedRegions =
          after.state.values.savedRegions ++ [after.state.region] := by
        simpa [State.regions, begin] using congrArg List.dropLast regions
      have remaining : outer.length ≤ after.state.values.savedRegions.length := by
        have kept := advances.2.sublist.count_le (.op .blockCommands)
        unfold Balanced at afterBalanced
        rw [afterBalanced, enough]
        simpa [State.closers] using kept
      rw [shrunk] at saved
      exact List.prefix_of_prefix_length_le saved (List.prefix_append _ _) remaining
  | allocates opcode same region store closers => exact same ▸ saved
  | stays notOpener notCloser same region live size closers => exact same ▸ saved

/-- A scope opened over `rest` that is about to be closed. -/
structure Encloses (rest : List Control) (outer inner : Machine) : Prop where
  opener : ∃ entry, outer.state.control = entry :: rest ∧ entry.OpensScope outer.image.code
  inside : ∃ first, outer.Advances first ∧
    Relation.ReflTransGen (AdvancesInside rest) first inner
  closing : inner.state.control = .op .blockCommands :: rest

variable {rest : List Control} {outer inner closed : Machine}

theorem Encloses.reaches (encloses : Encloses rest outer inner) : outer.Reaches inner := by
  rcases encloses.inside with ⟨first, opened, inside⟩
  exact .head opened (inside.lift id fun _ _ advances => advances.1)

/-- When a scope is about to be closed, what is saved are the regions that were
open before it. -/
theorem Encloses.saved_eq (encloses : Encloses rest outer inner) (balanced : outer.Balanced) :
    inner.state.values.savedRegions = outer.state.regions := by
  rcases encloses.opener with ⟨entry, scheduled, opener⟩
  rcases encloses.inside with ⟨first, opened, inside⟩
  have notCloser : entry ≠ .op .blockCommands := by
    intro equal
    exact (equal ▸ opener : (Control.op .blockCommands).OpensScope _)
  have enough : outer.state.regions.length = rest.count (.op .blockCommands) + 1 := by
    have counted := closers_eq scheduled
    unfold Balanced at balanced
    rw [← balanced, if_neg notCloser] at counted
    simpa [State.regions, State.closers, begin] using counted
  have start : first.Balanced ∧ outer.state.regions <+: first.state.values.savedRegions := by
    refine ⟨opened.balanced balanced, ?_⟩
    rcases opened.scopeChange with ⟨actual, _, actuallyScheduled, change⟩
    have same : actual = entry := by
      rw [scheduled] at actuallyScheduled
      exact (List.cons.inj actuallyScheduled).1.symm
    subst same
    cases change with
    | opens opener regions store closers =>
        have grown : first.state.values.savedRegions = outer.state.regions := by
          simpa [State.regions, begin] using congrArg List.dropLast regions
        exact grown ▸ List.prefix_refl _
    | closes closer => exact absurd closer notCloser
    | allocates opcode =>
        subst opcode
        exact opener.elim
    | stays notOpener => exact absurd opener notOpener
  have atClose : inner.Balanced ∧ outer.state.regions <+: inner.state.values.savedRegions := by
    clear encloses
    induction inside with
    | refl => exact start
    | tail _ last induction =>
        exact ⟨last.1.balanced induction.1, last.prefix_saved induction.1 enough induction.2⟩
  have lengths : outer.state.regions.length = inner.state.values.savedRegions.length := by
    have counted := atClose.1
    unfold Balanced at counted
    rw [counted, enough, State.closers, encloses.closing]
    simp
  exact (atClose.2.eq_of_length lengths).symm

/-- Closing a scope leaves just the cells owned when it was opened. -/
theorem Encloses.owned_eq (encloses : Encloses rest outer inner) (balanced : outer.Balanced)
    (closes : inner.Advances closed) :
    closed.state.owned = outer.state.owned ∧
      closed.state.store = inner.state.region.release inner.state.store := by
  rcases closes.scopeChange with ⟨entry, _, scheduled, change⟩
  have closer : entry = .op .blockCommands := by
    rw [encloses.closing] at scheduled
    exact (List.cons.inj scheduled).1.symm
  subst closer
  cases change with
  | opens opener => exact opener.elim
  | closes _ regions store control =>
      have shrunk : inner.state.values.savedRegions = closed.state.regions := by
        simpa [State.regions, begin] using congrArg List.dropLast regions
      exact ⟨by simp only [State.owned, ← shrunk, encloses.saved_eq balanced], store⟩
  | allocates opcode => cases opcode
  | stays _ notCloser => exact absurd rfl notCloser

theorem Encloses.get?_closed (encloses : Encloses rest outer inner) (balanced : outer.Balanced)
    (owns : outer.state.Owns) (closes : inner.Advances closed) (address : Address) :
    closed.state.store.get? address =
      if address.index < outer.state.store.cells.size then inner.state.store.get? address
      else none := by
  have innerOwns := encloses.reaches.owns owns
  have closedOwns := Reaches.owns (encloses.reaches.tail closes) owns
  rcases encloses.owned_eq balanced closes with ⟨sameOwned, released⟩
  have liveAtOuter : closed.state.store.isLive address ↔ outer.state.store.isLive address := by
    rw [← closedOwns.live, sameOwned, owns.live]
  split
  next known =>
    have notFreed : address ∉ inner.state.region.addresses := by
      intro freed
      have owned : address ∈ inner.state.owned := by
        simp [State.owned, State.regions, freed]
      have live := encloses.reaches.grows.live address known ((innerOwns.live address).mp owned)
      have kept := liveAtOuter.mpr live
      rw [released, Store.isLive_release] at kept
      exact kept.1 freed
    rw [released, Region.get?_release, if_neg notFreed]
  next unknown =>
    have dead : ¬closed.state.store.isLive address := by
      intro live
      exact unknown (Store.index_lt_of_isLive (liveAtOuter.mp live))
    simpa [Store.isLive] using dead

theorem live_cells_owned {image : Image} {options : Options} {printer : Printer}
    {machine : Machine} (reaches : (load image options printer).Reaches machine) :
    machine.state.owned.Pairwise (fun earlier later => earlier.index < later.index) ∧
    machine.state.owned = machine.state.store.live.map Prod.fst ∧
    ∀ rest inner closed, Encloses rest machine inner → inner.Advances closed →
      ∀ address, closed.state.store.get? address =
        if address.index < machine.state.store.cells.size then
          inner.state.store.get? address
        else none := by
  have owns := reaches.owns (State.owns_start image.program.root printer)
  refine ⟨owns.increasing, Store.eq_liveAddresses owns.increasing owns.live, ?_⟩
  intro rest inner closed encloses closes address
  exact encloses.get?_closed (reaches.balanced rfl) owns closes address

/-- A block with a cell around a block with a cell. -/
def nestedBlocks : Image where
  program := {
    code := { Code.empty with
      nodes := #[.truth true, .allocateReference ⟨0⟩, .bind ⟨1⟩ ⟨1⟩,
        .truth false, .allocateReference ⟨3⟩, .bind ⟨2⟩ ⟨4⟩, .noOp,
        .block ⟨5⟩ ⟨6⟩, .block ⟨2⟩ ⟨7⟩] }
    root := ⟨8⟩ }
  names := .initial

/-- When the inner block ends, the cell of the outer one stays. -/
theorem live_cells_owned_nestedBlocks :
    let start := load nestedBlocks .unbounded .silent
    let outer := (start.runFor 7).2
    let inner := (start.runFor 15).2
    let closed := (start.runFor 16).2
    start.Reaches outer ∧ Encloses [.op .blockCommands] outer inner ∧ inner.Advances closed ∧
      outer.state.owned = [⟨0⟩] ∧ inner.state.owned = [⟨0⟩, ⟨1⟩] ∧
      closed.state.store.get? ⟨0⟩ = some (.boolean true) ∧
      closed.state.store.get? ⟨1⟩ = none := by
  intro start outer inner closed
  have reaches : start.Reaches outer := reaches_runFor rfl
  have encloses : Encloses [.op .blockCommands] outer inner :=
    { opener := ⟨.node ⟨7⟩, rfl, ⟨5⟩, ⟨6⟩, rfl⟩
      inside := ⟨(start.runFor 8).2, rfl,
        .head ⟨rfl, by decide⟩ <| .head ⟨rfl, by decide⟩ <| .head ⟨rfl, by decide⟩ <|
        .head ⟨rfl, by decide⟩ <| .head ⟨rfl, by decide⟩ <| .head ⟨rfl, by decide⟩ <|
        .single ⟨rfl, by decide⟩⟩
      closing := rfl }
  have closes : inner.Advances closed := rfl
  have result := live_cells_owned reaches
  have freed := result.2.2 _ _ _ encloses closes
  exact ⟨reaches, encloses, closes, rfl, rfl, freed ⟨0⟩, freed ⟨1⟩⟩

end Machine

end BlockMachine
