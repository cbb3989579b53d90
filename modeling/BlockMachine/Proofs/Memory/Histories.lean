import BlockMachine.Proofs.Machine.Persistence
import BlockMachine.Proofs.Memory.Ownership
import Mathlib.Data.List.Induction

namespace BlockMachine

/-! # Histories of a store

A store is a finite map with a counter: what it answers is told by the requests that were
made to it before. The counter gives the next address, so an address is allocated once, and
the map holds what was last put there, unless the address has been freed. -/

namespace Store

/-- What can be asked of a store. -/
inductive Request where
  | allocate (value : Storable)
  | read (address : Address)
  | write (address : Address) (value : Storable)
  | free (address : Address)
  | release (region : Region)

/-- The store after a request. One that fails changes nothing. -/
def perform (store : Store) : Request → Store
  | .allocate value => (store.allocate value).2
  | .read _ => store
  | .write address value => (store.write address value).toOption.getD store
  | .free address => store.free address
  | .release region => region.release store

/-- The store after some requests, made to an empty one. -/
def ofHistory (history : List Request) : Store :=
  history.foldl perform empty

namespace Request

def isAllocation : Request → Bool
  | allocate _ => true
  | _ => false

/-- The value that a request writes to an address. -/
def written? (address : Address) : Request → Option Storable
  | write target value => if target = address then some value else none
  | _ => none

/-- Whether a request frees an address. -/
def Frees (address : Address) : Request → Prop
  | free freed => freed = address
  | release region => address ∈ region.addresses
  | _ => False

end Request

/-- How many allocations there were. -/
def allocations (history : List Request) : Nat :=
  history.countP Request.isAllocation

/-- Whether an address was allocated and has not been freed since, and `value` is the last
that was put there: the last one written, or the one it was allocated with. -/
def LastPut (history : List Request) (address : Address) (value : Storable) : Prop :=
  ∃ before initial after, history = before ++ .allocate initial :: after ∧
    address = ⟨allocations before⟩ ∧ (∀ request ∈ after, ¬request.Frees address) ∧
    value = (after.filterMap (Request.written? address)).getLastD initial

variable {store : Store} {history : List Request} {request : Request} {address : Address}
  {value : Storable}

/-! ## Dead cells -/

theorem get?_eq_none_of_dead (dead : ¬store.isLive address) : store.get? address = none := by
  simpa [isLive] using dead

theorem read_of_dead (dead : ¬store.isLive address) :
    store.read address = .error (.undefinedStorageAddress address) := by
  rw [read, get?_eq_none_of_dead dead]

theorem write_of_dead (dead : ¬store.isLive address) (value : Storable) :
    store.write address value = .error (.undefinedStorageAddress address) := by
  rw [write, if_neg dead]

/-- A cell that is not live is not changed by freeing it. -/
theorem free_of_dead (dead : ¬store.isLive address) : store.free address = store := by
  have empty := get?_eq_none_of_dead dead
  have unchanged : store.cells.setIfInBounds address.index none = store.cells := by
    apply Array.ext_getElem?
    intro index
    rw [Array.getElem?_setIfInBounds]
    split
    next same =>
      subst same
      rw [get?] at empty
      split
      next inside =>
        rw [Array.getElem?_eq_getElem inside] at empty ⊢
        exact congrArg some empty.symm
      next outside => exact (Array.getElem?_eq_none (Nat.le_of_not_lt outside)).symm
    next => rfl
  rw [free, unchanged]

theorem perform_write_of_dead (dead : ¬store.isLive address) (value : Storable) :
    store.perform (.write address value) = store := by
  rw [perform, write_of_dead dead]
  rfl

theorem exists_write_eq_ok_iff :
    (∃ written, store.write address value = .ok written) ↔ store.isLive address := by
  constructor
  · rintro ⟨written, success⟩
    by_contra dead
    cases (write_of_dead dead value).symm.trans success
  · intro live
    exact ⟨_, write_of_isLive live value⟩

/-! ## One more request -/

theorem ofHistory_concat (history : List Request) (request : Request) :
    ofHistory (history ++ [request]) = (ofHistory history).perform request :=
  List.foldl_concat ..

/-- The last request has put the value there, or one before it has. -/
theorem lastPut_concat_iff :
    LastPut (history ++ [request]) address value ↔
      (request = .allocate value ∧ address = ⟨allocations history⟩) ∨
        ∃ held, LastPut history address held ∧ ¬request.Frees address ∧
          value = (request.written? address).getD held := by
  constructor
  · rintro ⟨before, initial, after, split, fresh, kept, last⟩
    rcases after.eq_nil_or_concat with rfl | ⟨front, final, rfl⟩
    · rcases List.append_inj' split rfl with ⟨rfl, same⟩
      cases same
      exact .inl ⟨by rw [last]; rfl, fresh⟩
    · rw [List.concat_eq_append] at split kept last
      rw [← List.cons_append, ← List.append_assoc] at split
      rcases List.append_inj' split rfl with ⟨rfl, same⟩
      cases same
      rw [List.forall_mem_append] at kept
      refine .inr ⟨_, ⟨before, initial, front, rfl, fresh, kept.1, rfl⟩,
        kept.2 request (List.mem_singleton_self _), ?_⟩
      rw [last, List.filterMap_append]
      cases written : request.written? address <;> simp [written]
  · rintro (⟨rfl, rfl⟩ | ⟨held, ⟨before, initial, after, rfl, fresh, kept, rfl⟩, spared, rfl⟩)
    · exact ⟨history, value, [], rfl, rfl, by simp, rfl⟩
    · refine ⟨before, initial, after ++ [request], by simp, fresh, ?_, ?_⟩
      · rw [List.forall_mem_append]
        exact ⟨kept, by simpa using spared⟩
      · rw [List.filterMap_append]
        cases written : request.written? address <;> simp [written]

theorem get?_perform_eq_some_iff :
    (store.perform request).get? address = some value ↔
      (request = .allocate value ∧ address = ⟨store.cells.size⟩) ∨
        ∃ held, store.get? address = some held ∧ ¬request.Frees address ∧
          value = (request.written? address).getD held := by
  cases request with
  | allocate initial =>
      have first : (store.allocate initial).1 = ⟨store.cells.size⟩ := rfl
      have unused := store.get?_of_allocate initial
      simp only [perform, get?_allocate, first] at unused ⊢
      by_cases fresh : address = ⟨store.cells.size⟩
      · simp [fresh, unused]
      · simp [fresh, Request.Frees, Request.written?]
  | read target => simp [perform, Request.Frees, Request.written?]
  | free freed =>
      simp only [perform, get?_free, Request.Frees, Request.written?]
      by_cases same : freed = address
      · simp [same]
      · simp [same, Ne.symm same]
  | release region =>
      simp only [perform, Region.get?_release]
      by_cases inside : address ∈ region.addresses <;> simp [inside, Request.Frees, Request.written?]
  | write target written =>
      by_cases live : store.isLive target
      · have success := write_of_isLive live written
        rcases Option.isSome_iff_exists.mp live with ⟨content, held⟩
        rw [perform, success]
        simp only [Except.toOption, Option.getD_some, get?_of_write success]
        by_cases same : address = target
        · subst same
          simp [held, Request.Frees, Request.written?, eq_comm]
        · simp [same, Ne.symm same, Request.Frees, Request.written?]
      · have empty := get?_eq_none_of_dead live
        rw [perform_write_of_dead live]
        by_cases same : target = address
        · subst same
          simp [empty]
        · simp [same, Request.Frees, Request.written?]

theorem size_perform (store : Store) (request : Request) :
    (store.perform request).cells.size =
      store.cells.size + if request.isAllocation then 1 else 0 := by
  cases request with
  | allocate value => simp [perform, allocate, Request.isAllocation]
  | read target => simp [perform, Request.isAllocation]
  | free freed => simp [perform, free, Request.isAllocation]
  | release region => simp [perform, size_release, Request.isAllocation]
  | write target value =>
      by_cases live : store.isLive target
      · have success := write_of_isLive live value
        rw [perform, success]
        simp [Except.toOption, Request.isAllocation]
      · rw [perform_write_of_dead live]
        rfl

/-! ## All requests -/

/-- The counter of a store. -/
theorem size_ofHistory (history : List Request) :
    (ofHistory history).cells.size = allocations history := by
  induction history using List.reverseRecOn with
  | nil => rfl
  | append_singleton earlier request induction =>
      rw [ofHistory_concat, size_perform, induction, allocations, allocations, List.countP_append,
        List.countP_singleton]

/-- The map of a store. -/
theorem get?_ofHistory_eq_some_iff :
    (ofHistory history).get? address = some value ↔ LastPut history address value := by
  induction history using List.reverseRecOn generalizing value with
  | nil =>
      refine iff_of_false (by simp [ofHistory, empty, get?]) ?_
      rintro ⟨before, initial, after, split, _⟩
      simp at split
  | append_singleton earlier request induction =>
      rw [ofHistory_concat, get?_perform_eq_some_iff, lastPut_concat_iff, size_ofHistory]
      simp only [induction]

theorem length_liveFrom (first : Nat) (cells : List (Option Storable)) :
    (liveFrom first cells).length = cells.countP Option.isSome := by
  induction cells generalizing first with
  | nil => rfl
  | cons head rest induction => cases head <;> simp [liveFrom, induction]

theorem liveCount_eq_length (store : Store) : store.liveCount = store.live.length := by
  rw [live, length_liveFrom, liveCount, Array.countP_toList]

/-- A store answers as its history tells. -/
theorem answers_of_history (history : List Request) :
    let store := ofHistory history
    (∀ value, (store.allocate value).1 = ⟨allocations history⟩) ∧
    (∀ address value, store.read address = .ok value ↔ LastPut history address value) ∧
    (∀ address, (∀ value, ¬LastPut history address value) →
      store.read address = .error (.undefinedStorageAddress address)) ∧
    (∀ address, store.isLive address ↔ ∃ value, LastPut history address value) := by
  intro store
  have live (address : Address) : store.isLive address ↔ ∃ value, LastPut history address value := by
    rw [isLive, Option.isSome_iff_exists]
    exact exists_congr fun value => get?_ofHistory_eq_some_iff
  refine ⟨fun value => congrArg Address.mk (size_ofHistory history), ?_, ?_, live⟩
  · intro address value
    rw [← get?_ofHistory_eq_some_iff, read]
    cases store.get? address <;> simp
  · intro address never
    refine read_of_dead fun isLive => ?_
    rcases (live address).mp isLive with ⟨value, last⟩
    exact never value last

end Store

namespace Machine

/-! ## Runs -/

/-- Whether the next step succeeds in allocating a cell, and yields this address. -/
def Allocates (machine : Machine) (address : Address) : Prop :=
  ∃ next, machine.Advances next ∧ machine.state.control.head? = some (.op .ref) ∧
    next.state.values.head? = some (.location address)

variable {machine : Machine} {address : Address}

/-- An address that a step yields is the next one of the store, which is then used up. -/
theorem Allocates.index_eq (allocates : machine.Allocates address) :
    address.index = machine.state.store.cells.size ∧
      machine.step.2.state.store.cells.size = address.index + 1 := by
  rcases allocates with ⟨next, advances, top, yielded⟩
  have stepped : machine.step.2 = next := congrArg Prod.snd advances
  rcases advances.rule with ⟨entry, rest, scheduled, rule⟩
  rw [scheduled] at top
  cases top
  rw [stepped]
  generalize next.state = after at yielded rule
  cases rule with
  | ref taken =>
      cases yielded
      exact ⟨rfl, by simp [Store.allocate, begin]⟩
  | operator combines taken => cases combines

theorem grows_step (machine : Machine) :
    machine.state.store.Grows machine.step.2.state.store := by
  by_cases advances : machine.step.1 = .advanced
  · have advances : machine.Advances machine.step.2 := Prod.ext advances rfl
    exact advances.grows
  · rw [(store_and_printer_of_not_advanced advances).1]
    exact .refl _

theorem grows_afterCalls (machine : Machine) {earlier later : Nat} (atMost : earlier ≤ later) :
    (machine.afterCalls earlier).state.store.Grows (machine.afterCalls later).state.store := by
  induction atMost with
  | refl => exact .refl _
  | step atMost induction =>
      rw [afterCalls_succ]
      exact induction.trans (grows_step _)

/-- Addresses are never used again. After any history a store is a finite map with a
counter: an allocation gives as address how many there were before; an address reads as the
value last put there if it has not been freed since its allocation, and is not defined
otherwise; it can be written just if it is live; to write or to free a dead one changes
nothing; and the live cells are listed in the order of their addresses. So however a machine
is used, also after steps that failed, no two steps yield the same address, and an address
that has been freed is never live again, nor can it be read. -/
theorem addresses_never_reused (history : List Store.Request) (machine : Machine) :
    (let store := Store.ofHistory history
     (∀ value, (store.allocate value).1 = ⟨Store.allocations history⟩) ∧
     (∀ address value, store.read address = .ok value ↔ Store.LastPut history address value) ∧
     (∀ address, (∀ value, ¬Store.LastPut history address value) →
       store.read address = .error (.undefinedStorageAddress address)) ∧
     (∀ address, store.isLive address ↔ ∃ value, Store.LastPut history address value) ∧
     (∀ address value, (∃ written, store.write address value = .ok written) ↔
       store.isLive address) ∧
     (∀ address, ¬store.isLive address →
       store.free address = store ∧ ∀ value,
         store.write address value = .error (.undefinedStorageAddress address) ∧
         store.perform (.write address value) = store) ∧
     (store.live.Pairwise fun earlier later => earlier.1.index < later.1.index) ∧
     (∀ address value, (address, value) ∈ store.live ↔ Store.LastPut history address value) ∧
     store.liveCount = store.live.length) ∧
    (∀ earlier later first second, earlier < later →
      (machine.afterCalls earlier).Allocates first →
      (machine.afterCalls later).Allocates second → first ≠ second) ∧
    (∀ allocated freed later address, allocated ≤ freed → freed ≤ later →
      (machine.afterCalls allocated).state.store.isLive address →
      ¬(machine.afterCalls freed).state.store.isLive address →
      ¬(machine.afterCalls later).state.store.isLive address ∧
      (machine.afterCalls later).state.store.read address =
        .error (.undefinedStorageAddress address)) ∧
    ∀ fuel, ∃ calls, machine.afterCalls calls = (machine.runFor fuel).2 := by
  refine ⟨?store, ?apart, ?freed, machine.exists_afterCalls_eq_runFor⟩
  case store =>
    rcases Store.answers_of_history history with ⟨fresh, held, unheld, live⟩
    refine ⟨fresh, held, unheld, live, fun address value => Store.exists_write_eq_ok_iff, ?_,
      Store.pairwise_liveFrom _ _, ?_, Store.liveCount_eq_length _⟩
    · intro address dead
      exact ⟨Store.free_of_dead dead,
        fun value => ⟨Store.write_of_dead dead value, Store.perform_write_of_dead dead value⟩⟩
    · intro address value
      rw [Store.mem_live_iff, Store.get?_ofHistory_eq_some_iff]
  case apart =>
    rintro earlier later first second before allocatesFirst allocatesSecond rfl
    have usedUp := allocatesFirst.index_eq.2
    have next := allocatesSecond.index_eq.1
    have grown := (machine.grows_afterCalls (Nat.succ_le_of_lt before)).size
    rw [afterCalls_succ, usedUp] at grown
    omega
  case freed =>
    intro allocated freed later address atMostFreed atMostLater live dead
    have known : address.index < (machine.afterCalls freed).state.store.cells.size :=
      Nat.lt_of_lt_of_le (Store.index_lt_of_isLive live) (machine.grows_afterCalls atMostFreed).size
    have stillDead : ¬(machine.afterCalls later).state.store.isLive address := fun revived =>
      dead ((machine.grows_afterCalls atMostLater).live address known revived)
    exact ⟨stillDead, Store.read_of_dead stillDead⟩

end Machine

end BlockMachine
