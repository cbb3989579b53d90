import BlockMachine.Fault

namespace BlockMachine

/-! # The store

Cells are numbered in the order of their allocation. Freeing a cell empties it for
good: its address is never given out again, so a stale address is found out
instead of standing for a newer cell. -/

/-- All cells ever allocated, those since freed being empty. -/
structure Store where
  cells : Array (Option Storable)
deriving Repr

namespace Store

def empty : Store := ⟨#[]⟩

instance : Inhabited Store := ⟨empty⟩

/-! ## Reading -/

/-- What a live cell holds. -/
def get? (store : Store) (address : Address) : Option Storable :=
  store.cells[address.index]?.join

def isLive (store : Store) (address : Address) : Bool :=
  (store.get? address).isSome

/-- What a cell holds; reading a cell that is not live is a fault. -/
def read (store : Store) (address : Address) : Except Fault Storable :=
  match store.get? address with
  | some value => .ok value
  | none => .error (.undefinedStorageAddress address)

/-- The cells from address `first` on that are live. -/
def liveFrom (first : Nat) : List (Option Storable) → List (Address × Storable)
  | [] => []
  | some value :: rest => (⟨first⟩, value) :: liveFrom (first + 1) rest
  | none :: rest => liveFrom (first + 1) rest

/-- The live cells in the order of their addresses. -/
def live (store : Store) : List (Address × Storable) :=
  liveFrom 0 store.cells.toList

def liveCount (store : Store) : Nat :=
  store.cells.countP Option.isSome

/-! ## Changing -/

/-- A new cell holding `value`. -/
def allocate (store : Store) (value : Storable) : Address × Store :=
  (⟨store.cells.size⟩, ⟨store.cells.push (some value)⟩)

/-- Replace what a live cell holds; writing a cell that is not live is a fault. -/
def write (store : Store) (address : Address) (value : Storable) : Except Fault Store :=
  if store.isLive address then
    .ok ⟨store.cells.setIfInBounds address.index (some value)⟩
  else
    .error (.undefinedStorageAddress address)

/-- Empty a cell. A cell that is not live stays so. -/
def free (store : Store) (address : Address) : Store :=
  ⟨store.cells.setIfInBounds address.index none⟩

/-- A new cell holds its value, and every other one what it did. -/
theorem get?_allocate (store : Store) (value : Storable) (address : Address) :
    (store.allocate value).2.get? address =
      if address = (store.allocate value).1 then some value else store.get? address := by
  cases address with
  | mk index =>
    by_cases fresh : index = store.cells.size <;>
      simp [get?, allocate, Array.getElem?_push, fresh]

/-- The address of a new cell was not live. -/
theorem get?_of_allocate (store : Store) (value : Storable) :
    store.get? (store.allocate value).1 = none := by
  simp [get?, allocate]

theorem get?_free (store : Store) (freed address : Address) :
    (store.free freed).get? address =
      if address = freed then none else store.get? address := by
  cases address with
  | mk index =>
    cases freed with
    | mk emptied =>
      simp only [get?, free, Array.getElem?_setIfInBounds, Address.mk.injEq]
      by_cases same : index = emptied
      · subst same
        by_cases inside : index < store.cells.size <;> simp [inside]
      · simp [same, Ne.symm same]

theorem get?_of_write {store written : Store} {target : Address} {value : Storable}
    (success : store.write target value = .ok written) (address : Address) :
    written.get? address = if address = target then some value else store.get? address := by
  unfold write at success
  split at success
  next live =>
    cases success
    cases address with
    | mk index =>
      cases target with
      | mk changed =>
        simp only [get?, Array.getElem?_setIfInBounds, Address.mk.injEq]
        by_cases same : index = changed
        · subst same
          have inside : index < store.cells.size := by
            false_or_by_contra
            rename_i outside
            simp [isLive, get?, Array.getElem?_eq_none (Nat.le_of_not_lt outside)] at live
          simp [inside]
        · simp [same, Ne.symm same]
  next => contradiction

end Store

/-! # Regions -/

/-- The cells that one open block or call has allocated, in order. -/
structure Region where
  addresses : List Address
deriving DecidableEq, Repr

namespace Region

def empty : Region := ⟨[]⟩

instance : Inhabited Region := ⟨empty⟩

def size (region : Region) : Nat :=
  region.addresses.length

def isEmpty (region : Region) : Bool :=
  region.addresses.isEmpty

def push (region : Region) (address : Address) : Region :=
  ⟨region.addresses ++ [address]⟩

/-- Free every cell of a region. -/
def release (region : Region) (store : Store) : Store :=
  region.addresses.foldl Store.free store

/-- After a release the cells of the region are dead and the others unchanged. -/
theorem get?_release (region : Region) (store : Store) (address : Address) :
    (region.release store).get? address =
      if address ∈ region.addresses then none else store.get? address := by
  obtain ⟨addresses⟩ := region
  simp only [release]
  induction addresses generalizing store with
  | nil => simp
  | cons first rest induction =>
    rw [List.foldl_cons, induction, Store.get?_free]
    by_cases isFirst : address = first <;> simp [isFirst]

end Region

end BlockMachine
