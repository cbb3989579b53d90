import BlockMachine.Store
import Mathlib.Data.List.Perm.Basic

namespace BlockMachine

/-! # Live cells

The live cells of a store, seen as a list in the order of their addresses and as
a set that every operation changes in one way. -/

namespace Store

theorem le_of_mem_liveFrom {first : Nat} {cells : List (Option Storable)}
    {cell : Address × Storable} (member : cell ∈ liveFrom first cells) :
    first ≤ cell.1.index := by
  induction cells generalizing first with
  | nil => cases member
  | cons head rest induction =>
      cases head with
      | none => exact Nat.le_of_succ_le (induction member)
      | some value =>
          rcases List.mem_cons.mp member with equal | later
          · exact Nat.le_of_eq (equal ▸ rfl)
          · exact Nat.le_of_succ_le (induction later)

theorem pairwise_liveFrom (first : Nat) (cells : List (Option Storable)) :
    (liveFrom first cells).Pairwise fun earlier later => earlier.1.index < later.1.index := by
  induction cells generalizing first with
  | nil => exact List.Pairwise.nil
  | cons head rest induction =>
      cases head with
      | none => exact induction (first + 1)
      | some value =>
          refine List.pairwise_cons.mpr ⟨?_, induction (first + 1)⟩
          intro cell member
          exact le_of_mem_liveFrom member

theorem mem_liveFrom_iff {first : Nat} {cells : List (Option Storable)} {address : Address}
    {value : Storable} :
    (address, value) ∈ liveFrom first cells ↔
      first ≤ address.index ∧ cells[address.index - first]?.join = some value := by
  induction cells generalizing first with
  | nil => simp [liveFrom]
  | cons head rest induction =>
      cases address with
      | mk index =>
          by_cases isFirst : index = first
          · subst isFirst
            have notAfter : ¬index + 1 ≤ index := Nat.not_succ_le_self index
            cases head with
            | none => simp [liveFrom, induction, notAfter]
            | some held => simp [liveFrom, induction, notAfter, eq_comm]
          · cases later : decide (first + 1 ≤ index) with
            | false =>
                have before : ¬first + 1 ≤ index := of_decide_eq_false later
                cases head <;> simp [liveFrom, induction, isFirst] <;> omega
            | true =>
                have after : first + 1 ≤ index := of_decide_eq_true later
                have offset : index - first = index - (first + 1) + 1 := by omega
                cases head <;>
                  simp [liveFrom, induction, isFirst, offset, after, Nat.le_of_succ_le after]

/-- The addresses of the live cells, in order. -/
def liveAddresses (store : Store) : List Address :=
  store.live.map Prod.fst

theorem pairwise_liveAddresses (store : Store) :
    store.liveAddresses.Pairwise fun earlier later => earlier.index < later.index :=
  List.pairwise_map.mpr (pairwise_liveFrom 0 store.cells.toList)

theorem mem_live_iff {store : Store} {address : Address} {value : Storable} :
    (address, value) ∈ store.live ↔ store.get? address = some value := by
  simp [live, mem_liveFrom_iff, get?]

theorem mem_liveAddresses_iff {store : Store} {address : Address} :
    address ∈ store.liveAddresses ↔ store.isLive address := by
  simp [liveAddresses, mem_live_iff, isLive, Option.isSome_iff_exists]

/-- A list of addresses that increases and has just the live ones is the list of
the live cells. -/
theorem eq_liveAddresses {store : Store} {addresses : List Address}
    (increasing : addresses.Pairwise fun earlier later => earlier.index < later.index)
    (live : ∀ address, address ∈ addresses ↔ store.isLive address) :
    addresses = store.liveAddresses := by
  have distinct {list : List Address}
      (increasing : list.Pairwise fun earlier later => earlier.index < later.index) :
      list.Nodup := by
    refine List.Pairwise.imp ?_ increasing
    intro left right less equal
    exact Nat.lt_irrefl _ (equal ▸ less)
  have ordered := store.pairwise_liveAddresses
  have permuted : addresses.Perm store.liveAddresses := by
    rw [List.perm_ext_iff_of_nodup (distinct increasing) (distinct ordered)]
    intro address
    rw [live, mem_liveAddresses_iff]
  apply permuted.eq_of_pairwise _ increasing ordered
  intro left right _ _ leftBelow rightBelow
  exact absurd (Nat.lt_trans leftBelow rightBelow) (Nat.lt_irrefl _)

/-! ## Liveness after each operation -/

theorem isLive_allocate (store : Store) (value : Storable) (address : Address) :
    (store.allocate value).2.isLive address ↔
      address = (store.allocate value).1 ∨ store.isLive address := by
  simp only [isLive, get?_allocate]
  split <;> simp_all

theorem write_of_isLive {store : Store} {address : Address} (live : store.isLive address)
    (value : Storable) :
    store.write address value = .ok ⟨store.cells.setIfInBounds address.index (some value)⟩ := by
  rw [write, if_pos live]

theorem isLive_of_write {store written : Store} {target : Address} {value : Storable}
    (success : store.write target value = .ok written) (address : Address) :
    written.isLive address ↔ store.isLive address := by
  have live : store.isLive target := by
    unfold write at success
    split at success
    next live => exact live
    next => contradiction
  simp only [isLive, get?_of_write success] at live ⊢
  split <;> simp_all

theorem size_of_write {store written : Store} {target : Address} {value : Storable}
    (success : store.write target value = .ok written) :
    written.cells.size = store.cells.size := by
  unfold write at success
  split at success
  next =>
    cases success
    simp
  next => contradiction

theorem isLive_release (region : Region) (store : Store) (address : Address) :
    (region.release store).isLive address ↔
      address ∉ region.addresses ∧ store.isLive address := by
  simp only [isLive, Region.get?_release]
  split <;> simp_all

theorem size_release (region : Region) (store : Store) :
    (region.release store).cells.size = store.cells.size := by
  rcases region with ⟨addresses⟩
  simp only [Region.release]
  induction addresses generalizing store with
  | nil => rfl
  | cons first rest induction =>
      rw [List.foldl_cons, induction]
      simp [free]

theorem index_lt_of_isLive {store : Store} {address : Address} (live : store.isLive address) :
    address.index < store.cells.size := by
  by_contra outside
  simp [isLive, get?, Array.getElem?_eq_none (Nat.le_of_not_lt outside)] at live

/-! ## Growth -/

/-- Cells are only ever added, and a dead cell stays dead. -/
structure Grows (before after : Store) : Prop where
  size : before.cells.size ≤ after.cells.size
  live : ∀ address : Address, address.index < before.cells.size →
    after.isLive address → before.isLive address

theorem Grows.refl (store : Store) : store.Grows store :=
  ⟨Nat.le_refl _, fun _ _ live => live⟩

theorem Grows.trans {first second third : Store} (left : first.Grows second)
    (right : second.Grows third) : first.Grows third where
  size := Nat.le_trans left.size right.size
  live := by
    intro address known live
    exact left.live address known (right.live address (Nat.lt_of_lt_of_le known left.size) live)

theorem grows_allocate (store : Store) (value : Storable) :
    store.Grows (store.allocate value).2 where
  size := by simp [allocate]
  live := by
    intro address known live
    rcases (isLive_allocate store value address).mp live with fresh | old
    · rw [fresh] at known
      exact absurd known (Nat.lt_irrefl _)
    · exact old

theorem grows_release (region : Region) (store : Store) : store.Grows (region.release store) where
  size := Nat.le_of_eq (size_release region store).symm
  live := fun address _ live => ((isLive_release region store address).mp live).2

end Store

end BlockMachine
