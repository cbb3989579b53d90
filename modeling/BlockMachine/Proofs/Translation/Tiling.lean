import BlockMachine.Code.Span
import Mathlib.Data.List.Nodup
import Mathlib.Data.List.Range

namespace BlockMachine

/-! # Tilings of pools

Lists are laid end to end in a pool. The spans under which they have been added cover it,
and no two of them overlap. -/

/-- The positions in a pool that a span takes. -/
def Span.indices (span : Span α) : List Nat :=
  List.range' span.start span.length

namespace Pool

/-- Whether spans lie inside a pool, and each of its entries belongs to exactly one of
them. -/
structure Tiled (pool : Pool α) (spans : List (Span α)) : Prop where
  inside : ∀ span ∈ spans, span.start + span.length ≤ pool.entries.size
  covers : (spans.flatMap Span.indices).Perm (List.range pool.entries.size)

variable {pool : Pool α} {spans others : List (Span α)}

theorem tiled_empty : (empty : Pool α).Tiled [] where
  inside := by simp
  covers := .nil

theorem Tiled.perm (tiled : pool.Tiled spans) (same : spans.Perm others) : pool.Tiled others where
  inside := fun span member => tiled.inside span (same.mem_iff.mpr member)
  covers := (same.flatMap_right Span.indices).symm.trans tiled.covers

/-- Adding a list takes the positions at the end of the pool. -/
theorem range_size_add (pool : Pool α) (entries : List α) :
    List.range (pool.add entries).2.entries.size =
      List.range pool.entries.size ++ (pool.add entries).1.indices := by
  rw [size_entries_add]
  cases entries with
  | nil => simp [add, Span.empty, Span.indices]
  | cons first rest =>
      simp only [add, List.isEmpty_cons, Span.indices, Bool.false_eq_true, if_false]
      have split := @List.range'_append_1 0 pool.entries.size (first :: rest).length
      rw [Nat.zero_add] at split
      rw [List.range_eq_range', List.range_eq_range', split]

theorem Tiled.add (tiled : pool.Tiled spans) (entries : List α) :
    (pool.add entries).2.Tiled ((pool.add entries).1 :: spans) where
  inside := by
    have larger : pool.entries.size ≤ (pool.add entries).2.entries.size := by simp
    refine List.forall_mem_cons.mpr ⟨?_, ?_⟩
    · rw [size_entries_add]
      cases entries <;> simp [Pool.add, Span.empty]
    · intro span member
      exact Nat.le_trans (tiled.inside span member) larger
  covers := by
    rw [List.flatMap_cons, range_size_add]
    exact List.perm_append_comm.trans (tiled.covers.append_right _)

/-- What holds of the entries before and of those of the list holds of all of them. -/
theorem forall_mem_add {Holds : α → Prop} {entries : List α}
    (before : ∀ entry ∈ pool.entries.toList, Holds entry)
    (added : ∀ entry ∈ entries, Holds entry) :
    ∀ entry ∈ (pool.add entries).2.entries.toList, Holds entry := by
  rw [toList_entries_add]
  exact List.forall_mem_append.mpr ⟨before, added⟩

/-- No two spans overlap. -/
theorem Tiled.disjoint (tiled : pool.Tiled spans) :
    spans.Pairwise fun first second => first.indices.Disjoint second.indices := by
  have distinct : (spans.flatMap Span.indices).Nodup :=
    tiled.covers.nodup_iff.mpr List.nodup_range
  exact (List.nodup_flatMap.mp distinct).2

end Pool

end BlockMachine
