namespace BlockMachine

/-! # Spans

Lists of varying length that belong to code, such as the actuals of a call, lie
one after another in a pool and are referred to by where they start and how long
they are. A pool only grows, so a span keeps its meaning. -/

/-- A stretch of a pool of entries of type `α`. -/
structure Span (α : Type) where
  start : Nat
  length : Nat
deriving DecidableEq, Repr

namespace Span

/-- The span of every list without entries, whatever the pool. -/
def empty : Span α := ⟨0, 0⟩

instance : Inhabited (Span α) := ⟨empty⟩

def isEmpty (span : Span α) : Bool :=
  span.length == 0

end Span

/-- Entries of many lists, laid end to end. -/
structure Pool (α : Type) where
  entries : Array α
deriving Repr

namespace Pool

def empty : Pool α := ⟨#[]⟩

instance : Inhabited (Pool α) := ⟨empty⟩

/-- The list at a span. A span that does not lie wholly inside the pool reads as
the empty list. -/
def slice (pool : Pool α) (span : Span α) : List α :=
  if span.start + span.length ≤ pool.entries.size then
    (pool.entries.extract span.start (span.start + span.length)).toList
  else
    []

/-- Lay a list at the end of the pool. The empty list takes no room and always
gets the empty span. -/
def add (pool : Pool α) (entries : List α) : Span α × Pool α :=
  if entries.isEmpty then
    (.empty, pool)
  else
    (⟨pool.entries.size, entries.length⟩, ⟨pool.entries ++ entries⟩)

theorem slice_eq_extract {pool : Pool α} {span : Span α}
    (inside : span.start + span.length ≤ pool.entries.size) :
    pool.slice span =
      pool.entries.toList.extract span.start (span.start + span.length) := by
  simp [slice, inside]

/-- The entries after adding a list: those before, then the list. -/
@[simp] theorem toList_entries_add (pool : Pool α) (entries : List α) :
    (pool.add entries).2.entries.toList = pool.entries.toList ++ entries := by
  cases entries <;> simp [add]

@[simp] theorem size_entries_add (pool : Pool α) (entries : List α) :
    (pool.add entries).2.entries.size = pool.entries.size + entries.length := by
  rw [← Array.length_toList, toList_entries_add, List.length_append, Array.length_toList]

/-- A list just added is read back through its span. -/
@[simp] theorem slice_add (pool : Pool α) (entries : List α) :
    (pool.add entries).2.slice (pool.add entries).1 = entries := by
  cases entries with
  | nil => simp [add, slice, Span.empty]
  | cons first rest =>
    have span : (pool.add (first :: rest)).1 = ⟨pool.entries.size, rest.length + 1⟩ := by
      simp [add]
    rw [slice_eq_extract (by simp [span]), toList_entries_add, span]
    simp [List.extract_eq_take_drop]

end Pool

end BlockMachine
