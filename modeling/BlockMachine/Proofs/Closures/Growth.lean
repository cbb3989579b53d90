import BlockMachine.ClosureTable

namespace BlockMachine

/-! # Growth of closure tables

Making a closure or a group adds an entry at the end of its table and leaves the
others alone. A mark taken before lies below one taken afterwards. -/

/-- Whether a mark lies below another one in both tables. -/
structure Mark.Below (lower upper : Mark) : Prop where
  closures : lower.closures ≤ upper.closures
  groups : lower.groups ≤ upper.groups

namespace Mark.Below

theorem refl (mark : Mark) : mark.Below mark :=
  ⟨Nat.le_refl _, Nat.le_refl _⟩

theorem trans {first second third : Mark} (left : first.Below second)
    (right : second.Below third) : first.Below third :=
  ⟨Nat.le_trans left.closures right.closures, Nat.le_trans left.groups right.groups⟩

end Mark.Below

namespace ClosureTable

theorem exists_closure?_of_lt {table : ClosureTable} {id : ClosureId}
    (known : id.index < table.size) : ∃ closure, table.closure? id = some closure :=
  ⟨table.closures[id.index], Array.getElem?_eq_getElem known⟩

theorem exists_members?_of_lt {table : ClosureTable} {id : GroupId}
    (known : id.index < table.groupCount) : ∃ members, table.members? id = some members :=
  ⟨table.groups[id.index], Array.getElem?_eq_getElem known⟩

@[simp] theorem closure?_insert_new (table : ClosureTable) (closure : Closure) :
    (table.insert closure).2.closure? ⟨table.size⟩ = some closure := by
  rw [closure?_insert]
  exact if_pos rfl

@[simp] theorem members?_addGroup_new (table : ClosureTable) (members : List Member) :
    (table.addGroup members).2.members? ⟨table.groupCount⟩ = some members := by
  rw [members?_addGroup]
  exact if_pos rfl

/-- Entries are only added, and those there were stay. -/
structure Grows (before after : ClosureTable) : Prop where
  mark : before.mark.Below after.mark
  closures : ∀ id : ClosureId, id.index < before.mark.closures →
    after.closure? id = before.closure? id
  groups : ∀ id : GroupId, id.index < before.mark.groups →
    after.members? id = before.members? id

theorem Grows.refl (table : ClosureTable) : table.Grows table :=
  ⟨.refl _, fun _ _ => rfl, fun _ _ => rfl⟩

theorem Grows.trans {first second third : ClosureTable} (left : first.Grows second)
    (right : second.Grows third) : first.Grows third where
  mark := left.mark.trans right.mark
  closures := by
    intro id known
    rw [right.closures id (Nat.lt_of_lt_of_le known left.mark.closures), left.closures id known]
  groups := by
    intro id known
    rw [right.groups id (Nat.lt_of_lt_of_le known left.mark.groups), left.groups id known]

theorem Grows.closure?_of {before after : ClosureTable} (grows : before.Grows after)
    {id : ClosureId} {closure : Closure} (found : before.closure? id = some closure) :
    after.closure? id = some closure :=
  (grows.closures id (index_lt_of_closure? found)).trans found

theorem Grows.members?_of {before after : ClosureTable} (grows : before.Grows after)
    {id : GroupId} {members : List Member} (found : before.members? id = some members) :
    after.members? id = some members :=
  (grows.groups id (index_lt_of_members? found)).trans found

theorem grows_insert (table : ClosureTable) (closure : Closure) :
    table.Grows (table.insert closure).2 where
  mark := ⟨by simp [mark, insert], Nat.le_refl _⟩
  closures := by
    intro id known
    rw [closure?_insert, if_neg]
    intro equal
    exact Nat.lt_irrefl _ (equal ▸ known)
  groups := fun _ _ => rfl

theorem grows_addGroup (table : ClosureTable) (members : List Member) :
    table.Grows (table.addGroup members).2 where
  mark := ⟨Nat.le_refl _, by simp [mark, addGroup]⟩
  closures := fun _ _ => rfl
  groups := by
    intro id known
    rw [members?_addGroup, if_neg]
    intro equal
    exact Nat.lt_irrefl _ (equal ▸ known)

theorem closure?_eq_none_iff {table : ClosureTable} {id : ClosureId} :
    table.closure? id = none ↔ table.mark.closures ≤ id.index :=
  Array.getElem?_eq_none_iff

theorem members?_eq_none_iff {table : ClosureTable} {id : GroupId} :
    table.members? id = none ↔ table.mark.groups ≤ id.index :=
  Array.getElem?_eq_none_iff

/-- Tables that read the same are equal. -/
theorem ext_read {table other : ClosureTable}
    (closures : ∀ id, table.closure? id = other.closure? id)
    (groups : ∀ id, table.members? id = other.members? id) : table = other := by
  rcases table with ⟨tableClosures, tableGroups⟩
  rcases other with ⟨otherClosures, otherGroups⟩
  have sameClosures : tableClosures = otherClosures :=
    Array.ext_getElem? fun index => closures ⟨index⟩
  have sameGroups : tableGroups = otherGroups := Array.ext_getElem? fun index => groups ⟨index⟩
  rw [sameClosures, sameGroups]

theorem mark_truncate_min (table : ClosureTable) (mark : Mark) :
    (table.truncate mark).mark =
      ⟨min mark.closures table.mark.closures, min mark.groups table.mark.groups⟩ := by
  simp [ClosureTable.mark, truncate]

/-- What is cut back to a mark below its own has just that mark. -/
theorem mark_truncate {table : ClosureTable} {mark : Mark} (below : mark.Below table.mark) :
    (table.truncate mark).mark = mark := by
  rw [mark_truncate_min, Nat.min_eq_left below.closures, Nat.min_eq_left below.groups]

/-- Cutting back to a mark undoes all growth since it was taken. -/
theorem Grows.truncate_mark {before after : ClosureTable} (grows : before.Grows after) :
    after.truncate before.mark = before := by
  refine ext_read (fun id => ?_) (fun id => ?_)
  · rw [closure?_truncate]
    split
    next known => exact grows.closures id known
    next unknown => exact (closure?_eq_none_iff.mpr (Nat.le_of_not_lt unknown)).symm
  · rw [members?_truncate]
    split
    next known => exact grows.groups id known
    next unknown => exact (members?_eq_none_iff.mpr (Nat.le_of_not_lt unknown)).symm

/-- Cutting back tables to a mark leaves what lies below it. -/
theorem Grows.truncate {base table : ClosureTable} {mark : Mark}
    (grows : base.Grows table) (below : base.mark.Below mark) :
    base.Grows (table.truncate mark) where
  mark := by
    rw [mark_truncate_min]
    exact ⟨Nat.le_min.mpr ⟨below.closures, grows.mark.closures⟩,
      Nat.le_min.mpr ⟨below.groups, grows.mark.groups⟩⟩
  closures := by
    intro id known
    rw [closure?_truncate, if_pos (Nat.lt_of_lt_of_le known below.closures)]
    exact grows.closures id known
  groups := by
    intro id known
    rw [members?_truncate, if_pos (Nat.lt_of_lt_of_le known below.groups)]
    exact grows.groups id known

/-- Whether entries that both of two tables have are the same. -/
structure Keeps (before after : ClosureTable) : Prop where
  closures : ∀ id closure, before.closure? id = some closure → id.index < after.mark.closures →
    after.closure? id = some closure
  groups : ∀ id members, before.members? id = some members → id.index < after.mark.groups →
    after.members? id = some members

theorem Grows.keeps {before after : ClosureTable} (grows : before.Grows after) :
    before.Keeps after :=
  ⟨fun _ _ found _ => grows.closure?_of found, fun _ _ found _ => grows.members?_of found⟩

theorem keeps_truncate (table : ClosureTable) (mark : Mark) :
    table.Keeps (table.truncate mark) where
  closures := by
    intro id closure found below
    rcases exists_closure?_of_lt below with ⟨kept, read⟩
    rw [closure?_truncate] at read ⊢
    split at read
    next inside => rw [if_pos inside, found]
    next => cases read
  groups := by
    intro id members found below
    rcases exists_members?_of_lt below with ⟨kept, read⟩
    rw [members?_truncate] at read ⊢
    split at read
    next inside => rw [if_pos inside, found]
    next => cases read

end ClosureTable

end BlockMachine
