import BlockMachine.Proofs.Closures.Growth

namespace BlockMachine

/-! # Marks of closure tables

A closure table may grow, be marked and be cut back again in any order. If it is only cut back
to marks that were taken after an earlier one, the earlier mark stays below it, and to cut back
to that one gives the table as it was then. -/

namespace ClosureTable

/-- A table that has come from another one by making closures and groups and by cutting back
to marks that were taken meanwhile, which are listed. -/
inductive Evolves (first : ClosureTable) : List Mark → ClosureTable → Prop where
  | unchanged : Evolves first [] first
  | insert {taken : List Mark} {table : ClosureTable} (evolves : Evolves first taken table)
      (closure : Closure) : Evolves first taken (table.insert closure).2
  | addGroup {taken : List Mark} {table : ClosureTable} (evolves : Evolves first taken table)
      (members : List Member) : Evolves first taken (table.addGroup members).2
  | mark {taken : List Mark} {table : ClosureTable} (evolves : Evolves first taken table) :
      Evolves first (table.mark :: taken) table
  | truncate {taken : List Mark} {table : ClosureTable} {mark : Mark}
      (evolves : Evolves first taken table) (isTaken : mark ∈ taken) :
      Evolves first taken (table.truncate mark)

variable {first table : ClosureTable} {taken : List Mark}

/-- What a table held at first is there all along, and no mark falls below it. -/
theorem Evolves.grows (evolves : first.Evolves taken table) :
    first.Grows table ∧ ∀ mark ∈ taken, first.mark.Below mark := by
  induction evolves with
  | unchanged => exact ⟨.refl first, by simp⟩
  | insert _ closure induction =>
      exact ⟨induction.1.trans (grows_insert _ closure), induction.2⟩
  | addGroup _ members induction =>
      exact ⟨induction.1.trans (grows_addGroup _ members), induction.2⟩
  | mark _ induction =>
      exact ⟨induction.1, List.forall_mem_cons.mpr ⟨induction.1.mark, induction.2⟩⟩
  | truncate _ isTaken induction =>
      exact ⟨induction.1.truncate (induction.2 _ isTaken), induction.2⟩

/-! ## Ids -/

/-- Ids that a table has given out since mean nothing to the table that it was at first. -/
theorem Evolves.unknown (evolves : first.Evolves taken table) (closure : Closure)
    (members : List Member) :
    first.closure? (table.insert closure).1 = none ∧
      first.members? (table.addGroup members).1 = none ∧
      first.groupEnvironment? (table.addGroup members).1 = none := by
  have below := evolves.grows.1.mark
  have noGroup : first.members? (table.addGroup members).1 = none :=
    members?_eq_none_iff.mpr below.groups
  refine ⟨closure?_eq_none_iff.mpr below.closures, noGroup, ?_⟩
  rw [groupEnvironment?, noGroup, Option.map_none]

/-! ## Cutting back -/

/-- Cutting back changes nothing just if the table's own mark lies below the one given. -/
theorem truncate_eq_self_iff {mark : Mark} :
    table.truncate mark = table ↔ table.mark.Below mark := by
  constructor
  · intro same
    have marks := table.mark_truncate_min mark
    rw [same] at marks
    exact ⟨Nat.le_trans (Nat.le_of_eq (congrArg Mark.closures marks)) (Nat.min_le_left ..),
      Nat.le_trans (Nat.le_of_eq (congrArg Mark.groups marks)) (Nat.min_le_left ..)⟩
  · intro below
    refine ext_read (fun id => ?_) (fun id => ?_)
    · rw [closure?_truncate]
      split
      next => rfl
      next beyond =>
        have outside := Nat.le_trans below.closures (Nat.le_of_not_lt beyond)
        exact (closure?_eq_none_iff.mpr outside).symm
    · rw [members?_truncate]
      split
      next => rfl
      next beyond =>
        have outside := Nat.le_trans below.groups (Nat.le_of_not_lt beyond)
        exact (members?_eq_none_iff.mpr outside).symm

/-- Cutting back to a larger mark first makes no difference. -/
theorem truncate_truncate_of_below {lower upper : Mark} (below : lower.Below upper) :
    (table.truncate upper).truncate lower = table.truncate lower := by
  refine ext_read (fun id => ?_) (fun id => ?_)
  · simp only [closure?_truncate]
    split
    next known => rw [if_pos (Nat.lt_of_lt_of_le known below.closures)]
    next => rfl
  · simp only [members?_truncate]
    split
    next known => rw [if_pos (Nat.lt_of_lt_of_le known below.groups)]
    next => rfl

/-- A mark that the table was cut back below does nothing any more. -/
theorem truncate_truncate_of_above {lower upper : Mark} (below : lower.Below upper) :
    (table.truncate lower).truncate upper = table.truncate lower := by
  rw [truncate_eq_self_iff, mark_truncate_min]
  exact ⟨Nat.le_trans (Nat.min_le_left ..) below.closures,
    Nat.le_trans (Nat.min_le_left ..) below.groups⟩

/-- Marks undo growth. Whatever closures and groups are made after a mark was taken, and to
whichever later marks the table is cut back meanwhile, cutting back to the mark gives the
table as it was, to which the ids that were given out since mean nothing. A mark leaves a table
as it is just if neither of its sizes is below the table's; and of two marks, one below the
other, only the lower one has an effect, in either order. -/
theorem marks_undo_growth (first : ClosureTable) :
    (∀ taken table, first.Evolves taken table →
      table.truncate first.mark = first ∧
      ∀ closure members,
        first.closure? (table.insert closure).1 = none ∧
        first.members? (table.addGroup members).1 = none ∧
        first.groupEnvironment? (table.addGroup members).1 = none) ∧
    (∀ mark, first.truncate mark = first ↔ first.mark.Below mark) ∧
    ∀ lower upper, lower.Below upper →
      (first.truncate upper).truncate lower = first.truncate lower ∧
      (first.truncate lower).truncate upper = first.truncate lower := by
  refine ⟨?undone, fun mark => truncate_eq_self_iff, ?ordered⟩
  case undone =>
    intro taken table evolves
    exact ⟨evolves.grows.1.truncate_mark, evolves.unknown⟩
  case ordered =>
    intro lower upper below
    exact ⟨truncate_truncate_of_below below, truncate_truncate_of_above below⟩

/-- The table is cut back below the mark that was taken last, and an id is given out again,
before that mark is used. -/
theorem marks_undo_growth_overtaken :
    let function : Nat → Closure := fun body => ⟨.empty, ⟨body⟩, .empty⟩
    let first := (empty.insert (function 1)).2
    let second := (first.insert (function 2)).2
    let third := (second.addGroup [(⟨10⟩, ⟨1⟩)]).2
    let last := ((third.truncate first.mark).insert (function 3)).2.truncate third.mark
    first.Evolves [third.mark, first.mark] last ∧
      second.closure? ⟨1⟩ = some (function 2) ∧ last.closure? ⟨1⟩ = some (function 3) ∧
      last.truncate first.mark = first := by
  intro function first second third last
  have marked : first.Evolves [third.mark, first.mark] third :=
    .mark (.addGroup (.insert (.mark .unchanged) _) _)
  have evolves : first.Evolves [third.mark, first.mark] last :=
    .truncate (.insert (.truncate marked (List.mem_cons_of_mem _ List.mem_cons_self)) _)
      List.mem_cons_self
  exact ⟨evolves, rfl, rfl, ((marks_undo_growth first).1 _ _ evolves).1⟩

end ClosureTable

end BlockMachine
