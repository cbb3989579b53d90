import BlockMachine.Environment

namespace BlockMachine

/-! # Laws of environments

An environment is given by what it binds each name to. Laying bindings over one is
binding their names one after another. -/

namespace Environment

/-- A name that is smaller than all names of a list has no binding there. -/
theorem lookup_eq_none_of_below {entries : List (Name × Bindable)} {query : Name}
    (below : ∀ entry ∈ entries, query.index < entry.1.index) : entries.lookup query = none := by
  rw [List.lookup_eq_none_iff]
  intro entry member
  have larger := below entry member
  simp only [bne_iff_ne, ne_eq]
  intro equal
  subst equal
  omega

theorem lookup_reverse {entries : List (Name × Bindable)} (sorted : Sorted entries)
    (query : Name) : entries.reverse.lookup query = entries.lookup query := by
  induction entries with
  | nil => rfl
  | cons head rest induction =>
      rcases head with ⟨known, bound⟩
      rcases List.pairwise_cons.mp sorted with ⟨below, restSorted⟩
      rw [List.reverse_cons, List.lookup_append, induction restSorted, lookup_cons, lookup_cons]
      by_cases same : query = known
      · subst same
        simp [lookup_eq_none_of_below below]
      · simp [same]

theorem mem_entries_iff {environment : Environment} {name : Name} {value : Bindable} :
    (name, value) ∈ environment.entries ↔ environment.lookup name = some value := by
  rcases environment with ⟨entries, sorted⟩
  simp only [lookup]
  induction entries with
  | nil => simp
  | cons head rest induction =>
      rcases head with ⟨known, bound⟩
      rcases List.pairwise_cons.mp sorted with ⟨below, restSorted⟩
      rw [lookup_cons, List.mem_cons, induction restSorted]
      by_cases isHead : name = known
      · subst isHead
        simp [lookup_eq_none_of_below below, eq_comm]
      · simp [isHead]

/-- What an overlay binds wins. -/
theorem lookup_extend (environment overlay : Environment) (query : Name) :
    (environment.extend overlay).lookup query =
      (overlay.lookup query).or (environment.lookup query) := by
  rw [extend, lookup_bindAll, lookup_reverse overlay.sorted]
  rfl

theorem lookup_extend_bindAll (environment : Environment) (entries : List (Name × Bindable))
    (query : Name) :
    (environment.extend (empty.bindAll entries)).lookup query =
      (environment.bindAll entries).lookup query := by
  rw [lookup_extend, lookup_bindAll, lookup_bindAll, lookup_empty, Option.or_none]

/-- Sorted lists that give every name the same binding are equal. -/
theorem entries_ext {left right : List (Name × Bindable)} (leftSorted : Sorted left)
    (rightSorted : Sorted right) (same : ∀ query, left.lookup query = right.lookup query) :
    left = right := by
  -- The first entries are equal, as a smaller first name would be bound on one side only.
  induction left generalizing right with
  | nil =>
      cases right with
      | nil => rfl
      | cons second rest => simpa [lookup_cons second.1] using same second.1
  | cons first others induction =>
      rcases first with ⟨name, bound⟩
      cases right with
      | nil => simpa [lookup_cons] using same name
      | cons second rest =>
          rcases second with ⟨other, value⟩
          obtain ⟨leftBelow, othersSorted⟩ := List.pairwise_cons.mp leftSorted
          obtain ⟨rightBelow, restSorted⟩ := List.pairwise_cons.mp rightSorted
          have notSmaller : ¬name.index < other.index := by
            intro smaller
            have absent : ((other, value) :: rest).lookup name = none :=
              lookup_eq_none_of_below (List.forall_mem_cons.mpr
                ⟨smaller, fun entry member => Nat.lt_trans smaller (rightBelow entry member)⟩)
            simpa [absent, lookup_cons name name] using same name
          have notLarger : ¬other.index < name.index := by
            intro smaller
            have absent : ((name, bound) :: others).lookup other = none :=
              lookup_eq_none_of_below (List.forall_mem_cons.mpr
                ⟨smaller, fun entry member => Nat.lt_trans smaller (leftBelow entry member)⟩)
            simpa [absent, lookup_cons other other] using same other
          obtain rfl : name = other := congrArg Name.mk (by omega : name.index = other.index)
          have sameHead : bound = value := by simpa [lookup_cons] using same name
          have sameRest : ∀ query, others.lookup query = rest.lookup query := by
            intro query
            by_cases isHead : query = name
            · subst isHead
              rw [lookup_eq_none_of_below leftBelow, lookup_eq_none_of_below rightBelow]
            · simpa [lookup_cons, isHead] using same query
          rw [sameHead, induction othersSorted restSorted sameRest]

/-- Environments with the same bindings are equal. -/
theorem ext_lookup {left right : Environment}
    (same : ∀ query, left.lookup query = right.lookup query) : left = right := by
  rcases left with ⟨entries, sorted⟩
  rcases right with ⟨others, othersSorted⟩
  have equal : entries = others := entries_ext sorted othersSorted same
  subst equal
  rfl

/-- Laying bindings over an environment at once is binding them one by one. -/
theorem extend_ofList (environment : Environment) (entries : List (Name × Bindable)) :
    environment.extend (.ofList entries) = environment.bindAll entries :=
  ext_lookup (environment.lookup_extend_bindAll entries)

theorem bindAll_append (environment : Environment) (front back : List (Name × Bindable)) :
    environment.bindAll (front ++ back) = (environment.bindAll front).bindAll back :=
  List.foldl_append

end Environment

end BlockMachine
