import BlockMachine.Proofs.Translation.Layout

namespace BlockMachine

/-! # What an environment binds

Which names an environment binds, whatever their values; and when these are the
names of just the identifiers that are visible somewhere. -/

namespace Environment

variable {environment overlay : Environment} {entries : List (Name × Bindable)} {query : Name}

theorem contains_iff_mem :
    environment.contains query ↔ query ∈ environment.entries.map Prod.fst := by
  rw [contains, lookup, Option.isSome_iff_exists]
  constructor
  · intro found
    rcases found with ⟨value, found⟩
    rcases List.lookup_eq_some_iff.mp found with ⟨front, back, entries, _⟩
    simp [entries]
  · intro member
    rcases List.mem_map.mp member with ⟨entry, isEntry, rfl⟩
    cases found : environment.entries.lookup entry.1 with
    | some value => exact ⟨value, rfl⟩
    | none => simpa using List.lookup_eq_none_iff.mp found entry isEntry

theorem contains_bind (name : Name) (value : Bindable) :
    (environment.bind name value).contains query ↔
      query = name ∨ environment.contains query := by
  simp only [contains, lookup_bind]
  split <;> simp_all

theorem contains_bindAll :
    (environment.bindAll entries).contains query ↔
      query ∈ entries.map Prod.fst ∨ environment.contains query := by
  induction entries generalizing environment with
  | nil => simp [bindAll]
  | cons head rest induction =>
      have step : environment.bindAll (head :: rest) =
          (environment.bind head.1 head.2).bindAll rest := rfl
      rw [step, induction, contains_bind, List.map_cons, List.mem_cons]
      exact or_left_comm.trans or_assoc.symm

theorem contains_extend :
    (environment.extend overlay).contains query ↔
      overlay.contains query ∨ environment.contains query := by
  rw [extend, contains_bindAll, ← contains_iff_mem]

theorem not_contains_empty : ¬empty.contains query := by
  simp [contains]

end Environment

namespace Draft

/-- Whether the names that an environment binds are those of the identifiers of a
list, and no others. -/
structure BindsJust (draft : Draft) (scope : List String) (environment : Environment) : Prop where
  bound : ∀ text ∈ scope, ∃ name, draft.Names text name ∧ environment.contains name
  named : ∀ name, environment.contains name → ∃ text ∈ scope, draft.Names text name

namespace BindsJust

variable {draft : Draft} {scope known : List String} {environment overlay : Environment}

theorem empty : draft.BindsJust [] .empty where
  bound := by simp
  named := fun _ contained => absurd contained Environment.not_contains_empty

/-- Only which identifiers there are matters. -/
theorem congr (binds : draft.BindsJust scope environment)
    (same : ∀ text, text ∈ scope ↔ text ∈ known) : draft.BindsJust known environment where
  bound := fun text member => binds.bound text ((same text).mpr member)
  named := by
    intro name contained
    rcases binds.named name contained with ⟨text, member, named⟩
    exact ⟨text, (same text).mp member, named⟩

theorem union {extended : Environment} (binds : draft.BindsJust scope environment)
    (overlaid : draft.BindsJust known overlay) (contains : ∀ name, extended.contains name ↔
      overlay.contains name ∨ environment.contains name) :
    draft.BindsJust (known ++ scope) extended where
  bound := by
    intro text member
    rcases List.mem_append.mp member with new | old
    · rcases overlaid.bound text new with ⟨name, named, contained⟩
      exact ⟨name, named, (contains name).mpr (.inl contained)⟩
    · rcases binds.bound text old with ⟨name, named, contained⟩
      exact ⟨name, named, (contains name).mpr (.inr contained)⟩
  named := by
    intro name contained
    rcases (contains name).mp contained with new | old
    · rcases overlaid.named name new with ⟨text, member, named⟩
      exact ⟨text, List.mem_append_left _ member, named⟩
    · rcases binds.named name old with ⟨text, member, named⟩
      exact ⟨text, List.mem_append_right _ member, named⟩

theorem extend (binds : draft.BindsJust scope environment)
    (overlaid : draft.BindsJust known overlay) :
    draft.BindsJust (known ++ scope) (environment.extend overlay) :=
  binds.union overlaid fun _ => Environment.contains_extend

theorem ofList {texts : List String} {entries : List (Name × Bindable)}
    (names : List.Forall₂ draft.Names texts (entries.map Prod.fst)) :
    draft.BindsJust texts (.ofList entries) := by
  have contains (name : Name) :
      (Environment.ofList entries).contains name ↔ name ∈ entries.map Prod.fst := by
    rw [Environment.ofList, Environment.contains_bindAll]
    exact or_iff_left Environment.not_contains_empty
  rcases List.forall₂_iff_get.mp names with ⟨sameLength, named⟩
  constructor
  · intro text member
    rcases List.mem_iff_getElem.mp member with ⟨index, inside, rfl⟩
    have insideNames := sameLength ▸ inside
    exact ⟨_, named index inside insideNames, (contains _).mpr (List.getElem_mem insideNames)⟩
  · intro name contained
    rcases List.mem_iff_getElem.mp ((contains name).mp contained) with ⟨index, inside, rfl⟩
    have insideTexts := sameLength ▸ inside
    exact ⟨_, List.getElem_mem insideTexts, named index insideTexts inside⟩

theorem bindAll (binds : draft.BindsJust scope environment) {texts : List String}
    {entries : List (Name × Bindable)}
    (names : List.Forall₂ draft.Names texts (entries.map Prod.fst)) :
    draft.BindsJust (texts ++ scope) (environment.bindAll entries) := by
  refine binds.union (ofList names) fun name => ?_
  rw [Environment.ofList, Environment.contains_bindAll, Environment.contains_bindAll,
    or_iff_left Environment.not_contains_empty]

theorem bind (binds : draft.BindsJust scope environment) {text : String} {name : Name}
    (named : draft.Names text name) (value : Bindable) :
    draft.BindsJust (text :: scope) (environment.bind name value) := by
  have bound : draft.BindsJust ([text] ++ scope) (environment.bindAll [(name, value)]) :=
    binds.bindAll (.cons named .nil)
  exact bound

end BindsJust

end Draft

end BlockMachine
