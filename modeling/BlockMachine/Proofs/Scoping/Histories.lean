import BlockMachine.Proofs.Scoping.Bindings
import BlockMachine.Proofs.Scoping.Environments
import Mathlib.Data.List.Dedup
import Mathlib.Data.List.Nodup

namespace BlockMachine

/-! # Histories of environments

Several environments may be in use at a time: they are made from lists, copied, bound in and
laid over one another. What each of them binds is told by what has been written to it, one
binding after another. -/

namespace Environment

/-- What can be done with some environments, which are numbered in the order in which they
were made. -/
inductive Request where
  | build (entries : List (Name × Bindable))
  | clone (original : Nat)
  | bind (target : Nat) (name : Name) (value : Bindable)
  | extend (target overlay : Nat)

/-- The environment that a request changes. To make a new one changes none. -/
def Request.target? : Request → Option Nat
  | build _ | clone _ => none
  | bind target _ _ | extend target _ => some target

/-- A way of keeping bindings. -/
structure Keeping (α : Type) where
  build : List (Name × Bindable) → α
  bind : α → Name → Bindable → α
  extend : α → α → α

namespace Keeping

/-- Only the bindings that are in force are kept. -/
def inForce : Keeping Environment := ⟨ofList, Environment.bind, Environment.extend⟩

/-- All bindings are kept that were ever written, in the order of writing. An overlay brings
all that was written to it. -/
def written : Keeping (List (Name × Bindable)) where
  build entries := entries
  bind log name value := log ++ [(name, value)]
  extend log overlay := log ++ overlay

/-- What is kept after a request. One that mentions what does not exist does nothing. -/
def perform (keeping : Keeping α) (kept : List α) : Request → List α
  | .build entries => kept ++ [keeping.build entries]
  | .clone original => kept ++ kept[original]?.toList
  | .bind target name value => kept.modify target (keeping.bind · name value)
  | .extend target overlay =>
      kept.modify target fun known => kept[overlay]?.elim known (keeping.extend known)

def performAll (keeping : Keeping α) (kept : List α) (requests : List Request) : List α :=
  requests.foldl keeping.perform kept

/-- Whether one way of keeping bindings keeps images of what another one keeps. -/
structure IsImage (keeping : Keeping α) (image : α → β) (other : Keeping β) : Prop where
  build : ∀ entries, image (keeping.build entries) = other.build entries
  bind : ∀ known name value,
    image (keeping.bind known name value) = other.bind (image known) name value
  extend : ∀ known overlay,
    image (keeping.extend known overlay) = other.extend (image known) (image overlay)

end Keeping

/-- Whether `value` is the last that was written for a name. -/
def LastWritten (log : List (Name × Bindable)) (name : Name) (value : Bindable) : Prop :=
  ∃ before after, log = before ++ (name, value) :: after ∧ ∀ entry ∈ after, entry.1 ≠ name

/-- A list of bindings, sorted by their names. -/
def sortByName (listing : List (Name × Bindable)) : List (Name × Bindable) :=
  listing.mergeSort fun left right => left.1.index ≤ right.1.index

variable {environment : Environment} {log : List (Name × Bindable)}
  {name : Name} {value : Bindable}

/-! ## Logs -/

theorem lookup_ofList_eq_some_iff :
    (ofList log).lookup name = some value ↔ LastWritten log name value := by
  rw [ofList, lookup_bindAll, lookup_empty, Option.or_none, List.lookup_eq_some_iff]
  constructor
  · rintro ⟨after, before, reversed, others⟩
    refine ⟨before.reverse, after.reverse, ?_, ?_⟩
    · rw [← log.reverse_reverse, reversed]
      simp
    · intro entry member same
      simpa [same] using others entry (List.mem_reverse.mp member)
  · rintro ⟨before, after, rfl, others⟩
    refine ⟨after.reverse, before.reverse, by simp, ?_⟩
    intro entry member
    simpa using Ne.symm (others entry (List.mem_reverse.mp member))

theorem nodup_names (environment : Environment) :
    (environment.entries.map Prod.fst).Nodup := by
  rw [List.Nodup, List.pairwise_map]
  refine environment.sorted.imp fun below same => ?_
  rw [same] at below
  exact Nat.lt_irrefl _ below

/-- An environment has as many entries as there are names that were written. -/
theorem size_ofList (log : List (Name × Bindable)) :
    (ofList log).size = (log.map Prod.fst).dedup.length := by
  have names : ((ofList log).entries.map Prod.fst).Perm (log.map Prod.fst).dedup := by
    refine (List.perm_ext_iff_of_nodup (nodup_names _) (List.nodup_dedup _)).mpr fun name => ?_
    rw [← contains_iff_mem, ofList, contains_bindAll, List.mem_dedup]
    exact or_iff_left not_contains_empty
  rw [size, ← names.length_eq, List.length_map]

/-! ## Requests -/

namespace Keeping

variable {α β : Type} {keeping : Keeping α} {other : Keeping β} {image : α → β}

theorem map_modify {change : α → α} {changed : β → β}
    (commutes : ∀ known, image (change known) = changed (image known))
    (kept : List α) (place : Nat) :
    (kept.modify place change).map image = (kept.map image).modify place changed := by
  apply List.ext_getElem?
  intro index
  simp only [List.getElem?_map, List.getElem?_modify]
  split <;> cases kept[index]? <;> simp [commutes]

/-- If one way of keeping bindings keeps images of what another one keeps, it does so after
each request. -/
theorem IsImage.map_perform (isImage : keeping.IsImage image other) (kept : List α)
    (request : Request) :
    (keeping.perform kept request).map image = other.perform (kept.map image) request := by
  cases request with
  | build entries => simp [perform, isImage.build]
  | clone original => cases held : kept[original]? <;> simp [perform, held]
  | bind target name value => exact map_modify (isImage.bind · name value) kept target
  | extend target overlay =>
      refine map_modify (fun known => ?_) kept target
      rw [List.getElem?_map]
      cases kept[overlay]? with
      | none => rfl
      | some laid => exact isImage.extend known laid

theorem IsImage.map_performAll (isImage : keeping.IsImage image other) (kept : List α)
    (requests : List Request) :
    (keeping.performAll kept requests).map image = other.performAll (kept.map image) requests := by
  induction requests generalizing kept with
  | nil => rfl
  | cons request rest induction =>
      simp only [performAll, List.foldl_cons] at induction ⊢
      rw [induction, isImage.map_perform]

/-- The bindings in force are those that all bindings written make up. -/
theorem isImage_ofList : written.IsImage ofList inForce where
  build _ := rfl
  bind _ _ _ := bindAll_append ..
  extend log overlay :=
    calc ofList (log ++ overlay) = (ofList log).bindAll overlay := bindAll_append ..
      _ = (ofList log).extend (ofList overlay) := (extend_ofList ..).symm

/-- A request leaves alone what it does not change. -/
theorem getElem?_perform {kept : List α} {request : Request} {place : Nat} {known : α}
    (held : kept[place]? = some known) (spared : request.target? ≠ some place) :
    (keeping.perform kept request)[place]? = some known := by
  have inside := (List.getElem?_eq_some_iff.mp held).1
  cases request with
  | build entries => rw [perform, List.getElem?_append_left inside, held]
  | clone original => rw [perform, List.getElem?_append_left inside, held]
  | bind target name value =>
      rw [perform, List.getElem?_modify_ne _ _ fun same => spared (congrArg some same), held]
  | extend target overlay =>
      rw [perform, List.getElem?_modify_ne _ _ fun same => spared (congrArg some same), held]

theorem getElem?_performAll {kept : List α} {requests : List Request} {place : Nat} {known : α}
    (held : kept[place]? = some known)
    (spared : ∀ request ∈ requests, request.target? ≠ some place) :
    (keeping.performAll kept requests)[place]? = some known := by
  induction requests generalizing kept with
  | nil => exact held
  | cons request rest induction =>
      rcases List.forall_mem_cons.mp spared with ⟨sparedFirst, sparedRest⟩
      exact induction (getElem?_perform held sparedFirst) sparedRest

end Keeping

/-! ## Sorting -/

theorem pairwise_sortByName (listing : List (Name × Bindable)) :
    (sortByName listing).Pairwise fun left right => left.1.index ≤ right.1.index := by
  have ordered : (sortByName listing).Pairwise fun left right =>
      decide (left.1.index ≤ right.1.index) := by
    refine List.pairwise_mergeSort ?_ ?_ listing
    · intro first second third below above
      simp only [decide_eq_true_eq] at below above ⊢
      exact Nat.le_trans below above
    · intro left right
      simpa using Nat.le_total left.1.index right.1.index
  simpa only [decide_eq_true_eq] using ordered

/-- In whatever order the bindings are listed, sorting gives them in the order of names. -/
theorem sortByName_eq_entries {listing : List (Name × Bindable)} (distinct : listing.Nodup)
    (lists : ∀ name value, (name, value) ∈ listing ↔ environment.lookup name = some value) :
    sortByName listing = environment.entries := by
  have distinctEntries : environment.entries.Nodup := .of_map _ environment.nodup_names
  have sameBindings : (sortByName listing).Perm environment.entries := by
    refine (listing.mergeSort_perm _).trans ?_
    refine (List.perm_ext_iff_of_nodup distinct distinctEntries).mpr fun entry => ?_
    exact (lists entry.1 entry.2).trans mem_entries_iff.symm
  have inOrder := environment.sorted.imp fun below => Nat.le_of_lt below
  refine List.Perm.eq_of_pairwise ?_ (pairwise_sortByName listing) inOrder sameBindings
  intro left right isSorted isEntry atMost atLeast
  have sameName : left.1 = right.1 := congrArg Name.mk (Nat.le_antisymm atMost atLeast)
  have bound := mem_entries_iff.mp (sameBindings.mem_iff.mp isSorted)
  have found := mem_entries_iff.mp isEntry
  rw [sameName, found] at bound
  exact Prod.ext sameName (Option.some.inj bound).symm

/-! ## Overlays -/

theorem extend_assoc (first second third : Environment) :
    (first.extend second).extend third = first.extend (second.extend third) :=
  ext_lookup fun query => by simp only [lookup_extend, Option.or_assoc]

theorem extend_self (environment : Environment) : environment.extend environment = environment :=
  ext_lookup fun query => by rw [lookup_extend, Option.or_self]

/-- Environments are finite maps, and nothing else can be told of them. Whatever is made,
copied, bound and overlaid, and in whatever order, an environment binds a name to the last
value that was written for it, in the history of that environment; a copy and its original do
not notice what is done with the other one later. The entries of an environment are in
strictly increasing order of names and are just what can be looked up; to collect what can be
looked up, in any order, and to sort it by name gives them, too. There are as many of them as
the environment is large, one for each name that it contains. Overlays win; overlaying is
associative and idempotent. Environments in which every name is looked up alike have the same
entries, so they do not show how they came about. -/
theorem environments_extensional (history : List Request) :
    let environments := Keeping.inForce.performAll [] history
    let logs := Keeping.written.performAll [] history
    (environments.length = logs.length ∧
      ∀ (place : Nat) (environment : Environment) (log : List (Name × Bindable)),
        environments[place]? = some environment → logs[place]? = some log →
        (∀ name value, environment.lookup name = some value ↔ LastWritten log name value) ∧
        environment.size = (log.map Prod.fst).dedup.length) ∧
    (∀ (original : Nat) (environment : Environment),
      environments[original]? = some environment →
      let copy := environments.length
      let copied := Keeping.inForce.perform environments (.clone original)
      copied[copy]? = some environment ∧
      ∀ later, ∀ place ∈ [original, copy],
        (∀ request ∈ later, request.target? ≠ some place) →
        (Keeping.inForce.performAll copied later)[place]? = some environment) ∧
    (∀ environment : Environment,
      (environment.entries.Pairwise fun left right => left.1.index < right.1.index) ∧
      (∀ name value, (name, value) ∈ environment.entries ↔
        environment.lookup name = some value) ∧
      (∀ listing, listing.Nodup →
        (∀ name value, (name, value) ∈ listing ↔ environment.lookup name = some value) →
        sortByName listing = environment.entries) ∧
      environment.size = environment.entries.length ∧
      ∀ name, environment.contains name ↔ name ∈ environment.entries.map Prod.fst) ∧
    (∀ environment overlay : Environment, ∀ name,
      (environment.extend overlay).lookup name =
        (overlay.lookup name).or (environment.lookup name)) ∧
    (∀ first second third : Environment,
      (first.extend second).extend third = first.extend (second.extend third)) ∧
    (∀ environment overlay : Environment, environment.extend environment = environment ∧
      (environment.extend overlay).extend overlay = environment.extend overlay) ∧
    ∀ left right : Environment,
      (∀ name, left.lookup name = right.lookup name) ↔ left.entries = right.entries := by
  intro environments logs
  have kept : logs.map ofList = environments :=
    Keeping.isImage_ofList.map_performAll [] history
  refine ⟨⟨?sameNumber, ?told⟩, ?copies, ?listed, lookup_extend, extend_assoc, ?idempotent, ?same⟩
  case sameNumber => rw [← kept, List.length_map]
  case told =>
    intro place environment log found logged
    rw [← kept, List.getElem?_map, logged, Option.map_some, Option.some.injEq] at found
    subst found
    exact ⟨fun name value => lookup_ofList_eq_some_iff, size_ofList log⟩
  case copies =>
    intro original environment found copy copied
    have inside := (List.getElem?_eq_some_iff.mp found).1
    have copyFound : copied[copy]? = some environment := by
      simp [copied, copy, Keeping.perform, found]
    have originalFound : copied[original]? = some environment :=
      Keeping.getElem?_perform found (by simp [Request.target?])
    refine ⟨copyFound, fun later place isPlace spared => ?_⟩
    refine Keeping.getElem?_performAll ?_ spared
    rcases List.mem_pair.mp isPlace with rfl | rfl
    · exact originalFound
    · exact copyFound
  case listed =>
    intro environment
    exact ⟨environment.sorted, fun name value => mem_entries_iff,
      fun listing distinct lists => sortByName_eq_entries distinct lists, rfl,
      fun name => contains_iff_mem⟩
  case idempotent =>
    intro environment overlay
    exact ⟨extend_self environment, by rw [extend_assoc, extend_self]⟩
  case same =>
    intro left right
    refine ⟨fun same => congrArg entries (ext_lookup same), fun same name => ?_⟩
    rw [lookup, lookup, same]

/-- A name is bound again after it was overlaid; a copy keeps what it was bound to when the
original is changed and then overlaid by the copy. -/
theorem environments_extensional_rebinding :
    let yes : Bindable := .storable (.boolean true)
    let no : Bindable := .storable (.boolean false)
    let history : List Request :=
      [.build [(⟨2⟩, no), (⟨1⟩, yes), (⟨2⟩, yes)], .build [(⟨1⟩, no)], .extend 0 1, .bind 0 ⟨1⟩ yes]
    let environments := Keeping.inForce.performAll [] history
    let later : List Request := [.bind 0 ⟨1⟩ no, .extend 0 2]
    ∃ environment, environments[0]? = some environment ∧
      environment.lookup ⟨1⟩ = some yes ∧ environment.size = 2 ∧
      (∀ request ∈ later, request.target? ≠ some 2) ∧
      (Keeping.inForce.performAll environments (.clone 0 :: later))[2]? = some environment := by
  intro yes no history environments later
  let log : List (Name × Bindable) :=
    [(⟨2⟩, no), (⟨1⟩, yes), (⟨2⟩, yes), (⟨1⟩, no), (⟨1⟩, yes)]
  rcases environments_extensional history with ⟨⟨_, told⟩, copies, _⟩
  have found : environments[0]? = some (ofList log) := rfl
  have spared : ∀ request ∈ later, request.target? ≠ some 2 := by simp [later, Request.target?]
  rcases told 0 (ofList log) log found rfl with ⟨bound, size⟩
  have last : LastWritten log ⟨1⟩ yes := ⟨log.dropLast, [], rfl, by simp⟩
  refine ⟨ofList log, found, (bound ⟨1⟩ yes).mpr last, size.trans (by decide), spared, ?_⟩
  exact (copies 0 (ofList log) found).2 later 2 (List.mem_cons_of_mem _ List.mem_cons_self) spared

end Environment

end BlockMachine
