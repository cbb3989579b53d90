import BlockMachine.Value

namespace BlockMachine

/-! # Environments

Finite maps from names to bindables, held as a list of entries in strictly
increasing order of names. Two environments with the same bindings are therefore
the same list, however they were built. -/

namespace Environment

/-! ## Entry lists -/

/-- Each name is smaller than those after it. -/
def Sorted (entries : List (Name × Bindable)) : Prop :=
  entries.Pairwise fun earlier later => earlier.1.index < later.1.index

/-- Put an entry at its place, in front of the larger names and instead of an
entry of the same name. -/
def insertEntry (name : Name) (value : Bindable) :
    List (Name × Bindable) → List (Name × Bindable)
  | [] => [(name, value)]
  | (known, bound) :: rest =>
    if name.index < known.index then
      (name, value) :: (known, bound) :: rest
    else if name = known then
      (name, value) :: rest
    else
      (known, bound) :: insertEntry name value rest

theorem eq_or_mem_of_mem_insertEntry {name : Name} {value : Bindable}
    {entry : Name × Bindable} {entries : List (Name × Bindable)}
    (member : entry ∈ insertEntry name value entries) :
    entry = (name, value) ∨ entry ∈ entries := by
  induction entries with
  | nil => simpa [insertEntry] using member
  | cons head rest induction =>
    simp only [insertEntry] at member
    split at member
    · simpa using member
    · split at member
      · rcases List.mem_cons.mp member with equal | later
        · exact .inl equal
        · exact .inr (List.mem_cons_of_mem head later)
      · rcases List.mem_cons.mp member with equal | later
        · exact .inr (equal ▸ List.mem_cons_self)
        · exact (induction later).imp_right (List.mem_cons_of_mem head)

theorem sorted_insertEntry (name : Name) (value : Bindable)
    {entries : List (Name × Bindable)} (sorted : Sorted entries) :
    Sorted (insertEntry name value entries) := by
  induction entries with
  | nil => simp [insertEntry, Sorted]
  | cons head rest induction =>
    obtain ⟨headBelow, restSorted⟩ := List.pairwise_cons.mp sorted
    simp only [insertEntry]
    split
    next below =>
      refine List.pairwise_cons.mpr ⟨fun entry member => ?_, sorted⟩
      rcases List.mem_cons.mp member with equal | later
      · exact equal ▸ below
      · exact Nat.lt_trans below (headBelow entry later)
    next notBelow =>
      split
      next same => exact List.pairwise_cons.mpr ⟨same ▸ headBelow, restSorted⟩
      next different =>
        refine List.pairwise_cons.mpr ⟨fun entry member => ?_, induction restSorted⟩
        rcases eq_or_mem_of_mem_insertEntry member with equal | later
        · subst equal
          have : name.index ≠ head.1.index := fun equal => different (by
            cases name; cases head with | mk known _ => cases known; simp_all)
          simp only
          omega
        · exact headBelow entry later

theorem lookup_cons (query known : Name) (bound : Bindable) (rest : List (Name × Bindable)) :
    ((known, bound) :: rest).lookup query =
      if query = known then some bound else rest.lookup query := by
  by_cases same : query = known
  · simp [same]
  · have differs : (query == known) = false := by simpa using same
    simp [List.lookup_cons, differs, same]

theorem lookup_insertEntry (name query : Name) (value : Bindable)
    (entries : List (Name × Bindable)) :
    (insertEntry name value entries).lookup query =
      if query = name then some value else entries.lookup query := by
  induction entries with
  | nil => exact lookup_cons query name value []
  | cons head rest induction =>
    obtain ⟨known, bound⟩ := head
    simp only [insertEntry]
    split
    · exact lookup_cons query name value _
    · split
      next same =>
        subst same
        by_cases same : query = name <;> simp only [lookup_cons, same, if_true, if_false]
      next different =>
        by_cases isKnown : query = known
        · subst isKnown
          simp only [lookup_cons, if_true, if_neg (Ne.symm different)]
        · simp only [lookup_cons, if_neg isKnown, induction]

end Environment

/-- What each visible name is bound to. -/
structure Environment where
  entries : List (Name × Bindable)
  sorted : Environment.Sorted entries

namespace Environment

instance : BEq Environment := ⟨fun left right => left.entries == right.entries⟩

def empty : Environment := ⟨[], List.Pairwise.nil⟩

instance : Inhabited Environment := ⟨empty⟩

/-! ## Reading -/

def lookup (environment : Environment) (name : Name) : Option Bindable :=
  environment.entries.lookup name

def contains (environment : Environment) (name : Name) : Bool :=
  (environment.lookup name).isSome

def size (environment : Environment) : Nat :=
  environment.entries.length

def isEmpty (environment : Environment) : Bool :=
  environment.entries.isEmpty

/-! ## Binding -/

/-- Bind a name, in place of what it was bound to. -/
def bind (environment : Environment) (name : Name) (value : Bindable) : Environment :=
  ⟨insertEntry name value environment.entries, sorted_insertEntry name value environment.sorted⟩

/-- Bind names one after another, so that of two bindings of a name the later one
stays. -/
def bindAll (environment : Environment) (entries : List (Name × Bindable)) : Environment :=
  entries.foldl (fun extended (name, value) => extended.bind name value) environment

/-- The environment that binds just these entries. -/
def ofList (entries : List (Name × Bindable)) : Environment :=
  empty.bindAll entries

/-- Lay `overlay` over an environment: its bindings win. -/
def extend (environment overlay : Environment) : Environment :=
  environment.bindAll overlay.entries

@[simp] theorem lookup_empty (query : Name) : empty.lookup query = none := rfl

@[simp] theorem lookup_bind (environment : Environment) (name query : Name)
    (value : Bindable) :
    (environment.bind name value).lookup query =
      if query = name then some value else environment.lookup query :=
  lookup_insertEntry name query value environment.entries

/-- In a run of bindings the last one of a name counts. -/
theorem lookup_bindAll (environment : Environment) (entries : List (Name × Bindable))
    (query : Name) :
    (environment.bindAll entries).lookup query =
      (entries.reverse.lookup query).or (environment.lookup query) := by
  induction entries generalizing environment with
  | nil => simp [bindAll]
  | cons head rest induction =>
    have step : environment.bindAll (head :: rest) =
        (environment.bind head.1 head.2).bindAll rest := rfl
    rw [step, induction, List.reverse_cons, List.lookup_append, lookup_bind,
      lookup_cons query head.1 head.2 []]
    by_cases same : query = head.1 <;>
      cases rest.reverse.lookup query <;> simp [same]

end Environment

end BlockMachine
