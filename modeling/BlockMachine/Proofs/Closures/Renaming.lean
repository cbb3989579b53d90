import BlockMachine.Proofs.Machine.Horizon
import BlockMachine.Proofs.Machine.Parallel

namespace BlockMachine

/-! # Renaming closures

Two machines that number their closures and groups differently are in like
states if one renaming carries all references of the first to those of the
second, and each table entry to the entry it is renamed to. -/

namespace Environment

/-- Change all that is bound. -/
def map (change : Bindable → Bindable) (environment : Environment) : Environment where
  entries := environment.entries.map fun entry => (entry.1, change entry.2)
  sorted := by
    rw [Sorted, List.pairwise_map]
    exact environment.sorted

variable {change : Bindable → Bindable}

theorem insertEntry_map (name : Name) (value : Bindable) (entries : List (Name × Bindable)) :
    insertEntry name (change value) (entries.map fun entry => (entry.1, change entry.2)) =
      (insertEntry name value entries).map fun entry => (entry.1, change entry.2) := by
  induction entries with
  | nil => rfl
  | cons head rest induction =>
      simp only [List.map_cons, insertEntry, induction]
      split
      · rfl
      · split <;> rfl

theorem map_bind (environment : Environment) (name : Name) (value : Bindable) :
    (environment.bind name value).map change = (environment.map change).bind name (change value) := by
  simp only [map, bind, insertEntry_map]

theorem map_bindAll (environment : Environment) (entries : List (Name × Bindable)) :
    (environment.bindAll entries).map change =
      (environment.map change).bindAll (entries.map fun entry => (entry.1, change entry.2)) := by
  induction entries generalizing environment with
  | nil => rfl
  | cons head rest induction =>
      have unfolded : environment.bindAll (head :: rest) =
          (environment.bind head.1 head.2).bindAll rest := rfl
      rw [unfolded, induction, map_bind]
      rfl

theorem map_extend (environment overlay : Environment) :
    (environment.extend overlay).map change =
      (environment.map change).extend (overlay.map change) :=
  environment.map_bindAll overlay.entries

theorem lookup_map (environment : Environment) (name : Name) :
    (environment.map change).lookup name = (environment.lookup name).map change := by
  rcases environment with ⟨entries, sorted⟩
  simp only [map, lookup]
  clear sorted
  induction entries with
  | nil => rfl
  | cons head rest induction =>
      rcases head with ⟨known, bound⟩
      rw [List.map_cons, lookup_cons, lookup_cons, induction]
      split <;> rfl

theorem map_congr {other : Bindable → Bindable} {environment : Environment}
    (same : environment.Holds fun value => change value = other value) :
    environment.map change = environment.map other := by
  have entries : (environment.entries.map fun entry => (entry.1, change entry.2)) =
      environment.entries.map fun entry => (entry.1, other entry.2) := by
    apply List.map_congr_left
    intro entry member
    rw [same entry member]
  simp only [map, entries]

end Environment

/-- New numbers for closures and groups. -/
structure Renaming where
  closure : ClosureId → ClosureId
  group : GroupId → GroupId

namespace Renaming

variable (rename : Renaming)

def reference (reference : ClosureRef) : ClosureRef :=
  ⟨rename.closure reference.closure, reference.group.map rename.group⟩

def value : Bindable → Bindable
  | .storable value => .storable value
  | .closure reference => .closure (rename.reference reference)

def environment (environment : Environment) : Environment :=
  environment.map rename.value

def closureEntry (closure : Closure) : Closure :=
  ⟨closure.formals, closure.body, rename.environment closure.captured⟩

def member (member : Member) : Member :=
  (member.1, rename.closure member.2)

/-- How entries of two value stacks correspond. Marks say how much of a table to
keep, and need not agree. -/
inductive Entry : StackValue → StackValue → Prop where
  | bindable (value : Bindable) : Entry (.bindable value) (.bindable (rename.value value))
  | identifier (name : Name) : Entry (.identifier name) (.identifier name)
  | pending (node : NodeId) : Entry (.pending node) (.pending node)
  | environment (saved : Environment) :
      Entry (.environment saved) (.environment (rename.environment saved))
  | region (saved : Region) : Entry (.region saved) (.region saved)
  | mark (saved kept : Mark) : Entry (.mark saved) (.mark kept)
  | declarations (collected : Environment) :
      Entry (.declarations collected) (.declarations (rename.environment collected))

/-- Whether a renaming carries the entries of one pair of tables to entries of
another, different ones to different ones. -/
structure Links (table kept : ClosureTable) : Prop where
  closures : ∀ id closure, table.closure? id = some closure →
    kept.closure? (rename.closure id) = some (rename.closureEntry closure)
  groups : ∀ id members, table.members? id = some members →
    kept.members? (rename.group id) = some (members.map rename.member)
  closures_injective : ∀ first second : ClosureId, first.index < table.size →
    second.index < table.size → rename.closure first = rename.closure second → first = second
  groups_injective : ∀ first second : GroupId, first.index < table.groupCount →
    second.index < table.groupCount → rename.group first = rename.group second →
    first = second

/-- Whether the next entries of the tables correspond. -/
structure Continues (table kept : ClosureTable) : Prop where
  closure : rename.closure ⟨table.size⟩ = ⟨kept.size⟩
  group : rename.group ⟨table.groupCount⟩ = ⟨kept.groupCount⟩

/-- Two states with tables as given that agree but for names of closures and for
marks. -/
structure Alike (table keptTable : ClosureTable) (state kept : State) : Prop where
  control : kept.control = state.control
  values : List.Forall₂ rename.Entry state.values kept.values
  store : kept.store = state.store
  environment : kept.environment = rename.environment state.environment
  region : kept.region = state.region
  printer : kept.printer = state.printer
  steps : kept.steps = state.steps
  closures : state.closures = table
  keptClosures : kept.closures = keptTable

/-- Two states that agree but for names of closures and for marks. -/
structure Relates (state kept : State) : Prop where
  alike : rename.Alike state.closures kept.closures state kept
  links : rename.Links state.closures kept.closures

variable {rename}

/-! ## Values and tables -/

@[simp] theorem text_value (value : Bindable) : (rename.value value).text = value.text := by
  cases value <;> rfl

theorem typeName_eq {entry kept : StackValue} (same : rename.Entry entry kept) :
    kept.typeName = entry.typeName := by
  cases same with
  | bindable value => cases value <;> rfl
  | _ => rfl

/-- States that agree but for closures and marks differ in nothing else. -/
theorem shares {table kept : ClosureTable} :
    SharesData id (rename.Alike table kept) rename.Entry where
  keeps := fun _ _ => rfl
  values := fun alike => alike.values
  withValues := fun alike same => { alike with values := same }
  store := fun alike => alike.store
  region := fun alike => alike.region
  printer := fun alike => alike.printer
  withStore := fun _ alike => { alike with store := rfl }
  withRegion := fun _ alike => { alike with region := rfl }
  withPrinter := fun _ alike => { alike with printer := rfl }
  storable := fun value => .bindable (.storable value)
  storable?_eq := by
    intro entry keptEntry same
    cases same with
    | bindable value => cases value <;> rfl
    | _ => rfl
  pending?_eq := by
    intro entry keptEntry same
    cases same <;> rfl
  region?_eq := by
    intro entry keptEntry same
    cases same <;> rfl
  declarations := by
    intro entry keptEntry same
    cases same with
    | declarations collected => exact .some (.declarations collected)
    | _ => exact .none
  typeName_eq := typeName_eq

theorem map_memberBindings (group : GroupId) (members : List Member) :
    ((ClosureTable.memberBindings group members).map fun entry =>
        (entry.1, rename.value entry.2)) =
      ClosureTable.memberBindings (rename.group group) (members.map rename.member) := by
  simp [ClosureTable.memberBindings, member, value, reference, ClosureRef.recursive]

namespace Links

variable {table kept : ClosureTable}

theorem empty : rename.Links .empty .empty where
  closures := by
    intro id closure found
    exact absurd (ClosureTable.index_lt_of_closure? found) (Nat.not_lt_zero _)
  groups := by
    intro id members found
    exact absurd (ClosureTable.index_lt_of_members? found) (Nat.not_lt_zero _)
  closures_injective := fun first _ below => absurd below (Nat.not_lt_zero _)
  groups_injective := fun first _ below => absurd below (Nat.not_lt_zero _)

/-- What is left when tables are cut back stays linked. -/
theorem truncate (links : rename.Links table kept) (mark : Mark) :
    rename.Links (table.truncate mark) kept where
  closures := by
    intro id closure found
    rw [ClosureTable.closure?_truncate] at found
    split at found
    next => exact links.closures id closure found
    next => contradiction
  groups := by
    intro id members found
    rw [ClosureTable.members?_truncate] at found
    split at found
    next => exact links.groups id members found
    next => contradiction
  closures_injective := by
    have shorter : (table.truncate mark).size ≤ table.size := by
      simp only [ClosureTable.truncate, ClosureTable.size, Array.take_eq_extract,
        Array.size_extract]
      omega
    intro first second firstBelow secondBelow
    exact links.closures_injective first second (Nat.lt_of_lt_of_le firstBelow shorter)
      (Nat.lt_of_lt_of_le secondBelow shorter)
  groups_injective := by
    have shorter : (table.truncate mark).groupCount ≤ table.groupCount := by
      simp only [ClosureTable.truncate, ClosureTable.groupCount, Array.take_eq_extract,
        Array.size_extract]
      omega
    intro first second firstBelow secondBelow
    exact links.groups_injective first second (Nat.lt_of_lt_of_le firstBelow shorter)
      (Nat.lt_of_lt_of_le secondBelow shorter)

/-- A closure made in both tables. -/
theorem insert (links : rename.Links table kept) (continues : rename.Continues table kept)
    (closure : Closure) :
    rename.Links (table.insert closure).2 (kept.insert (rename.closureEntry closure)).2 where
  closures := by
    intro id entry found
    rw [ClosureTable.closure?_insert] at found ⊢
    split at found
    next isNew =>
      cases found
      rw [if_pos]
      rw [isNew]
      exact continues.closure
    next =>
      have known := links.closures id entry found
      rw [if_neg, known]
      intro equal
      exact absurd (ClosureTable.index_lt_of_closure? known) (equal ▸ Nat.lt_irrefl _)
  groups := links.groups
  closures_injective := by
    have fresh (id : ClosureId) (known : id.index < table.size) :
        rename.closure id ≠ rename.closure ⟨table.size⟩ := by
      intro equal
      rcases ClosureTable.exists_closure?_of_lt known with ⟨entry, found⟩
      have below := ClosureTable.index_lt_of_closure? (links.closures id entry found)
      rw [equal, continues.closure] at below
      exact Nat.lt_irrefl _ below
    have split (id : ClosureId) (below : id.index < (table.insert closure).2.size) :
        id.index < table.size ∨ id = ⟨table.size⟩ := by
      have : id.index < table.size + 1 := by
        simpa [ClosureTable.insert, ClosureTable.size] using below
      rcases Nat.lt_succ_iff_lt_or_eq.mp this with known | last
      · exact .inl known
      · exact .inr (congrArg ClosureId.mk last)
    intro first second firstBelow secondBelow equal
    rcases split first firstBelow with firstKnown | rfl <;>
      rcases split second secondBelow with secondKnown | rfl
    · exact links.closures_injective first second firstKnown secondKnown equal
    · exact absurd equal (fresh first firstKnown)
    · exact absurd equal.symm (fresh second secondKnown)
    · rfl
  groups_injective := links.groups_injective

/-- A group declared in both tables. -/
theorem addGroup (links : rename.Links table kept) (continues : rename.Continues table kept)
    (members : List Member) :
    rename.Links (table.addGroup members).2
      (kept.addGroup (members.map rename.member)).2 where
  closures := links.closures
  groups := by
    intro id listed found
    rw [ClosureTable.members?_addGroup] at found ⊢
    split at found
    next isNew =>
      cases found
      rw [if_pos]
      rw [isNew]
      exact continues.group
    next =>
      have known := links.groups id listed found
      rw [if_neg, known]
      intro equal
      exact absurd (ClosureTable.index_lt_of_members? known) (equal ▸ Nat.lt_irrefl _)
  closures_injective := links.closures_injective
  groups_injective := by
    have fresh (id : GroupId) (known : id.index < table.groupCount) :
        rename.group id ≠ rename.group ⟨table.groupCount⟩ := by
      intro equal
      rcases ClosureTable.exists_members?_of_lt known with ⟨listed, found⟩
      have below := ClosureTable.index_lt_of_members? (links.groups id listed found)
      rw [equal, continues.group] at below
      exact Nat.lt_irrefl _ below
    have split (id : GroupId) (below : id.index < (table.addGroup members).2.groupCount) :
        id.index < table.groupCount ∨ id = ⟨table.groupCount⟩ := by
      have : id.index < table.groupCount + 1 := by
        simpa [ClosureTable.addGroup, ClosureTable.groupCount] using below
      rcases Nat.lt_succ_iff_lt_or_eq.mp this with known | last
      · exact .inl known
      · exact .inr (congrArg GroupId.mk last)
    intro first second firstBelow secondBelow equal
    rcases split first firstBelow with firstKnown | rfl <;>
      rcases split second secondBelow with secondKnown | rfl
    · exact links.groups_injective first second firstKnown secondKnown equal
    · exact absurd equal (fresh first firstKnown)
    · exact absurd equal.symm (fresh second secondKnown)
    · rfl

end Links

end Renaming

end BlockMachine
