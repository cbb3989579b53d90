import BlockMachine.Machine.Run
import BlockMachine.Proofs.Identifiers.Code
import BlockMachine.Proofs.Machine.Parallel
import BlockMachine.Proofs.Scoping.Environments

namespace BlockMachine

/-! # States that differ in their names

A state matches another one if they are equal but for names, which correspond. Where
bindings are listed by name, as in an environment, they may also stand in another
order. -/

section

variable (Same : Name → Name → Prop)

/-- Whether two lists of bindings hold the same values under names that correspond, in
whatever order. -/
structure BindingsMatch (bindings others : List (Name × Bindable)) : Prop where
  forth : ∀ name value, (name, value) ∈ bindings →
    ∃ other, Same name other ∧ (other, value) ∈ others
  back : ∀ other value, (other, value) ∈ others →
    ∃ name, Same name other ∧ (name, value) ∈ bindings

def Environment.Matches (environment other : Environment) : Prop :=
  BindingsMatch Same environment.entries other.entries

/-- Entries of two value stacks that are equal but for names. -/
inductive StackValue.Matches : StackValue → StackValue → Prop where
  | bindable (value : Bindable) : Matches (.bindable value) (.bindable value)
  | identifier {name other : Name} (same : Same name other) :
      Matches (.identifier name) (.identifier other)
  | pending (node : NodeId) : Matches (.pending node) (.pending node)
  | environment {saved other : Environment} (same : saved.Matches Same other) :
      Matches (.environment saved) (.environment other)
  | region (saved : Region) : Matches (.region saved) (.region saved)
  | mark (saved : Mark) : Matches (.mark saved) (.mark saved)
  | declarations {collected other : Environment} (same : collected.Matches Same other) :
      Matches (.declarations collected) (.declarations other)

/-- Entries of two control stacks that are equal but for the callees of calls. -/
inductive Control.Matches : Control → Control → Prop where
  | node (id : NodeId) : Matches (.node id) (.node id)
  | op {opcode : Opcode} (nameless : ∀ callee arity, opcode ≠ .call callee arity) :
      Matches (.op opcode) (.op opcode)
  | call {callee other : Name} (same : Same callee other) (arity : Nat) :
      Matches (.op (.call callee arity)) (.op (.call other arity))

structure Closure.Matches (closure other : Closure) : Prop where
  formals : other.formals = closure.formals
  body : other.body = closure.body
  captured : closure.captured.Matches Same other.captured

/-- Tables with entries that match under the same numbers. -/
structure ClosureTable.Matches (table other : ClosureTable) : Prop where
  closures : List.Forall₂ (Closure.Matches Same) table.closures.toList other.closures.toList
  groups : List.Forall₂ (List.Forall₂ (EntryMatches Same)) table.groups.toList
    other.groups.toList

/-- States that are equal but for names: with the same store, the same region and the
same output after the same number of steps. -/
structure State.Matches (state other : State) : Prop where
  control : List.Forall₂ (Control.Matches Same) state.control other.control
  values : List.Forall₂ (StackValue.Matches Same) state.values other.values
  store : other.store = state.store
  environment : state.environment.Matches Same other.environment
  region : other.region = state.region
  closures : state.closures.Matches Same other.closures
  printer : other.printer = state.printer
  steps : other.steps = state.steps

/-- Snapshots that are equal but for names. -/
structure Snapshot.Matches (snapshot other : Snapshot) : Prop where
  steps : other.steps = snapshot.steps
  control : List.Forall₂ (Control.Matches Same) snapshot.control other.control
  values : List.Forall₂ (StackValue.Matches Same) snapshot.values other.values
  store : other.store = snapshot.store
  environment : BindingsMatch Same snapshot.environment other.environment
  region : other.region = snapshot.region

end

variable {Same : Name → Name → Prop}

theorem StackValue.Matches.typeName_eq {entry other : StackValue}
    (same : entry.Matches Same other) : other.typeName = entry.typeName := by
  cases same <;> rfl

/-- States that match differ in nothing but names. -/
theorem State.Matches.shares {change : String → String} :
    SharesData (Fault.rename change) (State.Matches Same) (StackValue.Matches Same) where
  keeps := by
    intro fault silent
    cases fault <;> first | rfl | cases silent
  values := fun same => same.values
  withValues := fun same entries => { same with values := entries }
  store := fun same => same.store
  region := fun same => same.region
  printer := fun same => same.printer
  withStore := fun _ same => { same with store := rfl }
  withRegion := fun _ same => { same with region := rfl }
  withPrinter := fun _ same => { same with printer := rfl }
  storable := fun value => .bindable (.storable value)
  storable?_eq := by
    intro entry other same
    cases same <;> rfl
  pending?_eq := by
    intro entry other same
    cases same <;> rfl
  region?_eq := by
    intro entry other same
    cases same <;> rfl
  declarations := by
    intro entry other same
    cases same with
    | declarations same => exact .some (.declarations same)
    | _ => exact .none
  typeName_eq := StackValue.Matches.typeName_eq

/-! ## Environments -/

namespace Environment

namespace Matches

variable {environment other overlay otherOverlay : Environment}

theorem empty : empty.Matches Same .empty where
  forth := fun _ _ member => nomatch member
  back := fun _ _ member => nomatch member

variable (unique : Relator.BiUnique Same)

include unique

/-- Environments match just if they bind corresponding names alike and no others. -/
theorem iff_lookup :
    environment.Matches Same other ↔
      (∀ name known, Same name known → other.lookup known = environment.lookup name) ∧
      (∀ name, (environment.lookup name).isSome → ∃ known, Same name known) ∧
      ∀ known, (other.lookup known).isSome → ∃ name, Same name known := by
  constructor
  · intro same
    refine ⟨fun name known names => Option.ext fun value => ⟨fun found => ?_, fun bound => ?_⟩,
      fun name isBound => ?_, fun known isFound => ?_⟩
    · rcases same.back known value (mem_entries_iff.mpr found) with ⟨counterpart, others, member⟩
      rw [unique.1 names others]
      exact mem_entries_iff.mp member
    · rcases same.forth name value (mem_entries_iff.mpr bound) with ⟨counterpart, others, member⟩
      rw [unique.2 names others]
      exact mem_entries_iff.mp member
    · rcases Option.isSome_iff_exists.mp isBound with ⟨value, bound⟩
      rcases same.forth name value (mem_entries_iff.mpr bound) with ⟨known, names, _⟩
      exact ⟨known, names⟩
    · rcases Option.isSome_iff_exists.mp isFound with ⟨value, found⟩
      rcases same.back known value (mem_entries_iff.mpr found) with ⟨name, names, _⟩
      exact ⟨name, names⟩
  · rintro ⟨alike, named, renamed⟩
    constructor
    · intro name value member
      have bound := mem_entries_iff.mp member
      rcases named name (Option.isSome_of_eq_some bound) with ⟨known, names⟩
      exact ⟨known, names, mem_entries_iff.mpr ((alike name known names).trans bound)⟩
    · intro known value member
      have found := mem_entries_iff.mp member
      rcases renamed known (Option.isSome_of_eq_some found) with ⟨name, names⟩
      exact ⟨name, names, mem_entries_iff.mpr ((alike name known names).symm.trans found)⟩

theorem lookup (same : environment.Matches Same other) {name known : Name}
    (names : Same name known) : other.lookup known = environment.lookup name :=
  ((iff_lookup unique).mp same).1 name known names

theorem bind (same : environment.Matches Same other) {name known : Name}
    (names : Same name known) (value : Bindable) :
    (environment.bind name value).Matches Same (other.bind known value) := by
  rcases (iff_lookup unique).mp same with ⟨alike, named, renamed⟩
  refine (iff_lookup unique).mpr ⟨fun query counterpart queries => ?_, fun query isBound => ?_,
    fun query isFound => ?_⟩
  · have isNew : counterpart = known ↔ query = name :=
      ⟨fun equal => unique.1 queries (equal ▸ names), fun equal => unique.2 queries (equal ▸ names)⟩
    simp only [lookup_bind, isNew, alike query counterpart queries]
  · by_cases isName : query = name
    · exact ⟨known, isName ▸ names⟩
    · rw [lookup_bind, if_neg isName] at isBound
      exact named query isBound
  · by_cases isKnown : query = known
    · exact ⟨name, isKnown ▸ names⟩
    · rw [lookup_bind, if_neg isKnown] at isFound
      exact renamed query isFound

theorem bindAll (same : environment.Matches Same other)
    {bindings others : List (Name × Bindable)}
    (entries : List.Forall₂ (EntryMatches Same) bindings others) :
    (environment.bindAll bindings).Matches Same (other.bindAll others) := by
  induction entries generalizing environment other with
  | nil => exact same
  | @cons left right bindings others head _ induction =>
      rcases left with ⟨name, value⟩
      rcases right with ⟨known, _⟩
      rcases head with ⟨names, rfl⟩
      exact induction (same.bind unique names _)

/-- The order in which an overlay lists its bindings makes no difference. -/
theorem extend (same : environment.Matches Same other)
    (overlays : overlay.Matches Same otherOverlay) :
    (environment.extend overlay).Matches Same (other.extend otherOverlay) := by
  rcases (iff_lookup unique).mp same with ⟨alike, named, renamed⟩
  rcases (iff_lookup unique).mp overlays with ⟨overlaysAlike, overlayNamed, overlayRenamed⟩
  refine (iff_lookup unique).mpr ⟨fun query counterpart queries => ?_, fun query isBound => ?_,
    fun query isFound => ?_⟩
  · rw [lookup_extend, lookup_extend, alike query counterpart queries,
      overlaysAlike query counterpart queries]
  · rw [lookup_extend, Option.isSome_or, Bool.or_eq_true] at isBound
    exact isBound.elim (overlayNamed query) (named query)
  · rw [lookup_extend, Option.isSome_or, Bool.or_eq_true] at isFound
    exact isFound.elim (overlayRenamed query) (renamed query)

end Matches

end Environment

/-! ## Closure tables -/

namespace ClosureTable.Matches

variable {table other : ClosureTable}

theorem empty : ClosureTable.empty.Matches Same .empty :=
  ⟨.nil, .nil⟩

theorem closure? (same : table.Matches Same other) (id : ClosureId) :
    Option.Rel (Closure.Matches Same) (table.closure? id) (other.closure? id) := by
  rw [ClosureTable.closure?, ClosureTable.closure?, ← Array.getElem?_toList,
    ← Array.getElem?_toList]
  exact Option.rel_getElem? same.closures id.index

theorem members? (same : table.Matches Same other) (id : GroupId) :
    Option.Rel (List.Forall₂ (EntryMatches Same)) (table.members? id) (other.members? id) := by
  rw [ClosureTable.members?, ClosureTable.members?, ← Array.getElem?_toList,
    ← Array.getElem?_toList]
  exact Option.rel_getElem? same.groups id.index

theorem mark (same : table.Matches Same other) : other.mark = table.mark := by
  have closures : table.closures.size = other.closures.size := by
    simpa using same.closures.length_eq
  have groups : table.groups.size = other.groups.size := by
    simpa using same.groups.length_eq
  rw [ClosureTable.mark, ClosureTable.mark, closures, groups]

theorem insert (same : table.Matches Same other) {closure otherClosure : Closure}
    (closures : closure.Matches Same otherClosure) :
    (other.insert otherClosure).1 = (table.insert closure).1 ∧
      (table.insert closure).2.Matches Same (other.insert otherClosure).2 := by
  refine ⟨congrArg (fun mark => ClosureId.mk mark.closures) same.mark, { same with closures := ?_ }⟩
  simpa [ClosureTable.insert] using List.rel_append same.closures (.cons closures .nil)

theorem addGroup (same : table.Matches Same other) {members others : List Member}
    (entries : List.Forall₂ (EntryMatches Same) members others) :
    (other.addGroup others).1 = (table.addGroup members).1 ∧
      (table.addGroup members).2.Matches Same (other.addGroup others).2 := by
  refine ⟨congrArg (fun mark => GroupId.mk mark.groups) same.mark, { same with groups := ?_ }⟩
  simpa [ClosureTable.addGroup] using List.rel_append same.groups (.cons entries .nil)

theorem truncate (same : table.Matches Same other) (mark : Mark) :
    (table.truncate mark).Matches Same (other.truncate mark) where
  closures := by simpa [ClosureTable.truncate] using List.forall₂_take _ same.closures
  groups := by simpa [ClosureTable.truncate] using List.forall₂_take _ same.groups

end ClosureTable.Matches

theorem forall₂_memberBindings (id : GroupId) {members others : List Member}
    (entries : List.Forall₂ (EntryMatches Same) members others) :
    List.Forall₂ (EntryMatches Same) (ClosureTable.memberBindings id members)
      (ClosureTable.memberBindings id others) := by
  rw [ClosureTable.memberBindings, ClosureTable.memberBindings, List.forall₂_map_left_iff,
    List.forall₂_map_right_iff]
  apply entries.imp
  rintro ⟨name, _⟩ ⟨other, closure⟩ ⟨same, rfl⟩
  exact ⟨same, rfl⟩

/-! ## States -/

theorem State.matches_start (root : NodeId) (printer : Printer) :
    (State.start root printer).Matches Same (.start root printer) where
  control := .cons (.node root) .nil
  values := .nil
  store := rfl
  environment := .empty
  region := rfl
  closures := .empty
  printer := rfl
  steps := rfl

theorem State.Matches.snapshot {state other : State} (same : state.Matches Same other) :
    state.snapshot.Matches Same other.snapshot where
  steps := same.steps
  control := List.rel_reverse same.control
  values := List.rel_reverse same.values
  store := congrArg Store.live same.store
  environment := same.environment
  region := congrArg Region.addresses same.region

end BlockMachine
