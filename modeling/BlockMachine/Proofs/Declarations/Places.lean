import BlockMachine.Proofs.Closures.Coverage
import BlockMachine.Proofs.Closures.Renaming
import BlockMachine.Proofs.Expressions.Kinds
import BlockMachine.Proofs.Memory.Addresses
import BlockMachine.Proofs.Surface.Phrases
import Mathlib.Data.List.Nodup
import Mathlib.Logic.Equiv.Defs

namespace BlockMachine

/-! # Places of what declarations make

A declaration makes cells, closures and groups, and each of them is for names that it
declares. Where it comes to lie follows from its place among all that the declarations
of a block make. If the declarations change places, so do these, and nothing else about
what the names are bound to changes. -/

namespace Declaration

/-! ## What declarations make -/

/-- The identifiers that cells are made for. -/
def cells : Declaration → List String
  | .var text _ => [text]
  | .const _ _ | .function _ | .recursive _ => []

/-- The functions that closures are made of. Those of a group are made from the last one
on. -/
def functions : Declaration → List Function
  | .function declared => [declared]
  | .recursive group => group.reverse
  | .var _ _ | .const _ _ => []

def closures (part : Declaration) : List String :=
  part.functions.map Function.name

/-- The groups that are made, by the names of their members. -/
def groups : Declaration → List (List String)
  | .recursive group => [group.map Function.name]
  | .var _ _ | .const _ _ | .function _ => []

theorem cells_subset (part : Declaration) : part.cells ⊆ part.names := by
  cases part with
  | var => exact List.Subset.refl _
  | _ => exact List.nil_subset _

theorem closures_subset (part : Declaration) : part.closures ⊆ part.names := by
  cases part with
  | function => exact List.Subset.refl _
  | recursive group =>
      intro text member
      simpa [closures, functions, names] using member
  | _ => exact List.nil_subset _

/-- Whether no identifier is declared twice, and no group is empty. -/
structure Distinct (parts : List Declaration) : Prop where
  names : (parts.flatMap Declaration.names).Nodup
  notEmpty : ∀ group, .recursive group ∈ parts → group ≠ []

namespace Distinct

variable {parts front back : List Declaration}

theorem perm (distinct : Distinct parts) {others : List Declaration} (perm : parts.Perm others) :
    Distinct others where
  names := (perm.flatMap_right _).nodup_iff.mp distinct.names
  notEmpty := fun group member => distinct.notEmpty group (perm.mem_iff.mpr member)

theorem left (distinct : Distinct (front ++ back)) : Distinct front where
  names := by
    have names := distinct.names
    rw [List.flatMap_append] at names
    exact (List.nodup_append.mp names).1
  notEmpty := fun group member => distinct.notEmpty group (List.mem_append_left back member)

theorem right (distinct : Distinct (front ++ back)) : Distinct back where
  names := by
    have names := distinct.names
    rw [List.flatMap_append] at names
    exact (List.nodup_append.mp names).2.1
  notEmpty := fun group member => distinct.notEmpty group (List.mem_append_right front member)

/-- What each declaration makes for some of its names is made once. -/
theorem nodup_flatMap (distinct : Distinct parts) {made : Declaration → List String}
    (subset : ∀ part, made part ⊆ part.names)
    (nodup : ∀ part, part.names.Nodup → (made part).Nodup) : (parts.flatMap made).Nodup := by
  rcases List.nodup_flatMap.mp distinct.names with ⟨each, apart⟩
  refine List.nodup_flatMap.mpr ⟨fun part member => nodup part (each part member), ?_⟩
  apply apart.imp
  intro first second disjoint text inFirst inSecond
  exact disjoint (subset first inFirst) (subset second inSecond)

theorem cells (distinct : Distinct parts) : (parts.flatMap Declaration.cells).Nodup := by
  apply distinct.nodup_flatMap cells_subset
  intro part nodup
  cases part with
  | var => exact List.nodup_singleton _
  | _ => exact List.nodup_nil

theorem closures (distinct : Distinct parts) : (parts.flatMap Declaration.closures).Nodup := by
  apply distinct.nodup_flatMap closures_subset
  intro part nodup
  cases part with
  | function => exact List.nodup_singleton _
  | recursive group =>
      rw [Declaration.closures, functions, List.map_reverse]
      exact List.nodup_reverse.mpr nodup
  | _ => exact List.nodup_nil

/-- Two groups are told apart by the names of their members, as each has one. -/
theorem groups (distinct : Distinct parts) : (parts.flatMap Declaration.groups).Nodup := by
  rcases List.nodup_flatMap.mp distinct.names with ⟨_, apart⟩
  refine List.nodup_flatMap.mpr ⟨?_, ?_⟩
  · intro part _
    cases part with
    | recursive => exact List.nodup_singleton _
    | _ => exact List.nodup_nil
  · apply List.Pairwise.imp_of_mem ?_ apart
    intro first second isFirst _ disjoint names inFirst inSecond
    cases first with
    | recursive group =>
        cases second with
        | recursive other =>
            cases List.mem_singleton.mp inFirst
            have same : group.map Function.name = other.map Function.name :=
              List.mem_singleton.mp inSecond
            cases group with
            | nil => exact distinct.notEmpty [] isFirst rfl
            | cons member rest =>
                have declared : member.name ∈ (Declaration.recursive (member :: rest)).names :=
                  List.mem_map_of_mem List.mem_cons_self
                have declaredToo : member.name ∈ (Declaration.recursive other).names := by
                  rw [Declaration.names, ← same]
                  exact declared
                exact disjoint declared declaredToo
        | _ => cases inSecond
    | _ => cases inFirst

end Distinct

end Declaration

/-! ## Places -/

/-- How many cells, closures and groups there are. -/
structure Extent where
  cells : Nat
  closures : Nat
  groups : Nat

def State.extent (state : State) : Extent :=
  ⟨state.store.cells.size, state.closures.size, state.closures.groupCount⟩

/-- Where what declarations make for a name, or for the names of a group, comes to lie. -/
structure Places where
  cell : String → Address
  closure : String → ClosureId
  group : List String → GroupId

namespace Extent

/-- The extent after declarations. -/
def after (extent : Extent) (parts : List Declaration) : Extent where
  cells := extent.cells + (parts.flatMap Declaration.cells).length
  closures := extent.closures + (parts.flatMap Declaration.closures).length
  groups := extent.groups + (parts.flatMap Declaration.groups).length

/-- The places of what declarations make, one declaration after another. -/
def places (extent : Extent) (parts : List Declaration) : Places where
  cell text := ⟨extent.cells + (parts.flatMap Declaration.cells).idxOf text⟩
  closure text := ⟨extent.closures + (parts.flatMap Declaration.closures).idxOf text⟩
  group names := ⟨extent.groups + (parts.flatMap Declaration.groups).idxOf names⟩

theorem after_append (extent : Extent) (front back : List Declaration) :
    extent.after (front ++ back) = (extent.after front).after back := by
  simp [after, Nat.add_assoc]

/-- The order of declarations does not matter to how much they make. -/
theorem after_perm (extent : Extent) {parts others : List Declaration} (perm : parts.Perm others) :
    extent.after others = extent.after parts := by
  simp only [after, (perm.flatMap_right Declaration.cells).length_eq,
    (perm.flatMap_right Declaration.closures).length_eq,
    (perm.flatMap_right Declaration.groups).length_eq]

end Extent

namespace Declaration

/-- What a declaration binds its names to. -/
def bindings (reading : Reading) (places : Places) : Declaration → List (String × Bindable)
  | .var text _ => [(text, .storable (.location (places.cell text)))]
  | .const text expr =>
    match expr.evaluate reading with
    | .ok value => [(text, value)]
    | .error _ => []
  | .function declared => [(declared.name, .closure (.plain (places.closure declared.name)))]
  | .recursive group => group.map fun member =>
    (member.name,
      .closure (.recursive (places.closure member.name) (places.group (group.map Function.name))))

variable {reading : Reading} {part : Declaration} {front back : List Declaration}

/-- Whether what a declaration makes has the same places here and there. -/
structure SamePlaces (part : Declaration) (first second : Places) : Prop where
  cells : ∀ text ∈ part.cells, first.cell text = second.cell text
  closures : ∀ text ∈ part.closures, first.closure text = second.closure text
  groups : ∀ names ∈ part.groups, first.group names = second.group names

theorem name_mem_closures {group : List Function} {member : Function} (isMember : member ∈ group) :
    member.name ∈ (recursive group).closures :=
  List.mem_map_of_mem (List.mem_reverse.mpr isMember)

theorem SamePlaces.bindings_eq {first second : Places} (same : part.SamePlaces first second) :
    part.bindings reading first = part.bindings reading second := by
  cases part with
  | var text initial => rw [bindings, bindings, same.cells text List.mem_cons_self]
  | const text expr => rfl
  | function declared => rw [bindings, bindings, same.closures declared.name List.mem_cons_self]
  | recursive group =>
      rw [bindings, bindings, same.groups _ List.mem_cons_self]
      apply List.map_congr_left
      intro member isMember
      rw [same.closures member.name (name_mem_closures isMember)]

theorem idxOf_left {Entry : Type} [BEq Entry] [LawfulBEq Entry] {made : Declaration → List Entry}
    {entry : Entry} (member : part ∈ front) (isMade : entry ∈ made part) :
    ((front ++ back).flatMap made).idxOf entry = (front.flatMap made).idxOf entry := by
  rw [List.flatMap_append]
  exact List.idxOf_append_of_mem (List.mem_flatMap.mpr ⟨part, member, isMade⟩)

theorem idxOf_right {Entry : Type} [BEq Entry] [LawfulBEq Entry] {made : Declaration → List Entry}
    {entry : Entry} (nodup : ((front ++ back).flatMap made).Nodup) (member : part ∈ back)
    (isMade : entry ∈ made part) :
    ((front ++ back).flatMap made).idxOf entry =
      (front.flatMap made).length + (back.flatMap made).idxOf entry := by
  rw [List.flatMap_append] at nodup ⊢
  apply List.idxOf_append_of_notMem
  intro before
  exact (List.nodup_append.mp nodup).2.2 _ before _
    (List.mem_flatMap.mpr ⟨part, member, isMade⟩) rfl

/-- Later declarations do not displace what earlier ones make. -/
theorem samePlaces_left (extent : Extent) (member : part ∈ front) :
    part.SamePlaces (extent.places (front ++ back)) (extent.places front) where
  cells := fun text made => by simp only [Extent.places, idxOf_left member made]
  closures := fun text made => by simp only [Extent.places, idxOf_left member made]
  groups := fun names made => by simp only [Extent.places, idxOf_left member made]

/-- What later declarations make is put behind what earlier ones have made. -/
theorem samePlaces_right (extent : Extent) (distinct : Distinct (front ++ back))
    (member : part ∈ back) :
    part.SamePlaces (extent.places (front ++ back)) ((extent.after front).places back) where
  cells := by
    intro text made
    simp only [Extent.places, Extent.after, idxOf_right distinct.cells member made, Nat.add_assoc]
  closures := by
    intro text made
    simp only [Extent.places, Extent.after, idxOf_right distinct.closures member made,
      Nat.add_assoc]
  groups := by
    intro names made
    simp only [Extent.places, Extent.after, idxOf_right distinct.groups member made, Nat.add_assoc]

end Declaration

/-! ## Changes of places -/

section Moved

variable {Entry : Type} [BEq Entry] {base index : Nat} {first second : List Entry}
  {entry : Entry}

/-- Where what has a place in one list stands in another, both counted from `base`. Other
numbers stay. -/
def moved (base : Nat) (first second : List Entry) (index : Nat) : Nat :=
  if base ≤ index then
    match first[index - base]? with
    | some entry => base + second.idxOf entry
    | none => index
  else
    index

theorem moved_of_lt (below : index < base) : moved base first second index = index :=
  if_neg (Nat.not_le.mpr below)

theorem moved_of_ge (beyond : base + first.length ≤ index) :
    moved base first second index = index := by
  have outside : first[index - base]? = none := List.getElem?_eq_none (by omega)
  simp [moved, outside]

variable [LawfulBEq Entry]

theorem moved_place (member : entry ∈ first) :
    moved base first second (base + first.idxOf entry) = base + second.idxOf entry := by
  simp [moved, List.getElem?_idxOf member]

/-- A number is that of a place, or stays. -/
theorem place_or_outside (base index : Nat) (nodup : first.Nodup) :
    (∃ entry ∈ first, index = base + first.idxOf entry) ∨
      (index < base ∨ base + first.length ≤ index) := by
  by_cases inside : base ≤ index ∧ index - base < first.length
  · refine .inl ⟨first[index - base], List.getElem_mem inside.2, ?_⟩
    rw [nodup.idxOf_getElem]
    omega
  · exact .inr (by omega)

theorem moved_moved (perm : first.Perm second) (nodup : first.Nodup) (index : Nat) :
    moved base second first (moved base first second index) = index := by
  rcases place_or_outside base index nodup with ⟨entry, member, rfl⟩ | below | beyond
  · rw [moved_place member, moved_place (perm.mem_iff.mp member)]
  · rw [moved_of_lt below, moved_of_lt below]
  · have beyondToo : base + second.length ≤ index := perm.length_eq ▸ beyond
    rw [moved_of_ge beyond, moved_of_ge beyondToo]

/-- The change of places as a permutation of all numbers. -/
def relocation (base : Nat) (perm : first.Perm second) (nodup : first.Nodup) : Equiv.Perm Nat where
  toFun := moved base first second
  invFun := moved base second first
  left_inv := moved_moved perm nodup
  right_inv := moved_moved perm.symm (perm.nodup_iff.mp nodup)

end Moved

/-- New numbers for cells, closures and groups. -/
structure Exchange where
  cells : Equiv.Perm Nat
  closures : Equiv.Perm Nat
  groups : Equiv.Perm Nat

namespace Exchange

def address (exchange : Exchange) (address : Address) : Address :=
  ⟨exchange.cells address.index⟩

def toRenaming (exchange : Exchange) : Renaming where
  closure id := ⟨exchange.closures id.index⟩
  group id := ⟨exchange.groups id.index⟩

def storable (exchange : Exchange) : Storable → Storable
  | .location address => .location (exchange.address address)
  | other => other

def value (exchange : Exchange) : Bindable → Bindable
  | .storable value => .storable (exchange.storable value)
  | .closure reference => .closure (exchange.toRenaming.reference reference)

/-- Whether an exchange changes numbers from `first` on and below `last` only. -/
structure Within (exchange : Exchange) (first last : Extent) : Prop where
  cells : ∀ index, index < first.cells ∨ last.cells ≤ index → exchange.cells index = index
  closures : ∀ index, index < first.closures ∨ last.closures ≤ index →
    exchange.closures index = index
  groups : ∀ index, index < first.groups ∨ last.groups ≤ index → exchange.groups index = index

variable {exchange : Exchange} {first last : Extent} {state : State}

/-- What there was before is not exchanged. -/
theorem Within.storable_eq (within : exchange.Within state.extent last) {value : Storable}
    (issued : state.store.Issued (.storable value)) : exchange.storable value = value := by
  cases value with
  | location known =>
      have same := within.cells known.index (.inl issued)
      simp only [storable, address, same]
  | _ => rfl

theorem Within.value_eq (within : exchange.Within state.extent last) {value : Bindable}
    (issued : state.store.Issued value) (covered : state.closures.mark.Covers value) :
    exchange.value value = value := by
  cases value with
  | storable value => rw [Exchange.value, within.storable_eq issued]
  | closure reference =>
      rcases reference with ⟨closure, group⟩
      have sameClosure := within.closures closure.index (.inl covered.1)
      cases group with
      | none => simp only [value, Renaming.reference, toRenaming, sameClosure, Option.map_none]
      | some group =>
          have sameGroup := within.groups group.index (.inl (covered.2 group rfl))
          simp only [value, Renaming.reference, toRenaming, sameClosure, sameGroup, Option.map_some]

end Exchange

namespace Declaration.Distinct

variable {parts others : List Declaration}

/-- The exchange for declarations that change places. -/
def exchange (distinct : Distinct parts) (perm : parts.Perm others) (extent : Extent) :
    Exchange where
  cells := relocation extent.cells (perm.flatMap_right Declaration.cells) distinct.cells
  closures := relocation extent.closures (perm.flatMap_right Declaration.closures) distinct.closures
  groups := relocation extent.groups (perm.flatMap_right Declaration.groups) distinct.groups

theorem within_exchange (distinct : Distinct parts) (perm : parts.Perm others) (extent : Extent) :
    (distinct.exchange perm extent).Within extent (extent.after parts) where
  cells := fun _ outside => outside.elim moved_of_lt moved_of_ge
  closures := fun _ outside => outside.elim moved_of_lt moved_of_ge
  groups := fun _ outside => outside.elim moved_of_lt moved_of_ge

variable {part : Declaration}

theorem exchange_cell (distinct : Distinct parts) (extent : Extent) (perm : parts.Perm others)
    (member : part ∈ parts) {text : String} (made : text ∈ part.cells) :
    (distinct.exchange perm extent).address ((extent.places parts).cell text) =
      (extent.places others).cell text :=
  congrArg Address.mk (moved_place (List.mem_flatMap.mpr ⟨part, member, made⟩))

theorem exchange_closure (distinct : Distinct parts) (extent : Extent) (perm : parts.Perm others)
    (member : part ∈ parts) {text : String} (made : text ∈ part.closures) :
    (distinct.exchange perm extent).toRenaming.closure ((extent.places parts).closure text) =
      (extent.places others).closure text :=
  congrArg ClosureId.mk (moved_place (List.mem_flatMap.mpr ⟨part, member, made⟩))

theorem exchange_group (distinct : Distinct parts) (extent : Extent) (perm : parts.Perm others)
    (member : part ∈ parts) {names : List String} (made : names ∈ part.groups) :
    (distinct.exchange perm extent).toRenaming.group ((extent.places parts).group names) =
      (extent.places others).group names :=
  congrArg GroupId.mk (moved_place (List.mem_flatMap.mpr ⟨part, member, made⟩))

/-- A declaration that changes its place with others binds its names to what has changed
places alike. -/
theorem bindings_exchange (distinct : Distinct parts) (extent : Extent) (perm : parts.Perm others)
    (member : part ∈ parts) {reading : Reading}
    (fixed : ∀ expr value, Expr.evaluate reading expr = .ok value →
      (distinct.exchange perm extent).value value = value) :
    part.bindings reading (extent.places others) =
      (part.bindings reading (extent.places parts)).map fun entry =>
        (entry.1, (distinct.exchange perm extent).value entry.2) := by
  cases part with
  | var text initial =>
      have moves := distinct.exchange_cell extent perm member List.mem_cons_self
      simp only [bindings, List.map_cons, List.map_nil, Exchange.value, Exchange.storable]
      rw [moves]
  | const text expr =>
      simp only [bindings]
      cases found : expr.evaluate reading with
      | ok value => simp only [List.map_cons, List.map_nil, fixed expr value found]
      | error => rfl
  | function declared =>
      have moves := distinct.exchange_closure extent perm member List.mem_cons_self
      simp only [bindings, List.map_cons, List.map_nil, Exchange.value, Renaming.reference,
        ClosureRef.plain, Option.map_none]
      rw [moves]
  | recursive group =>
      have movesGroup := distinct.exchange_group extent perm member List.mem_cons_self
      simp only [bindings, List.map_map]
      apply List.map_congr_left
      intro function isMember
      have made := name_mem_closures isMember
      have moves := distinct.exchange_closure extent perm member made
      simp only [Function.comp_apply, Exchange.value, Renaming.reference, ClosureRef.recursive,
        Option.map_some]
      rw [moves, movesGroup]

/-- What declarations bind if they change places. -/
theorem perm_bindings (distinct : Distinct parts) (extent : Extent) (perm : parts.Perm others)
    {reading : Reading} (fixed : ∀ expr value, Expr.evaluate reading expr = .ok value →
      (distinct.exchange perm extent).value value = value) :
    ((parts.flatMap (bindings reading (extent.places parts))).map fun entry =>
      (entry.1, (distinct.exchange perm extent).value entry.2)).Perm
        (others.flatMap (bindings reading (extent.places others))) := by
  have moves : parts.flatMap (bindings reading (extent.places others)) =
      (parts.flatMap (bindings reading (extent.places parts))).map fun entry =>
        (entry.1, (distinct.exchange perm extent).value entry.2) := by
    rw [List.map_flatMap]
    apply List.flatMap_congr
    intro part member
    exact distinct.bindings_exchange extent perm member fixed
  rw [← moves]
  exact perm.flatMap_right _

end Declaration.Distinct

end BlockMachine
