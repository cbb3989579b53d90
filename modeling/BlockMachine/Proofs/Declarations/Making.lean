import BlockMachine.Proofs.Declarations.Completion
import BlockMachine.Proofs.Declarations.Places

namespace BlockMachine

/-! # What declarations make

Declarations that succeed make what they make at its place, and nothing else changes.
Whether they succeed depends on what was there before them, not on their order. -/

/-! ## What declarations need and take -/

namespace Declaration

/-- Whether a declaration has the values that it needs. A cell cannot hold a closure. -/
def Succeeds (reading : Reading) : Declaration → Prop
  | .var _ initial => ∃ value, initial.evaluate reading = .ok (.storable value)
  | .const _ expr => ∃ value, expr.evaluate reading = .ok value
  | .function _ | .recursive _ => True

/-- How many steps the machine takes for a declaration. -/
def cost : Declaration → Nat
  | .var _ initial => initial.cost + 4
  | .const _ expr => expr.cost + 2
  | .function _ => 3
  | .recursive group => group.length + 2

def totalCost : List Declaration → Nat
  | [] => 0
  | part :: parts => part.cost + totalCost parts

theorem totalCost_append (front back : List Declaration) :
    totalCost (front ++ back) = totalCost front + totalCost back := by
  induction front with
  | nil => exact (Nat.zero_add _).symm
  | cons part front induction =>
      rw [List.cons_append, totalCost, totalCost, induction, Nat.add_assoc]

theorem totalCost_perm {parts others : List Declaration} (perm : parts.Perm others) :
    totalCost others = totalCost parts := by
  induction perm with
  | nil => rfl
  | cons part _ induction => simp only [totalCost, induction]
  | swap => simp only [totalCost, Nat.add_left_comm]
  | trans _ _ first second => exact second.trans first

variable {reading larger : Reading} {part : Declaration}

theorem map_fst_bindings (succeeds : part.Succeeds reading) (places : Places) :
    (part.bindings reading places).map Prod.fst = part.names := by
  cases part with
  | const text expr =>
      rcases succeeds with ⟨value, found⟩
      simp only [bindings, found]
      rfl
  | recursive group => simp [bindings, names]
  | _ => rfl

theorem succeeds_iff_of_extends (issued : reading.Issued) (extension : larger.Extends reading) :
    part.Succeeds larger ↔ part.Succeeds reading := by
  cases part <;> simp only [Succeeds, Expr.evaluate_eq_of_extends issued extension]

theorem bindings_eq_of_extends (issued : reading.Issued) (extension : larger.Extends reading)
    (places : Places) : part.bindings larger places = part.bindings reading places := by
  cases part <;> simp only [bindings, Expr.evaluate_eq_of_extends issued extension]

end Declaration

namespace Setting

variable {setting : Setting} {start middle : State}

/-! ## What is there afterwards -/

/-- What names are bound to by declarations that are run from `start` on. -/
def bindings (setting : Setting) (start : State) (parts : List Declaration) :
    List (Name × Bindable) :=
  (parts.flatMap (Declaration.bindings (setting.reading start) (start.extent.places parts))).map
    setting.draft.label

/-- What the machine has after declarations, `collected` being what is on top of `below`
when they start. -/
structure Declared (setting : Setting) (start : State) (collected : Environment)
    (below : ValueStack) (parts : List Declaration) (after : State) : Prop where
  extent : after.extent = start.extent.after parts
  issued : (setting.reading after).Issued
  older : ∀ address, address.index < start.store.cells.size →
    after.store.get? address = start.store.get? address
  cells : ∀ text initial, .var text initial ∈ parts →
    ∃ value, initial.evaluate (setting.reading start) = .ok (.storable value) ∧
      after.store.get? ((start.extent.places parts).cell text) = some value
  grows : start.closures.Grows after.closures
  closures : ∀ part ∈ parts, ∀ function ∈ part.functions,
    setting.draft.LaysMember after.closures start.environment function
      (setting.draft.label (function.name, (start.extent.places parts).closure function.name))
  groups : ∀ group, .recursive group ∈ parts →
    after.closures.members? ((start.extent.places parts).group (group.map Function.name)) =
      some (group.map fun member =>
        setting.draft.label (member.name, (start.extent.places parts).closure member.name))
  named : ∀ text ∈ parts.flatMap Declaration.names, ∃ name, setting.draft.Names text name
  values : after.values = .declarations (collected.bindAll (setting.bindings start parts)) :: below
  environment : after.environment = start.environment
  region : after.region.addresses = start.region.addresses ++
    (List.range' start.extent.cells (parts.flatMap Declaration.cells).length).map Address.mk
  printer : after.printer = start.printer
  steps : after.steps = start.steps + Declaration.totalCost parts

namespace Declared

variable {collected collectedMiddle : Environment} {below : ValueStack}
  {front back parts : List Declaration} {after : State}

theorem nil (issued : (setting.reading start).Issued)
    (values : start.values = .declarations collected :: below) :
    setting.Declared start collected below [] start where
  extent := rfl
  issued := issued
  older := fun _ _ => rfl
  cells := fun _ _ member => nomatch member
  grows := .refl _
  closures := fun _ member => nomatch member
  groups := fun _ member => nomatch member
  named := fun _ member => nomatch member
  values := values
  environment := rfl
  region := (List.append_nil _).symm
  printer := rfl
  steps := rfl

/-- Declarations add cells to what can be read. -/
theorem extends_reading (declared : setting.Declared start collected below parts after) :
    (setting.reading after).Extends (setting.reading start) :=
  ⟨rfl, declared.environment, declared.older⟩

theorem size_le (declared : setting.Declared start collected below parts after) :
    start.store.cells.size ≤ after.store.cells.size := by
  have cells : after.store.cells.size = (start.extent.after parts).cells :=
    congrArg Extent.cells declared.extent
  rw [cells]
  exact Nat.le_add_right _ _

/-- Declarations one after another make what they do together. -/
theorem append (issued : (setting.reading start).Issued)
    (distinct : Declaration.Distinct (front ++ back))
    (left : setting.Declared start collected below front middle)
    (right : setting.Declared middle collectedMiddle below back after)
    (continued : middle.values = .declarations collectedMiddle :: below) :
    setting.Declared start collected below (front ++ back) after := by
  have sameLeft (part : Declaration) (member : part ∈ front) :
      part.SamePlaces (start.extent.places (front ++ back)) (start.extent.places front) :=
    Declaration.samePlaces_left start.extent member
  have sameRight (part : Declaration) (member : part ∈ back) :
      part.SamePlaces (start.extent.places (front ++ back)) (middle.extent.places back) :=
    left.extent ▸ Declaration.samePlaces_right start.extent distinct member
  have extension := left.extends_reading
  exact {
    extent := by rw [right.extent, left.extent, Extent.after_append]
    issued := right.issued
    older := by
      intro address known
      rw [right.older address (Nat.lt_of_lt_of_le known left.size_le), left.older address known]
    cells := by
      intro text initial member
      rcases List.mem_append.mp member with inFront | inBack
      · rcases left.cells text initial inFront with ⟨value, found, held⟩
        refine ⟨value, found, ?_⟩
        rw [(sameLeft _ inFront).cells text List.mem_cons_self,
          right.older _ (Store.index_lt_of_get? held), held]
      · rcases right.cells text initial inBack with ⟨value, found, held⟩
        refine ⟨value, ?_, ?_⟩
        · rw [← Expr.evaluate_eq_of_extends issued extension, found]
        · rw [(sameRight _ inBack).cells text List.mem_cons_self, held]
    grows := left.grows.trans right.grows
    closures := by
      intro part member function made
      have isMade : function.name ∈ part.closures := List.mem_map_of_mem made
      rcases List.mem_append.mp member with inFront | inBack
      · rw [(sameLeft part inFront).closures _ isMade]
        exact (left.closures part inFront function made).grow right.grows
      · rw [(sameRight part inBack).closures _ isMade]
        exact left.environment ▸ right.closures part inBack function made
    groups := by
      intro group member
      rcases List.mem_append.mp member with inFront | inBack
      · have same := sameLeft _ inFront
        rw [same.groups _ List.mem_cons_self, right.grows.members?_of (left.groups group inFront)]
        apply congrArg some
        apply List.map_congr_left
        intro function isMember
        rw [same.closures _ (Declaration.name_mem_closures isMember)]
      · have same := sameRight _ inBack
        rw [same.groups _ List.mem_cons_self, right.groups group inBack]
        apply congrArg some
        apply List.map_congr_left
        intro function isMember
        rw [same.closures _ (Declaration.name_mem_closures isMember)]
    named := by
      intro text member
      rw [List.flatMap_append] at member
      exact (List.mem_append.mp member).elim (left.named text) (right.named text)
    values := by
      have inFront : front.flatMap (Declaration.bindings (setting.reading start)
            (start.extent.places (front ++ back))) =
          front.flatMap (Declaration.bindings (setting.reading start)
            (start.extent.places front)) :=
        List.flatMap_congr fun part member => (sameLeft part member).bindings_eq
      have inBack : back.flatMap (Declaration.bindings (setting.reading start)
            (start.extent.places (front ++ back))) =
          back.flatMap (Declaration.bindings (setting.reading middle)
            (middle.extent.places back)) := by
        apply List.flatMap_congr
        intro part member
        rw [(sameRight part member).bindings_eq,
          Declaration.bindings_eq_of_extends issued extension]
      have joined : setting.bindings start (front ++ back) =
          setting.bindings start front ++ setting.bindings middle back := by
        simp only [bindings, List.flatMap_append, inFront, inBack, List.map_append]
      have collectedLeft := left.values
      rw [continued] at collectedLeft
      cases collectedLeft
      rw [right.values, joined, Environment.bindAll_append]
    environment := right.environment.trans left.environment
    region := by
      rw [right.region, left.region, left.extent, List.append_assoc, ← List.map_append,
        List.flatMap_append, List.length_append]
      simp only [Extent.after, List.range'_append_1]
    printer := right.printer.trans left.printer
    steps := by
      rw [right.steps, left.steps, Declaration.totalCost_append, Nat.add_assoc] }

variable {control : List Control} {steps : Nat} {name : Name}

theorem cell_var (text : String) (initial : Expr) (value : Storable) :
    (start.extent.places [.var text initial]).cell text = (start.store.allocate value).1 := by
  simp [Extent.places, Declaration.cells, Store.allocate, State.extent]

/-- A cell for a name. -/
theorem var {text : String} {initial : Expr} {value : Storable}
    (issued : (setting.reading start).Issued)
    (found : initial.evaluate (setting.reading start) = .ok (.storable value))
    (named : setting.draft.Names text name) (counted : steps = start.steps + (initial.cost + 4)) :
    setting.Declared start collected below [.var text initial] { start with
      control := control
      values := .declarations
        (collected.bind name (.storable (.location (start.store.allocate value).1))) :: below
      store := (start.store.allocate value).2
      region := start.region.push (start.store.allocate value).1
      steps := steps } where
  extent := by simp [State.extent, Extent.after, Declaration.cells, Declaration.closures,
    Declaration.functions, Declaration.groups, Store.allocate]
  issued := by
    have larger := (start.store.grows_allocate value).size
    exact {
      environment := fun entry member => (issued.environment entry member).mono larger
      cells := Store.Closed.allocate issued.cells (Expr.yields_evaluate issued _ _ found)
      number := fun _ => trivial
      boolean := fun _ => trivial }
  older := by
    intro address known
    have older : address ≠ (start.store.allocate value).1 := by
      rintro rfl
      exact Nat.lt_irrefl _ known
    exact (Store.get?_allocate _ _ _).trans (if_neg older)
  cells := by
    intro other otherInitial member
    cases List.mem_singleton.mp member
    refine ⟨value, found, ?_⟩
    rw [cell_var text initial value]
    exact (Store.get?_allocate _ _ _).trans (if_pos rfl)
  grows := .refl _
  closures := by simp [Declaration.functions]
  groups := by simp
  named := by
    intro other member
    cases List.mem_singleton.mp member
    exact ⟨name, named⟩
  values := by
    simp only [bindings, List.flatMap_cons, List.flatMap_nil, List.append_nil, Declaration.bindings,
      List.map_cons, List.map_nil, Draft.label, named.nameOf_eq, cell_var text initial value]
    rfl
  environment := rfl
  region := rfl
  printer := rfl
  steps := counted

/-- A value for a name. -/
theorem const {text : String} {expr : Expr} {bound : Bindable}
    (issued : (setting.reading start).Issued)
    (found : expr.evaluate (setting.reading start) = .ok bound)
    (named : setting.draft.Names text name) (counted : steps = start.steps + (expr.cost + 2)) :
    setting.Declared start collected below [.const text expr] { start with
      control := control
      values := .declarations (collected.bind name bound) :: below
      steps := steps } where
  extent := rfl
  issued := issued
  older := fun _ _ => rfl
  cells := by simp
  grows := .refl _
  closures := by simp [Declaration.functions]
  groups := by simp
  named := by
    intro other member
    cases List.mem_singleton.mp member
    exact ⟨name, named⟩
  values := by
    simp only [bindings, List.flatMap_cons, List.flatMap_nil, List.append_nil,
      Declaration.bindings, found, List.map_cons, List.map_nil, Draft.label, named.nameOf_eq]
    rfl
  environment := rfl
  region := (List.append_nil _).symm
  printer := rfl
  steps := counted

/-- A closure for a name. -/
theorem function {declared : Function} {table : ClosureTable}
    (issued : (setting.reading start).Issued) (named : setting.draft.Names declared.name name)
    (abstracts : setting.Abstracts start.closures start.environment [declared]
      ([declared].map fun function => setting.draft.label
        (function.name, (start.extent.places [.function declared]).closure function.name)) table)
    (counted : steps = start.steps + 3) :
    setting.Declared start collected below [.function declared] { start with
      control := control
      values := .declarations (collected.bind name
        (.closure (.plain ((start.extent.places [.function declared]).closure declared.name)))) ::
          below
      closures := table
      steps := steps } where
  extent := by
    simp [State.extent, Extent.after, Declaration.cells, Declaration.closures,
      Declaration.functions, Declaration.groups, abstracts.size, abstracts.groupCount]
  issued := issued
  older := fun _ _ => rfl
  cells := by simp
  grows := abstracts.grows
  closures := by
    intro part member function made
    cases List.mem_singleton.mp member
    exact abstracts.laysMember function made
  groups := by simp
  named := by
    intro other member
    cases List.mem_singleton.mp member
    exact ⟨name, named⟩
  values := by
    simp only [bindings, List.flatMap_cons, List.flatMap_nil, List.append_nil, Declaration.bindings,
      List.map_cons, List.map_nil, Draft.label, named.nameOf_eq]
    rfl
  environment := rfl
  region := (List.append_nil _).symm
  printer := rfl
  steps := counted

theorem group_recursive (group : List Function) :
    (start.extent.places [.recursive group]).group (group.map Function.name) =
      ⟨start.closures.groupCount⟩ := by
  simp [Extent.places, Declaration.groups, State.extent]

/-- The members of a group. -/
theorem recursive {group : List Function} {table : ClosureTable}
    (issued : (setting.reading start).Issued)
    (named : ∀ member ∈ group, ∃ name, setting.draft.Names member.name name)
    {members : List Member} (isMembers : members = group.map fun member => setting.draft.label
      (member.name, (start.extent.places [.recursive group]).closure member.name))
    (abstracts : setting.Abstracts start.closures start.environment group members table)
    (counted : steps = start.steps + (group.length + 2)) :
    setting.Declared start collected below [.recursive group] { start with
      control := control
      values := .declarations (collected.bindAll
        (ClosureTable.memberBindings ⟨table.groupCount⟩ members)) :: below
      closures := (table.addGroup members).2
      steps := steps } where
  extent := by
    have size : (table.addGroup members).2.size = start.closures.size + group.length :=
      abstracts.size
    have groupCount : (table.addGroup members).2.groupCount = start.closures.groupCount + 1 := by
      rw [← abstracts.groupCount]
      exact Array.size_push _
    simp [State.extent, Extent.after, Declaration.cells, Declaration.closures,
      Declaration.functions, Declaration.groups, size, groupCount]
  issued := issued
  older := fun _ _ => rfl
  cells := by simp
  grows := abstracts.grows.trans (table.grows_addGroup members)
  closures := by
    intro part member function made
    cases List.mem_singleton.mp member
    have laid := (isMembers ▸ abstracts).laysMember function (List.mem_reverse.mp made)
    exact laid.grow (table.grows_addGroup members)
  groups := by
    intro other member
    cases List.mem_singleton.mp member
    rw [group_recursive, ← isMembers, ← abstracts.groupCount]
    exact table.members?_addGroup_new members
  named := by
    intro text member
    simp only [List.flatMap_cons, List.flatMap_nil, List.append_nil, Declaration.names,
      List.mem_map] at member
    rcases member with ⟨function, isMember, rfl⟩
    exact named function isMember
  values := by
    simp only [bindings, List.flatMap_cons, List.flatMap_nil, List.append_nil, Declaration.bindings,
      ClosureTable.memberBindings, isMembers, List.map_map, group_recursive, abstracts.groupCount]
    rfl
  environment := rfl
  region := (List.append_nil _).symm
  printer := rfl
  steps := counted

end Declared

end Setting

end BlockMachine
