import BlockMachine.Proofs.Machine.Rules
import BlockMachine.Proofs.Translation.Layout
import BlockMachine.Proofs.Translation.Sharing
import BlockMachine.Proofs.Translation.Tiling

namespace BlockMachine

/-! # Well-formed drafts

Translation allocates a node after its children, and the list of a node right before it,
but for the formals of a function, which are laid down before its body is translated. The
invariant of drafts says what all nodes have so far, and which lists of formals still wait
for their abstraction. -/

namespace Node

/-- The names that a node mentions itself. -/
def names : Node → List Name
  | .identifier name | .addressOf name | .valueOf name => [name]
  | .assign target _ => [target]
  | .call callee _ => [callee]
  | .bind name _ => [name]
  | _ => []

def actuals? : Node → Option (Span NodeId)
  | .call _ actuals => some actuals
  | _ => none

def formals? : Node → Option (Span Name)
  | .abstraction formals _ => some formals
  | _ => none

def group? : Node → Option (Span Binding)
  | .recBind group => some group
  | _ => none

/-- Whether a node refers to no list. -/
def IsPlain (node : Node) : Prop :=
  node.actuals? = none ∧ node.formals? = none ∧ node.group? = none

theorem isPlain_ofOperator (op : BinaryOperator) (lhs rhs : NodeId) :
    (ofOperator op lhs rhs).IsPlain := by
  cases op <;> exact ⟨rfl, rfl, rfl⟩

@[simp] theorem names_ofOperator (op : BinaryOperator) (lhs rhs : NodeId) :
    (ofOperator op lhs rhs).names = [] := by
  cases op <;> rfl

end Node

namespace Code

variable (code : Code)

/-- The spans of all calls, in the order of the nodes. -/
def actualSpans : List (Span NodeId) :=
  code.nodes.toList.filterMap Node.actuals?

/-- The spans of all abstractions. -/
def formalSpans : List (Span Name) :=
  code.nodes.toList.filterMap Node.formals?

/-- The spans of all recursive bindings. -/
def groupSpans : List (Span Binding) :=
  code.nodes.toList.filterMap Node.group?

/-- All names in code: those in its nodes, in its lists of formals and in its groups. -/
def names : List Name :=
  code.nodes.toList.flatMap Node.names ++
    (code.nameLists.entries.toList ++ code.groups.entries.toList.map Prod.fst)

variable {code} in
theorem mem_nodes_iff {node : Node} :
    node ∈ code.nodes.toList ↔ ∃ id, code.node? id = some node := by
  rw [List.mem_iff_getElem?]
  constructor
  · rintro ⟨index, found⟩
    rw [Array.getElem?_toList] at found
    exact ⟨⟨index⟩, found⟩
  · rintro ⟨id, fetched⟩
    exact ⟨id.index, by rw [Array.getElem?_toList]; exact fetched⟩

end Code

/-! ## The invariant -/

/-- What a node of a draft has to have, whatever comes after it. -/
structure Node.Fits (draft : Draft) (id : NodeId) (node : Node) : Prop where
  children : ∀ child ∈ node.children draft.code, child.index < id.index
  names : ∀ name ∈ node.names, name.index < draft.names.size
  function : ∀ span body, node = .abstraction span body → (draft.code.formals span).Nodup ∧
    ∃ declarations commands, draft.code.node? body = some (.block declarations commands)
  group : ∀ span, node = .recBind span →
    draft.code.group span ≠ [] ∧ Node.AreFunctions draft.code (draft.code.group span)

/-- Whether all nodes of a draft fit and its lists, together with those formals that wait
for their abstraction, tile their pools. -/
structure Draft.WellFormed (draft : Draft) (waiting : List (Span Name)) : Prop where
  nodes : ∀ id node, draft.code.node? id = some node → node.Fits draft id
  actuals : draft.code.nodeLists.Tiled draft.code.actualSpans
  formals : draft.code.nameLists.Tiled (waiting ++ draft.code.formalSpans)
  groups : draft.code.groups.Tiled draft.code.groupSpans
  listed : ∀ name ∈ draft.code.nameLists.entries.toList, name.index < draft.names.size
  grouped : ∀ binding ∈ draft.code.groups.entries.toList, binding.1.index < draft.names.size

namespace Draft

variable {draft later : Draft} {waiting : List (Span Name)} {id : NodeId} {node : Node}

theorem Extends.names_size_le (grows : draft.Extends later) :
    draft.names.size ≤ later.names.size :=
  grows.names.length_le

theorem Extends.actuals_eq (grows : draft.Extends later) {span : Span NodeId}
    (inside : span.start + span.length ≤ draft.code.nodeLists.entries.size) :
    later.code.actuals span = draft.code.actuals span :=
  Pool.slice_of_prefix inside grows.nodeLists

theorem Extends.formals_eq (grows : draft.Extends later) {span : Span Name}
    (inside : span.start + span.length ≤ draft.code.nameLists.entries.size) :
    later.code.formals span = draft.code.formals span :=
  Pool.slice_of_prefix inside grows.nameLists

theorem Extends.group_eq (grows : draft.Extends later) {span : Span Binding}
    (inside : span.start + span.length ≤ draft.code.groups.entries.size) :
    later.code.group span = draft.code.group span :=
  Pool.slice_of_prefix inside grows.groups

theorem wellFormed_empty (names : NameTable) : WellFormed ⟨names, .empty⟩ [] where
  nodes := by
    intro id node fetched
    cases fetched
  actuals := Pool.tiled_empty
  formals := Pool.tiled_empty
  groups := Pool.tiled_empty
  listed := by simp [Code.empty, Pool.empty]
  grouped := by simp [Code.empty, Pool.empty]

namespace WellFormed

/-- A node that fits goes on fitting. -/
theorem grow (formed : draft.WellFormed waiting) (grows : draft.Extends later)
    (fetched : draft.code.node? id = some node) : node.Fits later id := by
  have fits := formed.nodes id node fetched
  have member := Code.mem_nodes_iff.mpr ⟨id, fetched⟩
  refine ⟨?_, ?_, ?_, ?_⟩
  · have same : node.children later.code = node.children draft.code := by
      cases node with
      | call callee span =>
          exact grows.actuals_eq (formed.actuals.inside span (List.mem_filterMap.mpr ⟨_, member, rfl⟩))
      | recBind span =>
          exact congrArg _ (grows.group_eq
            (formed.groups.inside span (List.mem_filterMap.mpr ⟨_, member, rfl⟩)))
      | _ => rfl
    rw [same]
    exact fits.children
  · intro name mentioned
    exact Nat.lt_of_lt_of_le (fits.names name mentioned) grows.names_size_le
  · rintro span body rfl
    obtain ⟨distinct, declarations, commands, found⟩ := fits.function span body rfl
    rw [grows.formals_eq (formed.formals.inside span (List.mem_append_right _
      (List.mem_filterMap.mpr ⟨_, member, rfl⟩)))]
    exact ⟨distinct, declarations, commands, grows.node? found⟩
  · rintro span rfl
    obtain ⟨notEmpty, functions⟩ := fits.group span rfl
    rw [grows.group_eq (formed.groups.inside span (List.mem_filterMap.mpr ⟨_, member, rfl⟩))]
    refine ⟨notEmpty, fun binding isMember => ?_⟩
    obtain ⟨formals, body, found⟩ := functions binding isMember
    exact ⟨formals, body, grows.node? found⟩

/-- A draft with one more node, which fits and is given its lists. -/
theorem push {left : List (Span Name)} (formed : draft.WellFormed waiting)
    (grows : draft.Extends later) (nodes : later.code.nodes = draft.code.nodes.push node)
    (fits : node.Fits later ⟨draft.code.nodes.size⟩)
    (actuals : later.code.nodeLists.Tiled (node.actuals?.toList ++ draft.code.actualSpans))
    (formals : later.code.nameLists.Tiled
      (node.formals?.toList ++ (left ++ draft.code.formalSpans)))
    (groups : later.code.groups.Tiled (node.group?.toList ++ draft.code.groupSpans))
    (listed : ∀ name ∈ later.code.nameLists.entries.toList, name.index < later.names.size)
    (grouped : ∀ binding ∈ later.code.groups.entries.toList,
      binding.1.index < later.names.size) :
    later.WellFormed left := by
  have appended {α : Type} (view : Node → Option α) : later.code.nodes.toList.filterMap view =
      draft.code.nodes.toList.filterMap view ++ (view node).toList := by
    rw [nodes, Array.toList_push, List.filterMap_append]
    cases viewed : view node <;> simp [viewed]
  refine ⟨?_, ?_, ?_, ?_, listed, grouped⟩
  · intro id found fetched
    rw [Code.node?, nodes, Array.getElem?_push] at fetched
    split at fetched
    next newest =>
      cases fetched
      obtain rfl : id = ⟨draft.code.nodes.size⟩ := congrArg NodeId.mk newest
      exact fits
    next => exact formed.grow grows fetched
  · rw [Code.actualSpans, appended]
    exact actuals.perm List.perm_append_comm
  · rw [Code.formalSpans, appended, ← List.append_assoc]
    exact formals.perm List.perm_append_comm
  · rw [Code.groupSpans, appended]
    exact groups.perm List.perm_append_comm

/-- A draft in which nothing but names has been added. -/
theorem rename {names : NameTable} {code : Code} (formed : WellFormed ⟨names, code⟩ waiting)
    {table : NameTable} (grows : Extends ⟨names, code⟩ ⟨table, code⟩) :
    WellFormed ⟨table, code⟩ waiting where
  nodes := fun _ _ fetched => formed.grow grows fetched
  actuals := formed.actuals
  formals := formed.formals
  groups := formed.groups
  listed := fun name member =>
    Nat.lt_of_lt_of_le (formed.listed name member) grows.names_size_le
  grouped := fun binding member =>
    Nat.lt_of_lt_of_le (formed.grouped binding member) grows.names_size_le

end WellFormed

/-- Whether a node of a draft has a number. -/
def Knows (draft : Draft) (id : NodeId) : Prop :=
  id.index < draft.code.nodes.size

theorem knows_of_node? (fetched : draft.code.node? id = some node) : draft.Knows id :=
  (Array.getElem?_eq_some_iff.mp fetched).1

/-- Whether a node that refers to no list may be added to a draft. -/
structure Admits (draft : Draft) (node : Node) : Prop where
  plain : node.IsPlain
  children : ∀ code, ∀ child ∈ node.children code, draft.Knows child
  names : ∀ name ∈ node.names, name.index < draft.names.size

end Draft

/-! ## What translation keeps -/

namespace Build

/-- Whether an action keeps drafts well-formed that have a property, and go on having it
while they grow. -/
def Keeps (Given : Draft → Prop) (action : Build α) : Prop :=
  ∀ draft result after waiting, (∀ later, draft.Extends later → Given later) →
    draft.WellFormed waiting → action draft = .ok result after → after.WellFormed waiting

namespace Keeps

variable {Given : Draft → Prop}

theorem mono {Weaker : Draft → Prop} {action : Build α} (keeps : Keeps Weaker action)
    (implies : ∀ draft, Given draft → Weaker draft) : Keeps Given action :=
  fun draft result after waiting given =>
    keeps draft result after waiting fun later grown => implies later (given later grown)

theorem free {action : Build α} (keeps : Keeps (fun _ => True) action) : Keeps Given action :=
  keeps.mono fun _ _ => trivial

theorem pure {result : α} : Keeps Given (Pure.pure result) := by
  intro draft _ after waiting _ formed built
  cases built
  exact formed

/-- What the first action has established may be used for the second one. -/
theorem bind {action : Build α} {next : α → Build β} {Holds : Draft → α → Prop}
    (ensures : action.Ensures Holds) (first : Keeps Given action)
    (second : ∀ value, Keeps (fun draft => Given draft ∧ Holds draft value) (next value)) :
    Keeps Given (action >>= next) := by
  intro draft result after waiting given formed built
  obtain ⟨value, middle, started, continued⟩ := exists_of_bind_eq_ok built
  obtain ⟨grows, holds⟩ := ensures draft value middle started
  refine second value middle result after waiting ?_ ?_ continued
  · exact fun later grown => ⟨given later (grows.trans grown), holds later grown⟩
  · exact first draft value middle waiting given formed started

theorem reject (rejection : Rejection) : Keeps Given (reject rejection : Build α) := by
  intro draft result after waiting _ _ built
  cases built

theorem checked (outcome : Except Rejection α) : Keeps Given (checked outcome) := by
  unfold Build.checked
  split
  · exact pure
  · exact reject _

theorem intern (text : String) : Keeps Given (intern text) := by
  intro draft result after waiting _ formed built
  have grows := (Ensures.intern text draft result after built).1
  cases built
  exact formed.rename grows

theorem alloc {node : Node} (admits : ∀ draft, Given draft → draft.Admits node) :
    Keeps Given (alloc node) := by
  intro draft result after waiting given formed built
  have grows := (Ensures.alloc node draft result after built).1
  obtain ⟨⟨noActuals, noFormals, noGroup⟩, children, names⟩ := admits draft (given draft (.refl _))
  cases built
  refine formed.push grows rfl ⟨?_, ?_, ?_, ?_⟩ ?_ ?_ ?_ formed.listed formed.grouped
  · exact children _
  · exact names
  · rintro span body rfl
    cases noFormals
  · rintro span rfl
    cases noGroup
  · rw [noActuals]
    exact formed.actuals
  · rw [noFormals]
    exact formed.formals
  · rw [noGroup]
    exact formed.groups

/-- A call is added together with its list of actuals. -/
theorem allocCall {callee : Name} {ids : List NodeId}
    (knows : ∀ draft, Given draft →
      (∀ id ∈ ids, draft.Knows id) ∧ callee.index < draft.names.size) :
    Keeps Given (do
      let actuals ← allocActuals ids
      Build.alloc (.call callee actuals)) := by
  intro draft result after waiting given formed built
  obtain ⟨below, named⟩ := knows draft (given draft (.refl _))
  have grows : draft.Extends after := (Ensures.bind (Ensures.allocActuals ids) fun span =>
    (Ensures.alloc (.call callee span)).mono fun _ _ _ _ => trivial) draft result after built |>.1
  have read := draft.code.actuals_allocActuals ids
  cases built
  refine formed.push grows rfl ⟨?_, ?_, ?_, ?_⟩ (formed.actuals.add ids) formed.formals
    formed.groups formed.listed formed.grouped
  · intro child member
    exact below child (read ▸ member)
  · exact List.forall_mem_singleton.mpr named
  · rintro _ _ ⟨⟩
  · rintro _ ⟨⟩

/-- So is a recursive binding with its group. -/
theorem allocRecBind {bindings : List Binding} (notEmpty : bindings ≠ [])
    (knows : ∀ draft, Given draft → Node.AreFunctions draft.code bindings ∧
      ∀ binding ∈ bindings, binding.1.index < draft.names.size) :
    Keeps Given (do
      let group ← allocGroup bindings
      Build.alloc (.recBind group)) := by
  intro draft result after waiting given formed built
  obtain ⟨functions, named⟩ := knows draft (given draft (.refl _))
  have grows : draft.Extends after := (Ensures.bind (Ensures.allocGroup bindings) fun span =>
    (Ensures.alloc (.recBind span)).mono fun _ _ _ _ => trivial) draft result after built |>.1
  have read := draft.code.group_allocGroup bindings
  cases built
  refine formed.push grows rfl ⟨?_, ?_, ?_, ?_⟩ formed.actuals formed.formals
    (formed.groups.add bindings) formed.listed (Pool.forall_mem_add formed.grouped named)
  · intro child member
    obtain ⟨binding, isMember, rfl⟩ := List.mem_map.mp member
    obtain ⟨formals, body, found⟩ := functions binding (read ▸ isMember)
    exact Draft.knows_of_node? found
  · exact List.forall_mem_nil _
  · rintro _ _ ⟨⟩
  · rintro _ ⟨⟩
    refine ⟨fun empty => notEmpty (read.symm.trans empty), fun binding isMember => ?_⟩
    obtain ⟨formals, body, found⟩ := functions binding (read ▸ isMember)
    exact ⟨formals, body, grows.node? found⟩

/-- The formals of a function wait while its body is translated. -/
theorem abstraction {names : List Name} {inner : Build NodeId} {next : NodeId → Build β}
    (knows : ∀ draft, Given draft → names.Nodup ∧ ∀ name ∈ names, name.index < draft.names.size)
    (keeps : Keeps Given inner) (block : inner.Ensures fun draft id =>
      ∃ declarations commands, draft.code.node? id = some (.block declarations commands))
    (rest : ∀ closure, Keeps Given (next closure)) :
    Keeps Given (do
      let span ← allocFormals names
      let body ← inner
      let closure ← Build.alloc (.abstraction span body)
      next closure) := by
  intro draft result after waiting given formed built
  obtain ⟨distinct, named⟩ := knows draft (given draft (.refl _))
  obtain ⟨span, listed, laid, built⟩ := exists_of_bind_eq_ok built
  obtain ⟨body, middle, started, built⟩ := exists_of_bind_eq_ok built
  obtain ⟨closure, last, made, built⟩ := exists_of_bind_eq_ok built
  obtain ⟨grows, list⟩ := Ensures.allocFormals names draft span listed laid
  obtain ⟨grown, isBlock⟩ := block listed body middle started
  have allocated := (Ensures.alloc _ middle closure last made).1
  have formedListed : listed.WellFormed (span :: waiting) := by
    cases laid
    exact ⟨fun id node fetched => formed.grow grows fetched, formed.actuals,
      formed.formals.add names, formed.groups, Pool.forall_mem_add formed.listed named,
      formed.grouped⟩
  have formedMiddle : middle.WellFormed (span :: waiting) :=
    keeps listed body middle _ (fun later extended => given later (grows.trans extended))
      formedListed started
  refine rest closure last result after waiting (fun later extended =>
    given later (grows.trans (grown.trans (allocated.trans extended)))) ?_ built
  obtain ⟨declarations, commands, found⟩ := isBlock middle (.refl _)
  have read : last.code.formals span = names := list last (grown.trans allocated)
  cases made
  -- The span of the formals stops waiting: it is now the abstraction's.
  refine formedMiddle.push allocated rfl ⟨?_, ?_, ?_, ?_⟩ formedMiddle.actuals
    formedMiddle.formals formedMiddle.groups formedMiddle.listed formedMiddle.grouped
  · exact List.forall_mem_singleton.mpr (Draft.knows_of_node? found)
  · exact List.forall_mem_nil _
  · rintro _ _ ⟨⟩
    rw [read]
    exact ⟨distinct, declarations, commands, allocated.node? found⟩
  · rintro _ ⟨⟩

end Keeps

end Build

end BlockMachine
