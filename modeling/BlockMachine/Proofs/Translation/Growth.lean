import BlockMachine.Translation.Program

namespace BlockMachine

/-! # Growing drafts

Translation only adds to a draft. What it has established about a node, a span or
a name therefore holds of every draft that comes later, and most of all of the
finished one. -/

/-- One draft is the beginning of another. -/
structure Draft.Extends (earlier later : Draft) : Prop where
  names : earlier.names.texts <+: later.names.texts
  nodes : earlier.code.nodes.toList <+: later.code.nodes.toList
  nodeLists : earlier.code.nodeLists.entries.toList <+: later.code.nodeLists.entries.toList
  nameLists : earlier.code.nameLists.entries.toList <+: later.code.nameLists.entries.toList
  groups : earlier.code.groups.entries.toList <+: later.code.groups.entries.toList

theorem Pool.slice_of_prefix {earlier later : Pool α} {span : Span α}
    (inside : span.start + span.length ≤ earlier.entries.size)
    (grown : earlier.entries.toList <+: later.entries.toList) :
    later.slice span = earlier.slice span := by
  rcases grown with ⟨added, entries⟩
  have sizes := congrArg List.length entries
  simp only [List.length_append, Array.length_toList] at sizes
  have insideLater : span.start + span.length ≤ later.entries.size := by omega
  rw [slice_eq_extract insideLater, slice_eq_extract inside, ← entries,
    List.extract_eq_take_drop, List.extract_eq_take_drop,
    List.drop_append_of_le_length (by simp only [Array.length_toList]; omega),
    List.take_append_of_le_length (by simp only [List.length_drop, Array.length_toList]; omega)]

theorem Pool.span_add_inside (pool : Pool α) (entries : List α) :
    (pool.add entries).1.start + (pool.add entries).1.length ≤ (pool.add entries).2.entries.size := by
  rw [size_entries_add]
  cases entries with
  | nil => simp [add, Span.empty]
  | cons first rest => simp [add]

theorem NameTable.find?_intern (table : NameTable) (text : String) :
    (table.intern text).2.find? text = some (table.intern text).1 :=
  table.toLexicon.find?_intern text

theorem NameTable.prefix_intern (table : NameTable) (text : String) :
    table.texts <+: (table.intern text).2.texts := by
  rw [texts_intern]
  split
  · exact List.prefix_refl _
  · exact List.prefix_append _ _

/-- A text keeps its name while the table grows. -/
theorem NameTable.find?_of_prefix {earlier later : NameTable} {text : String} {name : Name}
    (grown : earlier.texts <+: later.texts) (found : earlier.find? text = some name) :
    later.find? text = some name := by
  rw [find?_eq_some_iff] at found ⊢
  rcases grown with ⟨added, texts⟩
  rw [← texts, List.getElem?_append_left (List.getElem?_eq_some_iff.mp found).1]
  exact found

namespace Draft.Extends

variable {earlier later : Draft}

theorem refl (draft : Draft) : draft.Extends draft :=
  ⟨List.prefix_refl _, List.prefix_refl _, List.prefix_refl _, List.prefix_refl _,
    List.prefix_refl _⟩

theorem trans {first second third : Draft} (left : first.Extends second)
    (right : second.Extends third) : first.Extends third :=
  ⟨left.names.trans right.names, left.nodes.trans right.nodes,
    left.nodeLists.trans right.nodeLists, left.nameLists.trans right.nameLists,
    left.groups.trans right.groups⟩

theorem find? (grows : earlier.Extends later) {text : String} {name : Name}
    (found : earlier.names.find? text = some name) : later.names.find? text = some name :=
  NameTable.find?_of_prefix grows.names found

theorem node? (grows : earlier.Extends later) {id : NodeId} {node : Node}
    (found : earlier.code.node? id = some node) : later.code.node? id = some node := by
  rcases grows.nodes with ⟨added, nodes⟩
  simp only [Code.node?, ← Array.getElem?_toList] at found ⊢
  rw [← nodes, List.getElem?_append_left (List.getElem?_eq_some_iff.mp found).1]
  exact found

end Draft.Extends

namespace Build

/-- Two actions that both succeed, one after the other. -/
theorem exists_of_bind_eq_ok {action : Build α} {next : α → Build β} {draft after : Draft}
    {result : β} (built : (action >>= next) draft = .ok result after) :
    ∃ value middle, action draft = .ok value middle ∧ next value middle = .ok result after := by
  simp only [Bind.bind, EStateM.bind] at built
  cases started : action draft with
  | error rejection middle => simp [started] at built
  | ok value middle =>
      rw [started] at built
      exact ⟨value, middle, rfl, built⟩

/-- Whether an action only adds to a draft, and its result has a property in what
it makes of the draft and in everything later. -/
def Ensures (action : Build α) (Holds : Draft → α → Prop) : Prop :=
  ∀ draft result after, action draft = .ok result after →
    draft.Extends after ∧ ∀ later, after.Extends later → Holds later result

variable {Holds : Draft → α → Prop}

namespace Ensures

theorem mono {action : Build α} {Weaker : Draft → α → Prop} (ensures : action.Ensures Holds)
    (implies : ∀ draft result, Holds draft result → Weaker draft result) :
    action.Ensures Weaker := by
  intro draft result after built
  rcases ensures draft result after built with ⟨grows, holds⟩
  exact ⟨grows, fun later grown => implies later result (holds later grown)⟩

theorem and {action : Build α} {Others : Draft → α → Prop} (left : action.Ensures Holds)
    (right : action.Ensures Others) :
    action.Ensures fun draft result => Holds draft result ∧ Others draft result := by
  intro draft result after built
  obtain ⟨grows, holds⟩ := left draft result after built
  obtain ⟨_, others⟩ := right draft result after built
  exact ⟨grows, fun later grown => ⟨holds later grown, others later grown⟩⟩

theorem pure {result : α} (holds : ∀ draft, Holds draft result) :
    Ensures (Pure.pure result) Holds := by
  intro draft _ after built
  cases built
  exact ⟨.refl _, fun later _ => holds later⟩

/-- What the first action has established may be used for what the second one
does. -/
theorem bind {action : Build α} {next : α → Build β} {Result : Draft → β → Prop}
    (first : action.Ensures Holds)
    (second : ∀ value, (next value).Ensures fun draft result =>
      Holds draft value → Result draft result) :
    (action >>= next).Ensures Result := by
  intro draft result after built
  obtain ⟨value, middle, started, continued⟩ := exists_of_bind_eq_ok built
  rcases first draft value middle started with ⟨grows, holds⟩
  rcases second value middle result after continued with ⟨grown, results⟩
  refine ⟨grows.trans grown, ?_⟩
  intro later extended
  exact results later extended (holds later (grown.trans extended))

theorem reject (rejection : Rejection) : Ensures (reject rejection) Holds := by
  intro draft result after built
  cases built

theorem checked {outcome : Except Rejection α} (holds : ∀ draft value,
    outcome = .ok value → Holds draft value) : Ensures (checked outcome) Holds := by
  unfold Build.checked
  split
  next value => exact pure fun draft => holds draft value rfl
  next => exact reject _

theorem intern (text : String) :
    Ensures (intern text) fun draft name => draft.names.find? text = some name := by
  intro draft result after built
  have built : EStateM.Result.ok (draft.names.intern text).1
      ⟨(draft.names.intern text).2, draft.code⟩ = .ok result after := built
  rcases EStateM.Result.ok.inj built with ⟨rfl, rfl⟩
  have grows : draft.Extends ⟨(draft.names.intern text).2, draft.code⟩ :=
    { Draft.Extends.refl draft with names := draft.names.prefix_intern text }
  refine ⟨grows, ?_⟩
  intro later extended
  exact extended.find? (draft.names.find?_intern text)

theorem alloc (node : Node) :
    Ensures (alloc node) fun draft id => draft.code.node? id = some node := by
  intro draft result after built
  cases built
  refine ⟨{ Draft.Extends.refl draft with nodes := by simp }, ?_⟩
  intro later extended
  have read := draft.code.node?_alloc node (draft.code.alloc node).1
  rw [if_pos rfl] at read
  exact extended.node? read

theorem allocActuals (ids : List NodeId) :
    Ensures (allocActuals ids) fun draft span => draft.code.actuals span = ids := by
  intro draft result after built
  have built : EStateM.Result.ok (draft.code.allocActuals ids).1
      ⟨draft.names, (draft.code.allocActuals ids).2⟩ = .ok result after := built
  rcases EStateM.Result.ok.inj built with ⟨rfl, rfl⟩
  refine ⟨{ Draft.Extends.refl draft with nodeLists := by simp [Code.allocActuals] }, ?_⟩
  intro later extended
  exact (Pool.slice_of_prefix (Pool.span_add_inside _ _) extended.nodeLists).trans
    (Pool.slice_add _ _)

theorem allocFormals (names : List Name) :
    Ensures (allocFormals names) fun draft span => draft.code.formals span = names := by
  intro draft result after built
  have built : EStateM.Result.ok (draft.code.allocFormals names).1
      ⟨draft.names, (draft.code.allocFormals names).2⟩ = .ok result after := built
  rcases EStateM.Result.ok.inj built with ⟨rfl, rfl⟩
  refine ⟨{ Draft.Extends.refl draft with nameLists := by simp [Code.allocFormals] }, ?_⟩
  intro later extended
  exact (Pool.slice_of_prefix (Pool.span_add_inside _ _) extended.nameLists).trans
    (Pool.slice_add _ _)

theorem allocGroup (bindings : List Binding) :
    Ensures (allocGroup bindings) fun draft span => draft.code.group span = bindings := by
  intro draft result after built
  have built : EStateM.Result.ok (draft.code.allocGroup bindings).1
      ⟨draft.names, (draft.code.allocGroup bindings).2⟩ = .ok result after := built
  rcases EStateM.Result.ok.inj built with ⟨rfl, rfl⟩
  refine ⟨{ Draft.Extends.refl draft with groups := by simp [Code.allocGroup] }, ?_⟩
  intro later extended
  exact (Pool.slice_of_prefix (Pool.span_add_inside _ _) extended.groups).trans
    (Pool.slice_add _ _)

end Ensures

end Build

end BlockMachine
