import BlockMachine.Proofs.Identifiers.Renaming
import BlockMachine.Proofs.Translation.WellFormed

namespace BlockMachine

/-! # Code that differs in its names

Code matches other code if it has the same nodes and lists at the same places, but for
names, which correspond. Looking up a node or a list in either then gives what matches. -/

theorem Option.rel_getElem? {Related : α → β → Prop} {left : List α} {right : List β}
    (related : List.Forall₂ Related left right) (index : Nat) :
    Option.Rel Related left[index]? right[index]? := by
  induction related generalizing index with
  | nil => exact .none
  | cons head _ induction =>
      cases index with
      | zero => exact .some head
      | succ index => simpa using induction index

theorem Pool.forall₂_slice {Related : α → α → Prop} {pool other : Pool α}
    (related : List.Forall₂ Related pool.entries.toList other.entries.toList) (span : Span α) :
    List.Forall₂ Related (pool.slice span) (other.slice span) := by
  have sizes : pool.entries.size = other.entries.size := by
    simpa using related.length_eq
  by_cases inside : span.start + span.length ≤ pool.entries.size
  · rw [slice_eq_extract inside, slice_eq_extract (sizes ▸ inside),
      List.extract_eq_take_drop, List.extract_eq_take_drop]
    exact List.forall₂_take _ (List.forall₂_drop _ related)
  · rw [slice, slice, if_neg inside, if_neg (sizes ▸ inside)]
    exact .nil

theorem Pool.span_add_eq {pool other : Pool α} (sizes : pool.entries.size = other.entries.size)
    {entries others : List α} (lengths : entries.length = others.length) :
    (pool.add entries).1 = (other.add others).1 := by
  cases entries with
  | nil =>
      cases others with
      | nil => rfl
      | cons => cases lengths
  | cons =>
      cases others with
      | nil => cases lengths
      | cons => simpa [add, sizes] using lengths

section

variable (Same : Name → Name → Prop)

/-- Whether two entries have the same content under names that correspond. -/
def EntryMatches (entry other : Name × α) : Prop :=
  Same entry.1 other.1 ∧ other.2 = entry.2

/-- Nodes that are equal but for names that correspond. -/
inductive Node.Matches : Node → Node → Prop where
  | nameless {node : Node} (nameless : node.names = []) : Matches node node
  | identifier {name other : Name} (same : Same name other) :
      Matches (.identifier name) (.identifier other)
  | addressOf {name other : Name} (same : Same name other) :
      Matches (.addressOf name) (.addressOf other)
  | valueOf {name other : Name} (same : Same name other) :
      Matches (.valueOf name) (.valueOf other)
  | assign {name other : Name} (same : Same name other) (value : NodeId) :
      Matches (.assign name value) (.assign other value)
  | call {name other : Name} (same : Same name other) (actuals : Span NodeId) :
      Matches (.call name actuals) (.call other actuals)
  | bind {name other : Name} (same : Same name other) (value : NodeId) :
      Matches (.bind name value) (.bind other value)

structure Code.Matches (code other : Code) : Prop where
  nodes : List.Forall₂ (Node.Matches Same) code.nodes.toList other.nodes.toList
  nodeLists : other.nodeLists = code.nodeLists
  nameLists : List.Forall₂ Same code.nameLists.entries.toList other.nameLists.entries.toList
  groups : List.Forall₂ (EntryMatches Same) code.groups.entries.toList
    other.groups.entries.toList

structure Program.Matches (program other : Program) : Prop where
  code : program.code.Matches Same other.code
  root : other.root = program.root

end

variable {Same Now : Name → Name → Prop}

theorem EntryMatches.mono (implies : Subrelation Same Now) {entry other : Name × α}
    (same : EntryMatches Same entry other) : EntryMatches Now entry other :=
  ⟨implies same.1, same.2⟩

theorem Node.Matches.mono (implies : Subrelation Same Now) {node other : Node}
    (same : node.Matches Same other) : node.Matches Now other := by
  cases same with
  | nameless nameless => exact .nameless nameless
  | identifier same => exact .identifier (implies same)
  | addressOf same => exact .addressOf (implies same)
  | valueOf same => exact .valueOf (implies same)
  | assign same value => exact .assign (implies same) value
  | call same actuals => exact .call (implies same) actuals
  | bind same value => exact .bind (implies same) value

namespace Code.Matches

variable {code other : Code}

theorem empty : Code.empty.Matches Same .empty :=
  ⟨.nil, rfl, .nil, .nil⟩

theorem mono (implies : Subrelation Same Now) (same : code.Matches Same other) :
    code.Matches Now other where
  nodes := same.nodes.imp fun _ _ => Node.Matches.mono implies
  nodeLists := same.nodeLists
  nameLists := same.nameLists.imp fun _ _ => implies
  groups := same.groups.imp fun _ _ => EntryMatches.mono implies

/-! ## Reading -/

theorem node? (same : code.Matches Same other) (id : NodeId) :
    Option.Rel (Node.Matches Same) (code.node? id) (other.node? id) := by
  rw [Code.node?, Code.node?, ← Array.getElem?_toList, ← Array.getElem?_toList]
  exact Option.rel_getElem? same.nodes id.index

theorem actuals (same : code.Matches Same other) (span : Span NodeId) :
    other.actuals span = code.actuals span := by
  rw [Code.actuals, Code.actuals, same.nodeLists]

theorem formals (same : code.Matches Same other) (span : Span Name) :
    List.Forall₂ Same (code.formals span) (other.formals span) :=
  Pool.forall₂_slice same.nameLists span

theorem group (same : code.Matches Same other) (span : Span Binding) :
    List.Forall₂ (EntryMatches Same) (code.group span) (other.group span) :=
  Pool.forall₂_slice same.groups span

/-! ## Adding -/

theorem alloc (same : code.Matches Same other) {node otherNode : Node}
    (nodes : node.Matches Same otherNode) :
    (code.alloc node).1 = (other.alloc otherNode).1 ∧
      (code.alloc node).2.Matches Same (other.alloc otherNode).2 := by
  have sizes : code.nodes.size = other.nodes.size := by
    simpa using same.nodes.length_eq
  refine ⟨by simp [Code.alloc, sizes], { same with nodes := ?_ }⟩
  simpa [Code.alloc] using List.rel_append same.nodes (.cons nodes .nil)

theorem allocActuals (same : code.Matches Same other) (ids : List NodeId) :
    (code.allocActuals ids).1 = (other.allocActuals ids).1 ∧
      (code.allocActuals ids).2.Matches Same (other.allocActuals ids).2 := by
  rcases code with ⟨nodes, nodeLists, nameLists, groups⟩
  rcases other with ⟨_, _, _, _⟩
  have lists := same.nodeLists
  simp only at lists
  subst lists
  exact ⟨rfl, { same with nodeLists := rfl }⟩

theorem allocFormals (same : code.Matches Same other) {formals others : List Name}
    (named : List.Forall₂ Same formals others) :
    (code.allocFormals formals).1 = (other.allocFormals others).1 ∧
      (code.allocFormals formals).2.Matches Same (other.allocFormals others).2 := by
  have sizes : code.nameLists.entries.size = other.nameLists.entries.size := by
    simpa using same.nameLists.length_eq
  refine ⟨Pool.span_add_eq sizes named.length_eq, { same with nameLists := ?_ }⟩
  simpa [Code.allocFormals] using List.rel_append same.nameLists named

theorem allocGroup (same : code.Matches Same other) {bindings others : List Binding}
    (entries : List.Forall₂ (EntryMatches Same) bindings others) :
    (code.allocGroup bindings).1 = (other.allocGroup others).1 ∧
      (code.allocGroup bindings).2.Matches Same (other.allocGroup others).2 := by
  have sizes : code.groups.entries.size = other.groups.entries.size := by
    simpa using same.groups.length_eq
  refine ⟨Pool.span_add_eq sizes entries.length_eq, { same with groups := ?_ }⟩
  simpa [Code.allocGroup] using List.rel_append same.groups entries

end Code.Matches

end BlockMachine
