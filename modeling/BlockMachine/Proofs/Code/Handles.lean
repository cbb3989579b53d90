import BlockMachine.Proofs.Translation.Growth
import Mathlib.Data.List.Basic

namespace BlockMachine

/-! # Handles

What is added to code is referred to by a handle: a node by its number, a list by its span.
Additions of all kinds may come in any order. Each table of the code holds what was added to
it, in order, so a handle goes on standing for what it was given for. -/

/-- Whether a list is what a span of a table reads as: its entries one by one if it lies
wholly inside the table, and nothing at all if it does not. -/
def Span.Reads (span : Span α) (table list : List α) : Prop :=
  if span.start + span.length ≤ table.length then
    list.length = span.length ∧
      ∀ offset < span.length, list[offset]? = table[span.start + offset]?
  else
    list = []

namespace Pool

theorem reads_slice (pool : Pool α) (span : Span α) :
    span.Reads pool.entries.toList (pool.slice span) := by
  rw [Span.Reads, Array.length_toList]
  split
  next inside =>
    rw [slice_eq_extract inside, List.extract_eq_take_drop, Nat.add_sub_cancel_left]
    constructor
    · rw [List.length_take, List.length_drop, Array.length_toList]
      omega
    · intro offset isInside
      rw [List.getElem?_take_of_lt isInside, List.getElem?_drop]
  next outside => rw [slice, if_neg outside]

/-- A list that was added is read through its span however much the pool has grown. -/
theorem slice_of_added (pool : Pool α) {later : Pool α} {entries : List α}
    (grown : (pool.add entries).2.entries.toList <+: later.entries.toList) :
    later.slice (pool.add entries).1 = entries := by
  have unchanged := slice_of_prefix (pool.span_add_inside entries) grown
  rw [unchanged, slice_add]

end Pool

namespace Code

/-- What can be added to code. -/
inductive Addition where
  | node (node : Node)
  | actuals (ids : List NodeId)
  | formals (names : List Name)
  | group (bindings : List Binding)

/-- What refers to an addition. -/
inductive Handle where
  | node (id : NodeId)
  | actuals (span : Span NodeId)
  | formals (span : Span Name)
  | group (span : Span Binding)

namespace Addition

/-! What an addition adds to each of the tables. -/

def nodes : Addition → List Node
  | .node added => [added]
  | _ => []

def ids : Addition → List NodeId
  | .actuals ids => ids
  | _ => []

def names : Addition → List Name
  | .formals names => names
  | _ => []

def bindings : Addition → List Binding
  | .group bindings => bindings
  | _ => []

end Addition

/-- Add to code; the handle is for finding the addition again. -/
def add (code : Code) : Addition → Handle × Code
  | .node node => (code.alloc node).map .node id
  | .actuals ids => (code.allocActuals ids).map .actuals id
  | .formals names => (code.allocFormals names).map .formals id
  | .group bindings => (code.allocGroup bindings).map .group id

/-- What a handle stands for. A span always stands for a list. -/
def resolve? (code : Code) : Handle → Option Addition
  | .node id => (code.node? id).map .node
  | .actuals span => some (.actuals (code.actuals span))
  | .formals span => some (.formals (code.formals span))
  | .group span => some (.group (code.group span))

/-- The code after some additions. -/
def addAll (code : Code) (additions : List Addition) : Code :=
  additions.foldl (fun grown addition => (grown.add addition).2) code

/-! ## Tables -/

/-- A table to which each addition appends its share holds all their shares, in order. -/
theorem addAll_appends (table : Code → List α) (share : Addition → List α)
    (appends : ∀ code addition, table (code.add addition).2 = table code ++ share addition)
    (code : Code) (additions : List Addition) :
    table (code.addAll additions) = table code ++ additions.flatMap share := by
  induction additions generalizing code with
  | nil => simp [addAll]
  | cons addition rest induction =>
      have step : code.addAll (addition :: rest) = (code.add addition).2.addAll rest := rfl
      rw [step, induction, appends, List.flatMap_cons, List.append_assoc]

/-- An addition appends its share to each table. -/
theorem tables_add (code : Code) (addition : Addition) :
    let grown := (code.add addition).2
    grown.nodes.toList = code.nodes.toList ++ addition.nodes ∧
    grown.nodeLists.entries.toList = code.nodeLists.entries.toList ++ addition.ids ∧
    grown.nameLists.entries.toList = code.nameLists.entries.toList ++ addition.names ∧
    grown.groups.entries.toList = code.groups.entries.toList ++ addition.bindings := by
  cases addition <;>
    simp [add, alloc, allocActuals, allocFormals, allocGroup, Addition.nodes, Addition.ids,
      Addition.names, Addition.bindings]

theorem nodes_addAll (code : Code) (additions : List Addition) :
    (code.addAll additions).nodes.toList = code.nodes.toList ++ additions.flatMap (·.nodes) :=
  addAll_appends (·.nodes.toList) (·.nodes) (fun code added => (code.tables_add added).1)
    code additions

theorem nodeLists_addAll (code : Code) (additions : List Addition) :
    (code.addAll additions).nodeLists.entries.toList =
      code.nodeLists.entries.toList ++ additions.flatMap (·.ids) :=
  addAll_appends (·.nodeLists.entries.toList) (·.ids)
    (fun code added => (code.tables_add added).2.1) code additions

theorem nameLists_addAll (code : Code) (additions : List Addition) :
    (code.addAll additions).nameLists.entries.toList =
      code.nameLists.entries.toList ++ additions.flatMap (·.names) :=
  addAll_appends (·.nameLists.entries.toList) (·.names)
    (fun code added => (code.tables_add added).2.2.1) code additions

theorem groups_addAll (code : Code) (additions : List Addition) :
    (code.addAll additions).groups.entries.toList =
      code.groups.entries.toList ++ additions.flatMap (·.bindings) :=
  addAll_appends (·.groups.entries.toList) (·.bindings)
    (fun code added => (code.tables_add added).2.2.2) code additions

/-! ## Handles -/

theorem addAll_append (code : Code) (earlier later : List Addition) :
    code.addAll (earlier ++ later) = (code.addAll earlier).addAll later :=
  List.foldl_append ..

/-- What a handle was given for is found under it after any further additions. -/
theorem resolve?_addAll (code : Code) (addition : Addition) (later : List Addition) :
    ((code.add addition).2.addAll later).resolve? (code.add addition).1 = some addition := by
  cases addition with
  | node node =>
      have grown := nodes_addAll (code.alloc node).2 later
      have found : ((code.alloc node).2.addAll later).node? (code.alloc node).1 = some node := by
        rw [node?, ← Array.getElem?_toList, grown]
        simp [alloc]
      exact congrArg (Option.map Addition.node) found
  | actuals ids =>
      have grown := nodeLists_addAll (code.allocActuals ids).2 later
      have read := code.nodeLists.slice_of_added ⟨_, grown.symm⟩
      exact congrArg (some ∘ Addition.actuals) read
  | formals names =>
      have grown := nameLists_addAll (code.allocFormals names).2 later
      have read := code.nameLists.slice_of_added ⟨_, grown.symm⟩
      exact congrArg (some ∘ Addition.formals) read
  | group bindings =>
      have grown := groups_addAll (code.allocGroup bindings).2 later
      have read := code.groups.slice_of_added ⟨_, grown.symm⟩
      exact congrArg (some ∘ Addition.group) read

/-- Handles stay valid, whatever is added to code and in whatever order. Nodes are numbered
from zero on, without gaps, in the order in which they were added, and nothing else has a
number. A handle stands for what it was given for, then and after any further additions. Each
table holds the lists that were added to it, end to end, and a span, whether it was given out
or not, reads as the entries that it covers, or as the empty list if it does not lie wholly
inside its table. -/
theorem handles_stay_valid (history : List Addition) :
    let code := empty.addAll history
    (∀ node, (code.alloc node).1 = ⟨(history.flatMap (·.nodes)).length⟩) ∧
    (∀ id, code.node? id = (history.flatMap (·.nodes))[id.index]?) ∧
    (∀ addition later,
      (empty.addAll (history ++ addition :: later)).resolve? (code.add addition).1 =
        some addition) ∧
    (∀ span : Span NodeId, span.Reads (history.flatMap (·.ids)) (code.actuals span)) ∧
    (∀ span : Span Name, span.Reads (history.flatMap (·.names)) (code.formals span)) ∧
    ∀ span : Span Binding, span.Reads (history.flatMap (·.bindings)) (code.group span) := by
  intro code
  have nodes : code.nodes.toList = history.flatMap (·.nodes) := nodes_addAll empty history
  refine ⟨?numbered, ?found, ?resolved, ?actuals, ?formals, ?group⟩
  case numbered =>
    intro node
    rw [← nodes, Array.length_toList]
    rfl
  case found =>
    intro id
    rw [← nodes, node?, Array.getElem?_toList]
  case resolved =>
    intro addition later
    rw [addAll_append]
    exact code.resolve?_addAll addition later
  case actuals =>
    have entries : code.nodeLists.entries.toList = history.flatMap (·.ids) :=
      nodeLists_addAll empty history
    exact fun span => entries ▸ code.nodeLists.reads_slice span
  case formals =>
    have entries : code.nameLists.entries.toList = history.flatMap (·.names) :=
      nameLists_addAll empty history
    exact fun span => entries ▸ code.nameLists.reads_slice span
  case group =>
    have entries : code.groups.entries.toList = history.flatMap (·.bindings) :=
      groups_addAll empty history
    exact fun span => entries ▸ code.groups.reads_slice span

/-- The last of three names can be read, but not the last one and another. -/
example :
    let code := empty.addAll [.formals [⟨1⟩, ⟨2⟩], .node .noOp, .formals [], .formals [⟨3⟩]]
    code.formals ⟨2, 1⟩ = [⟨3⟩] ∧ code.formals ⟨2, 2⟩ = [] := by decide

end Code

end BlockMachine
