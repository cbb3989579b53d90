import BlockMachine.Code.Node

namespace BlockMachine

/-! # Code

All nodes of a program lie in one table, in the order in which they were
created. Children of varying number are kept in three pools beside it. Entries
are only ever added, so a node number or a span keeps its meaning. -/

/-- The nodes of a program and the lists that they refer to. -/
structure Code where
  nodes : Array Node
  nodeLists : Pool NodeId
  nameLists : Pool Name
  groups : Pool Binding
deriving Repr

namespace Code

def empty : Code := ⟨#[], .empty, .empty, .empty⟩

instance : Inhabited Code := ⟨empty⟩

def size (code : Code) : Nat :=
  code.nodes.size

def isEmpty (code : Code) : Bool :=
  code.nodes.isEmpty

/-! ## Nodes -/

def node? (code : Code) (id : NodeId) : Option Node :=
  code.nodes[id.index]?

/-- Add a node; its number is how many there were before. -/
def alloc (code : Code) (node : Node) : NodeId × Code :=
  (⟨code.nodes.size⟩, { code with nodes := code.nodes.push node })

/-- After an allocation the new number reads as the new node, and every other
number as before. -/
theorem node?_alloc (code : Code) (node : Node) (id : NodeId) :
    (code.alloc node).2.node? id =
      if id = (code.alloc node).1 then some node else code.node? id := by
  cases id
  simp [node?, alloc, Array.getElem?_push]

/-! ## Lists -/

/-- The actuals of a call. -/
def actuals (code : Code) (span : Span NodeId) : List NodeId :=
  code.nodeLists.slice span

/-- The formals of an abstraction. -/
def formals (code : Code) (span : Span Name) : List Name :=
  code.nameLists.slice span

/-- The members of a recursive group. -/
def group (code : Code) (span : Span Binding) : List Binding :=
  code.groups.slice span

def allocActuals (code : Code) (ids : List NodeId) : Span NodeId × Code :=
  match code with
  | ⟨nodes, nodeLists, nameLists, groups⟩ =>
    let (span, grown) := nodeLists.add ids
    (span, ⟨nodes, grown, nameLists, groups⟩)

def allocFormals (code : Code) (names : List Name) : Span Name × Code :=
  match code with
  | ⟨nodes, nodeLists, nameLists, groups⟩ =>
    let (span, grown) := nameLists.add names
    (span, ⟨nodes, nodeLists, grown, groups⟩)

def allocGroup (code : Code) (bindings : List Binding) : Span Binding × Code :=
  match code with
  | ⟨nodes, nodeLists, nameLists, groups⟩ =>
    let (span, grown) := groups.add bindings
    (span, ⟨nodes, nodeLists, nameLists, grown⟩)

@[simp] theorem actuals_allocActuals (code : Code) (ids : List NodeId) :
    (code.allocActuals ids).2.actuals (code.allocActuals ids).1 = ids := by
  simp [actuals, allocActuals]

@[simp] theorem formals_allocFormals (code : Code) (names : List Name) :
    (code.allocFormals names).2.formals (code.allocFormals names).1 = names := by
  simp [formals, allocFormals]

@[simp] theorem group_allocGroup (code : Code) (bindings : List Binding) :
    (code.allocGroup bindings).2.group (code.allocGroup bindings).1 = bindings := by
  simp [group, allocGroup]

end Code

/-- Code and the node at which it is entered. -/
structure Program where
  code : Code
  root : NodeId
deriving Inhabited, Repr

end BlockMachine
