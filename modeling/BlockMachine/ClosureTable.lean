import BlockMachine.Code.Span
import BlockMachine.Code.Node
import BlockMachine.Environment

namespace BlockMachine

/-! # Closures

A closure never changes once it is made, so values refer to it by its position in
a table. The members of a recursive group share a second table entry that lists
them; calling one of them makes all of them visible again. What a block or call
adds to the tables is gone when it ends: on entry it takes a mark, on exit both
tables are cut back to it. -/

/-- A function together with the environment it was made in. -/
structure Closure where
  formals : Span Name
  body : NodeId
  captured : Environment
deriving BEq, Inhabited

/-- A member of a recursive group: its name, and the closure of its function. -/
abbrev Member := Name × ClosureId

structure ClosureTable where
  closures : Array Closure
  groups : Array (List Member)

/-- How much of a closure table to keep. -/
structure Mark where
  closures : Nat
  groups : Nat
deriving DecidableEq, Inhabited, Repr

namespace ClosureTable

def empty : ClosureTable := ⟨#[], #[]⟩

instance : Inhabited ClosureTable := ⟨empty⟩

/-! ## Reading -/

def closure? (table : ClosureTable) (id : ClosureId) : Option Closure :=
  table.closures[id.index]?

def members? (table : ClosureTable) (id : GroupId) : Option (List Member) :=
  table.groups[id.index]?

/-- The bindings of a group: each name goes with its closure, as a member of the
group. -/
def memberBindings (id : GroupId) (members : List Member) : List (Name × Bindable) :=
  members.map fun (name, closure) => (name, .closure (.recursive closure id))

/-- The environment that a group makes. A name that is listed twice stands for its
last member. -/
def groupEnvironment? (table : ClosureTable) (id : GroupId) : Option Environment :=
  (table.members? id).map fun members => .ofList (memberBindings id members)

def size (table : ClosureTable) : Nat :=
  table.closures.size

def groupCount (table : ClosureTable) : Nat :=
  table.groups.size

def isEmpty (table : ClosureTable) : Bool :=
  table.closures.isEmpty

/-! ## Growing and cutting back -/

def insert (table : ClosureTable) (closure : Closure) : ClosureId × ClosureTable :=
  (⟨table.closures.size⟩, { table with closures := table.closures.push closure })

def addGroup (table : ClosureTable) (members : List Member) : GroupId × ClosureTable :=
  (⟨table.groups.size⟩, { table with groups := table.groups.push members })

def mark (table : ClosureTable) : Mark :=
  ⟨table.closures.size, table.groups.size⟩

/-- Drop what lies beyond a mark. A mark beyond the end of a table keeps all of
it. -/
def truncate (table : ClosureTable) (mark : Mark) : ClosureTable :=
  ⟨table.closures.take mark.closures, table.groups.take mark.groups⟩

theorem index_lt_of_closure? {table : ClosureTable} {id : ClosureId} {closure : Closure}
    (found : table.closure? id = some closure) : id.index < table.mark.closures :=
  (Array.getElem?_eq_some_iff.mp found).1

theorem index_lt_of_members? {table : ClosureTable} {id : GroupId} {members : List Member}
    (found : table.members? id = some members) : id.index < table.mark.groups :=
  (Array.getElem?_eq_some_iff.mp found).1

theorem closure?_insert (table : ClosureTable) (closure : Closure) (id : ClosureId) :
    (table.insert closure).2.closure? id =
      if id = (table.insert closure).1 then some closure else table.closure? id := by
  cases id
  simp [closure?, insert, Array.getElem?_push]

theorem members?_addGroup (table : ClosureTable) (members : List Member) (id : GroupId) :
    (table.addGroup members).2.members? id =
      if id = (table.addGroup members).1 then some members else table.members? id := by
  cases id
  simp [members?, addGroup, Array.getElem?_push]

theorem closure?_truncate (table : ClosureTable) (mark : Mark) (id : ClosureId) :
    (table.truncate mark).closure? id =
      if id.index < mark.closures then table.closure? id else none := by
  simp only [closure?, truncate, Array.take_eq_extract, Array.getElem?_extract]
  grind

theorem members?_truncate (table : ClosureTable) (mark : Mark) (id : GroupId) :
    (table.truncate mark).members? id =
      if id.index < mark.groups then table.members? id else none := by
  simp only [members?, truncate, Array.take_eq_extract, Array.getElem?_extract]
  grind

/-- Cutting back to a mark just taken changes nothing. -/
@[simp] theorem truncate_mark (table : ClosureTable) : table.truncate table.mark = table := by
  simp [truncate, mark]

end ClosureTable

end BlockMachine
