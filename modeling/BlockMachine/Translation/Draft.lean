import BlockMachine.Code.Program
import BlockMachine.Translation.OperandKind

namespace BlockMachine

/-! # Drafts

Translation writes a draft: the code so far, and the names that occur in it. Names
that were interned before a rejection stay in the table. -/

structure Draft where
  names : NameTable
  code : Code
deriving Inhabited

/-- A piece of translation: it extends the draft and yields a result, or rejects
the program and leaves the draft as far as it got. -/
abbrev Build := EStateM Rejection Draft

namespace Build

def intern (text : String) : Build Name :=
  fun ⟨names, code⟩ =>
    let (name, names) := names.intern text
    .ok name ⟨names, code⟩

def alloc (node : Node) : Build NodeId :=
  fun ⟨names, code⟩ =>
    let (id, code) := code.alloc node
    .ok id ⟨names, code⟩

def allocActuals (ids : List NodeId) : Build (Span NodeId) :=
  fun ⟨names, code⟩ =>
    let (span, code) := code.allocActuals ids
    .ok span ⟨names, code⟩

def allocFormals (formals : List Name) : Build (Span Name) :=
  fun ⟨names, code⟩ =>
    let (span, code) := code.allocFormals formals
    .ok span ⟨names, code⟩

def allocGroup (bindings : List Binding) : Build (Span Binding) :=
  fun ⟨names, code⟩ =>
    let (span, code) := code.allocGroup bindings
    .ok span ⟨names, code⟩

def reject (rejection : Rejection) : Build α :=
  fun draft => .error rejection draft

/-- The outcome of a check that does not touch the draft. -/
def checked (outcome : Except Rejection α) : Build α :=
  match outcome with
  | .ok value => pure value
  | .error rejection => reject rejection

end Build

end BlockMachine
