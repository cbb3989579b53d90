import BlockMachine.Surface
import BlockMachine.Translation.Draft

namespace BlockMachine

/-! # Translation

A surface program becomes code in one pass. Every construct translates its parts
before itself, so a node's children have smaller numbers than the node; an
identifier is interned where the pass meets it. The pass visits the value of an
assignment before its target, the actuals of a call before its callee, the value
of a declaration before its name, and the formals of a function before its body,
and the body before the function's name. -/

namespace Build

/-! ## Sequences -/

/-- Run `first` and then each of `rest`, nested to the left. -/
def sequenceFrom (first : NodeId) : List NodeId → Build NodeId
  | [] => pure first
  | second :: rest => do
    let both ← alloc (.sequence first second)
    sequenceFrom both rest

/-- Run nodes one after another. Nothing to run is a node that does nothing. -/
def sequence : List NodeId → Build NodeId
  | [] => alloc .noOp
  | first :: rest => sequenceFrom first rest

/-! ## Expressions -/

/-- The node of an expression, and the kind that its shape gives it. A lexeme is
checked before the operands that it joins, the shape of the operands after. -/
def expression : Expr → Build (NodeId × OperandKind)
  | .ident text => do
    let name ← intern text
    let id ← alloc (.identifier name)
    pure (id, .generic)
  | .num value => do
    let id ← alloc (.number value)
    pure (id, .arithmetic)
  | .bool value => do
    let id ← alloc (.truth value)
    pure (id, .logical)
  | .binary lexeme lhs rhs =>
    match BinaryOperator.ofLexeme? lexeme with
    | none => reject (.unsupportedOperator lexeme)
    | some op => do
      let (lhs, lhsKind) ← expression lhs
      let (rhs, rhsKind) ← expression rhs
      let kind ← checked (op.check lhsKind rhsKind)
      let id ← alloc (.ofOperator op lhs rhs)
      pure (id, kind)
  | .not operand => do
    let (operand, kind) ← expression operand
    checked (Construct.negation.requireBoolean kind)
    let id ← alloc (.not operand)
    pure (id, .logical)
  | .addressOf text => do
    let name ← intern text
    let id ← alloc (.addressOf name)
    pure (id, .reference)
  | .valueOf text => do
    let name ← intern text
    let id ← alloc (.valueOf name)
    pure (id, .generic)

/-- The node of an expression whose kind does not matter. -/
def value (expr : Expr) : Build NodeId := do
  let (id, _) ← expression expr
  pure id

def values : List Expr → Build (List NodeId)
  | [] => pure []
  | expr :: exprs => do
    let id ← value expr
    let ids ← values exprs
    pure (id :: ids)

/-- The node of the condition of `construct`. -/
def condition (construct : Construct) (expr : Expr) : Build NodeId := do
  let (id, kind) ← expression expr
  checked (construct.requireBoolean kind)
  pure id

/-! ## Declarations and commands -/

/-- Intern formals in order, `known` holding those already interned. A formal must
not repeat an earlier one of its function. -/
def formals (function : String) (known : List Name) : List String → Build (List Name)
  | [] => pure known
  | text :: texts => do
    let name ← intern text
    if known.contains name then
      reject (.duplicateFormal function text)
    else
      formals function (known ++ [name]) texts

mutual
def block : Block → Build NodeId
  | .mk parts body => do
    let declared ← declarations parts
    let declarations ← sequence declared
    let commanded ← commands body
    let commands ← sequence commanded
    alloc (.block declarations commands)
termination_by structural block => block

/-- The node that makes a function's closure, and the function's name. -/
def function : Function → Build Binding
  | .mk text parameters body => do
    let names ← formals text [] parameters
    let span ← allocFormals names
    let body ← block body
    let closure ← alloc (.abstraction span body)
    let name ← intern text
    pure (name, closure)
termination_by structural function => function

def functions : List Function → Build (List Binding)
  | [] => pure []
  | first :: rest => do
    let binding ← function first
    let bindings ← functions rest
    pure (binding :: bindings)
termination_by structural functions => functions

def declaration : Declaration → Build NodeId
  | .var text initial => do
    let initial ← value initial
    let cell ← alloc (.allocateReference initial)
    let name ← intern text
    alloc (.bind name cell)
  | .const text expr => do
    let value ← value expr
    let name ← intern text
    alloc (.bind name value)
  | .function declared => do
    let (name, closure) ← function declared
    alloc (.bind name closure)
  | .recursive [] => reject .emptyRecursiveGroup
  | .recursive (first :: rest) => do
    let binding ← function first
    let bindings ← functions rest
    let group ← allocGroup (binding :: bindings)
    alloc (.recBind group)
termination_by structural declaration => declaration

def declarations : List Declaration → Build (List NodeId)
  | [] => pure []
  | first :: rest => do
    let id ← declaration first
    let ids ← declarations rest
    pure (id :: ids)
termination_by structural declarations => declarations

def command : Command → Build NodeId
  | .nop => alloc .noOp
  | .assign text expr => do
    let value ← value expr
    let target ← intern text
    alloc (.assign target value)
  | .loop test body => do
    let condition ← condition .loop test
    let body ← commands body
    let body ← sequence body
    alloc (.loop condition body)
  | .ifThen test thenCommands => do
    let condition ← condition .conditional test
    let thenCommands ← commands thenCommands
    let thenBranch ← sequence thenCommands
    alloc (.conditional condition thenBranch none)
  | .ifThenElse test thenCommands elseCommands => do
    let condition ← condition .conditional test
    let thenCommands ← commands thenCommands
    let thenBranch ← sequence thenCommands
    let elseCommands ← commands elseCommands
    let elseBranch ← sequence elseCommands
    alloc (.conditional condition thenBranch (some elseBranch))
  | .block inner => block inner
  | .print expr => do
    let value ← value expr
    alloc (.print value)
  | .call text exprs => do
    let ids ← values exprs
    let callee ← intern text
    let actuals ← allocActuals ids
    alloc (.call callee actuals)
termination_by structural command => command

def commands : List Command → Build (List NodeId)
  | [] => pure []
  | first :: rest => do
    let id ← command first
    let ids ← commands rest
    pure (id :: ids)
termination_by structural commands => commands
end

/-- A whole program is a list of commands. -/
def program (body : List Command) : Build NodeId := do
  let commanded ← commands body
  sequence commanded

end Build

/-- The code of a surface program, or why it has none; and the names of `names`,
extended by those that the program mentions. -/
def translate (names : NameTable) (body : List Command) :
    Except Rejection Program × NameTable :=
  match Build.program body ⟨names, .empty⟩ with
  | .ok root draft => (.ok ⟨draft.code, root⟩, draft.names)
  | .error rejection draft => (.error rejection, draft.names)

end BlockMachine
