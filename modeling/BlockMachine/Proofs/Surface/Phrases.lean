import BlockMachine.Proofs.Surface.Evaluation
import Mathlib.Data.List.Induction

namespace BlockMachine

/-! # Phrases of a program

A surface program is walked from its commands into the parts of what it consists of.
The walk collects the identifiers that are visible where it has come to: a block's
commands also see what the block declares, and a function's body sees its formals
and its group beside what is visible where it is declared. One tree may occur at
several places of a program and see different identifiers there, so visibility is
said of places and not of trees. -/

/-- A tree of some kind. The cell of a variable and a function of a recursive group
have places of their own; `group` is empty where a function is declared alone. -/
inductive Phrase where
  | expression (expr : Expr)
  | cell (initial : Expr)
  | function (group : List Function) (declared : Function)
  | declaration (declared : Declaration)
  | declarations (parts : List Declaration)
  | command (current : Command)
  | commands (body : List Command)

/-- The identifiers that a declaration makes visible. -/
def Declaration.names : Declaration → List String
  | .var name _ | .const name _ => [name]
  | .function declared => [declared.name]
  | .recursive group => group.map Function.name

namespace Phrase

/-- A list of trees is no phrase of its own if it has only one. -/
def ofList {Tree : Type} (single : Tree → Phrase) (several : List Tree → Phrase) :
    List Tree → Phrase
  | [tree] => single tree
  | trees => several trees

/-- The parts of a list of trees: what comes before the last one, and that. -/
def splitLast {Tree : Type} (single : Tree → Phrase) (several : List Tree → Phrase)
    (trees : List Tree) : List Phrase :=
  match trees.getLast? with
  | none => []
  | some last => [ofList single several trees.dropLast, single last]

theorem ofList_concat {Tree : Type} {single : Tree → Phrase} {several : List Tree → Phrase}
    {front : List Tree} (notEmpty : front ≠ []) (last : Tree) :
    ofList single several (front ++ [last]) = several (front ++ [last]) := by
  cases front with
  | nil => exact absurd rfl notEmpty
  | cons first front => cases front <;> rfl

theorem splitLast_concat {Tree : Type} (single : Tree → Phrase)
    (several : List Tree → Phrase) (front : List Tree) (last : Tree) :
    splitLast single several (front ++ [last]) = [ofList single several front, single last] := by
  rw [splitLast, List.getLast?_concat, List.dropLast_concat]

def ofCommands : List Command → Phrase :=
  ofList command commands

def ofDeclarations : List Declaration → Phrase :=
  ofList declaration declarations

/-- The parts of a phrase, each with the identifiers visible in it; `scope` are those
visible in the phrase itself. -/
def parts (scope : List String) : Phrase → List (List String × Phrase)
  | expression (.binary _ lhs rhs) => [(scope, expression lhs), (scope, expression rhs)]
  | expression (.not operand) => [(scope, expression operand)]
  | expression (.ident _) | expression (.num _) | expression (.bool _)
  | expression (.addressOf _) | expression (.valueOf _) => []
  | cell initial => [(scope, expression initial)]
  | function group (.mk _ formals body) =>
    [(formals ++ group.map Function.name ++ scope, command (.block body))]
  | declaration (.var _ initial) => [(scope, cell initial)]
  | declaration (.const _ value) => [(scope, expression value)]
  | declaration (.function declared) => [(scope, function [] declared)]
  | declaration (.recursive group) => group.map fun member => (scope, function group member)
  | declarations parts => (splitLast declaration declarations parts).map fun part => (scope, part)
  | command .nop => []
  | command (.assign _ value) => [(scope, expression value)]
  | command (.loop test body) => [(scope, expression test), (scope, ofCommands body)]
  | command (.ifThen test thenCommands) =>
    [(scope, expression test), (scope, ofCommands thenCommands)]
  | command (.ifThenElse test thenCommands elseCommands) =>
    [(scope, expression test), (scope, ofCommands thenCommands),
      (scope, ofCommands elseCommands)]
  | command (.block (.mk parts body)) =>
    [(scope, ofDeclarations parts), (parts.flatMap Declaration.names ++ scope, ofCommands body)]
  | command (.print value) => [(scope, expression value)]
  | command (.call _ actuals) => actuals.map fun actual => (scope, expression actual)
  | commands body => (splitLast command commands body).map fun part => (scope, part)

/-- The identifier that a phrase looks up itself: one that is read, one whose address
or whose cell's cell is asked for, an assignment's target or a callee. -/
def used? : Phrase → Option String
  | expression (.ident name) | expression (.addressOf name) | expression (.valueOf name) =>
    some name
  | command (.assign name _) | command (.call name _) => some name
  | _ => none

/-- The identifiers that a phrase makes visible to the commands of its block. -/
def declared? : Phrase → Option (List String)
  | declaration declared => some declared.names
  | declarations parts => some (parts.flatMap Declaration.names)
  | _ => none

/-- Whether a phrase is run for what it does and leaves no value. -/
def isCommand : Phrase → Bool
  | command _ | commands _ => true
  | _ => false

theorem declared?_ofDeclarations (parts : List Declaration) :
    (ofDeclarations parts).declared? = some (parts.flatMap Declaration.names) := by
  rcases parts with _ | ⟨first, _ | ⟨second, rest⟩⟩ <;> simp [ofDeclarations, ofList, declared?]

theorem isCommand_ofCommands (body : List Command) : (ofCommands body).isCommand := by
  rcases body with _ | ⟨first, _ | ⟨second, rest⟩⟩ <;> rfl

end Phrase

/-- The phrases of a program, each with the identifiers visible at its place. -/
inductive Contains (body : List Command) : List String → Phrase → Prop where
  | whole : Contains body [] (.ofCommands body)
  | part {scope inner : List String} {phrase piece : Phrase} (outer : Contains body scope phrase)
      (isPart : (inner, piece) ∈ phrase.parts scope) : Contains body inner piece

/-- Each tree of a list that a program contains is a phrase by itself. -/
theorem Contains.single_of_ofList {Tree : Type} {single : Tree → Phrase}
    {several : List Tree → Phrase} {body : List Command} {scope : List String}
    (split : ∀ trees, (several trees).parts scope =
      (Phrase.splitLast single several trees).map fun part => (scope, part))
    {trees : List Tree}
    (contains : Contains body scope (.ofList single several trees)) {tree : Tree}
    (member : tree ∈ trees) : Contains body scope (single tree) := by
  induction trees using List.reverseRecOn with
  | nil => cases member
  | append_singleton front last induction =>
      by_cases empty : front = []
      · subst empty
        rw [List.mem_singleton.mp member]
        exact contains
      · rw [Phrase.ofList_concat empty] at contains
        have isPart : ∀ part ∈ [Phrase.ofList single several front, single last],
            Contains body scope part := by
          intro part isPart
          apply contains.part
          rw [split, Phrase.splitLast_concat]
          exact List.mem_map_of_mem isPart
        rcases List.mem_append.mp member with inside | isLast
        · exact induction (isPart _ List.mem_cons_self) inside
        · rw [List.mem_singleton.mp isLast]
          exact isPart _ (List.mem_cons_of_mem _ List.mem_cons_self)

/-- Whether an identifier is looked up somewhere in a program. -/
def Mentions (body : List Command) (name : String) : Prop :=
  ∃ scope phrase, Contains body scope phrase ∧ phrase.used? = some name

end BlockMachine
