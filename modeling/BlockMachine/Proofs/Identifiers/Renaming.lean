import BlockMachine.Fault
import BlockMachine.Proofs.Translation.Growth
import Mathlib.Logic.Relator

namespace BlockMachine

/-! # Renaming identifiers

A program is renamed by changing all its identifiers and nothing else. The names of two
tables correspond if one stands for some text and the other for what that is changed to;
they then correspond one to one, in whatever order either table has met its texts. -/

section

variable (change : String → String)

/-! ## Programs -/

/-- Change the identifiers of an expression. Lexemes are no identifiers. -/
def Expr.rename : Expr → Expr
  | .ident text => .ident (change text)
  | .num value => .num value
  | .bool value => .bool value
  | .binary lexeme lhs rhs => .binary lexeme lhs.rename rhs.rename
  | .not operand => .not operand.rename
  | .addressOf text => .addressOf (change text)
  | .valueOf text => .valueOf (change text)

mutual
def Block.rename : Block → Block
  | .mk parts body => .mk (Declaration.renameAll parts) (Command.renameAll body)
termination_by structural block => block

/-- Change a function's own name, its formals and the identifiers of its body. -/
def Function.rename : Function → Function
  | .mk text formals body => .mk (change text) (formals.map change) body.rename
termination_by structural function => function

def Function.renameAll : List Function → List Function
  | [] => []
  | first :: rest => first.rename :: Function.renameAll rest
termination_by structural functions => functions

def Declaration.rename : Declaration → Declaration
  | .var text initial => .var (change text) (initial.rename change)
  | .const text value => .const (change text) (value.rename change)
  | .function declared => .function declared.rename
  | .recursive group => .recursive (Function.renameAll group)
termination_by structural declaration => declaration

def Declaration.renameAll : List Declaration → List Declaration
  | [] => []
  | first :: rest => first.rename :: Declaration.renameAll rest
termination_by structural declarations => declarations

def Command.rename : Command → Command
  | .nop => .nop
  | .assign target value => .assign (change target) (value.rename change)
  | .loop test body => .loop (test.rename change) (Command.renameAll body)
  | .ifThen test thenCommands => .ifThen (test.rename change) (Command.renameAll thenCommands)
  | .ifThenElse test thenCommands elseCommands =>
    .ifThenElse (test.rename change) (Command.renameAll thenCommands)
      (Command.renameAll elseCommands)
  | .block inner => .block inner.rename
  | .print value => .print (value.rename change)
  | .call callee actuals => .call (change callee) (actuals.map (Expr.rename change))
termination_by structural command => command

/-- Change all identifiers of a list of commands, such as a program. -/
def Command.renameAll : List Command → List Command
  | [] => []
  | first :: rest => first.rename :: Command.renameAll rest
termination_by structural commands => commands
end

/-! ## Rejections and faults -/

/-- Change the identifiers that a rejection speaks of. -/
def Rejection.rename : Rejection → Rejection
  | .duplicateFormal function formal => .duplicateFormal (change function) (change formal)
  | other => other

/-- Change the identifiers that a fault speaks of. -/
def Fault.rename : Fault → Fault
  | .undefinedVariable name => .undefinedVariable (change name)
  | .unexpectedImmutableVariable name => .unexpectedImmutableVariable (change name)
  | .expectedLocation name => .expectedLocation (change name)
  | .expectedFunctionIdentifier name => .expectedFunctionIdentifier (change name)
  | .missingParametersInCall name expected got =>
    .missingParametersInCall (change name) expected got
  | .excessParametersInCall name expected got =>
    .excessParametersInCall (change name) expected got
  | other => other

/-! ## Names -/

/-- Whether two names stand for a text and for what it is changed to. -/
def Name.Corresponds (names others : NameTable) (name other : Name) : Prop :=
  ∃ text, names.find? text = some name ∧ others.find? (change text) = some other

end

variable {change : String → String} {names others : NameTable} {name other : Name}

theorem Name.Corresponds.text_eq (same : name.Corresponds change names others other) :
    others.text other = change (names.text name) := by
  rcases same with ⟨text, found, foundOther⟩
  rw [NameTable.text_of_find? found, NameTable.text_of_find? foundOther]

/-- Names correspond one to one. -/
theorem Name.biUnique_corresponds (injective : Function.Injective change)
    (names others : NameTable) :
    Relator.BiUnique (Name.Corresponds change names others) := by
  constructor
  · rintro first second other ⟨text, found, foundOther⟩ ⟨known, foundKnown, foundAgain⟩
    have changed : change text = change known := by
      rw [← NameTable.text_of_find? foundOther, ← NameTable.text_of_find? foundAgain]
    rw [injective changed] at found
    exact Option.some.inj (found.symm.trans foundKnown)
  · rintro name first second ⟨text, found, foundFirst⟩ ⟨known, foundKnown, foundSecond⟩
    have same : text = known := by
      rw [← NameTable.text_of_find? found, ← NameTable.text_of_find? foundKnown]
    rw [same] at foundFirst
    exact Option.some.inj (foundFirst.symm.trans foundSecond)

end BlockMachine
