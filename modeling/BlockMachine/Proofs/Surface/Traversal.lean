import BlockMachine.Proofs.Surface.Shapes

namespace BlockMachine

/-! # Reading through a program

Whoever reads through a program comes upon its identifiers and upon what is wrong with it.
The operands of an expression are read from left to right, the value of an assignment or a
declaration before its name, the actuals of a call before its callee, and of a function the
formals, then the body, and the name last. A lexeme that is no operator is noticed before
the operands that it joins, operands of the wrong shape after them, and a repeated formal
once it has been read again. -/

/-- What a reader comes upon: an identifier, or something that is wrong. -/
inductive Finding where
  | identifier (text : String)
  | violation (rejection : Rejection)

namespace Finding

def identifier? : Finding → Option String
  | identifier text => some text
  | violation _ => none

def violation? : Finding → Option Rejection
  | identifier _ => none
  | violation rejection => some rejection

/-- The identifiers among findings. -/
def identifiers (findings : List Finding) : List String :=
  findings.filterMap identifier?

/-- What is wrong among findings. -/
def violations (findings : List Finding) : List Rejection :=
  findings.filterMap violation?

@[simp] theorem violations_nil : violations [] = [] := rfl

@[simp] theorem violations_append (first second : List Finding) :
    violations (first ++ second) = violations first ++ violations second :=
  List.filterMap_append

@[simp] theorem violations_identifier (text : String) (findings : List Finding) :
    violations (identifier text :: findings) = violations findings := rfl

@[simp] theorem violations_violation (rejection : Rejection) (findings : List Finding) :
    violations (violation rejection :: findings) = rejection :: violations findings := rfl

@[simp] theorem violations_map_violation (rejections : List Rejection) :
    violations (rejections.map violation) = rejections := by
  induction rejections with
  | nil => rfl
  | cons rejection rest induction => rw [List.map_cons, violations_violation, induction]

@[simp] theorem violations_map_identifier (texts : List String) :
    violations (texts.map identifier) = [] := by
  induction texts with
  | nil => rfl
  | cons text rest induction => rw [List.map_cons, violations_identifier, induction]

@[simp] theorem identifiers_map_identifier (texts : List String) :
    identifiers (texts.map identifier) = texts := by
  induction texts with
  | nil => rfl
  | cons text rest induction =>
      have step : identifiers (identifier text :: rest.map identifier) =
          text :: identifiers (rest.map identifier) := rfl
      rw [List.map_cons, step, induction]

end Finding

/-- What is come upon in an expression. -/
def Expr.findings : Expr → List Finding
  | .ident text | .addressOf text | .valueOf text => [.identifier text]
  | .num _ | .bool _ => []
  | .binary lexeme lhs rhs =>
    match BinaryOperator.ofLexeme? lexeme with
    | none => .violation (.unsupportedOperator lexeme) :: (lhs.findings ++ rhs.findings)
    | some op =>
      lhs.findings ++ (rhs.findings ++ (op.violations lhs.kind rhs.kind).map .violation)
  | .not operand =>
    operand.findings ++ (Construct.negation.booleanViolations operand.kind).map .violation

/-- What is come upon in the condition of a construct. -/
def Construct.conditionFindings (construct : Construct) (test : Expr) : List Finding :=
  test.findings ++ (construct.booleanViolations test.kind).map .violation

/-- What is come upon in the formals of a function, `known` having been read before. -/
def formalFindings (function : String) (known : List String) : List String → List Finding
  | [] => []
  | text :: texts =>
    .identifier text :: ((if text ∈ known then [.violation (.duplicateFormal function text)] else []) ++
      formalFindings function (known ++ [text]) texts)

mutual
/-- What is come upon in a block, first in its declarations. -/
def Block.findings : Block → List Finding
  | .mk parts body => Declaration.allFindings parts ++ Command.allFindings body
termination_by structural block => block

def Function.findings : Function → List Finding
  | .mk name formals body =>
    formalFindings name [] formals ++ (body.findings ++ [.identifier name])
termination_by structural function => function

def Function.allFindings : List Function → List Finding
  | [] => []
  | first :: rest => first.findings ++ Function.allFindings rest
termination_by structural functions => functions

def Declaration.findings : Declaration → List Finding
  | .var name value | .const name value => value.findings ++ [.identifier name]
  | .function declared => declared.findings
  | .recursive [] => [.violation .emptyRecursiveGroup]
  | .recursive (first :: rest) => first.findings ++ Function.allFindings rest
termination_by structural declaration => declaration

def Declaration.allFindings : List Declaration → List Finding
  | [] => []
  | first :: rest => first.findings ++ Declaration.allFindings rest
termination_by structural declarations => declarations

def Command.findings : Command → List Finding
  | .nop => []
  | .assign target value => value.findings ++ [.identifier target]
  | .loop test body => Construct.loop.conditionFindings test ++ Command.allFindings body
  | .ifThen test thenCommands =>
    Construct.conditional.conditionFindings test ++ Command.allFindings thenCommands
  | .ifThenElse test thenCommands elseCommands =>
    Construct.conditional.conditionFindings test ++
      (Command.allFindings thenCommands ++ Command.allFindings elseCommands)
  | .block inner => inner.findings
  | .print value => value.findings
  | .call callee actuals => actuals.flatMap Expr.findings ++ [.identifier callee]
termination_by structural command => command

/-- What is come upon in a list of commands, such as a program. -/
def Command.allFindings : List Command → List Finding
  | [] => []
  | first :: rest => first.findings ++ Command.allFindings rest
termination_by structural commands => commands
end

/-! ## The violations that are come upon

They are those of the program, in the order in which they have been listed. -/

theorem violations_expression (expr : Expr) : Finding.violations expr.findings = expr.violations := by
  induction expr with
  | binary lexeme lhs rhs inductionLhs inductionRhs =>
      simp only [Expr.findings, Expr.violations]
      cases BinaryOperator.ofLexeme? lexeme <;> simp [inductionLhs, inductionRhs]
  | not operand induction => simp [Expr.findings, Expr.violations, induction]
  | _ => rfl

theorem violations_condition (construct : Construct) (test : Expr) :
    Finding.violations (construct.conditionFindings test) = construct.conditionViolations test := by
  simp [Construct.conditionFindings, Construct.conditionViolations, violations_expression]

theorem violations_formals (function : String) (known texts : List String) :
    Finding.violations (formalFindings function known texts) =
      repeatedFormals function known texts := by
  induction texts generalizing known with
  | nil => rfl
  | cons text texts induction =>
      simp only [formalFindings, repeatedFormals]
      split <;> simp [induction]

theorem violations_actuals (actuals : List Expr) :
    Finding.violations (actuals.flatMap Expr.findings) = actuals.flatMap Expr.violations := by
  induction actuals with
  | nil => rfl
  | cons actual actuals induction =>
      rw [List.flatMap_cons, Finding.violations_append, violations_expression, induction,
        List.flatMap_cons]

mutual
theorem violations_block : (tree : Block) → Finding.violations tree.findings = tree.violations
  | .mk parts body => by
      simp [Block.findings, Block.violations, violations_declarations parts,
        violations_commands body]
termination_by structural tree => tree

theorem violations_function : (tree : Function) →
    Finding.violations tree.findings = tree.violations
  | .mk name formals body => by
      simp [Function.findings, Function.violations, violations_formals, violations_block body]
termination_by structural tree => tree

theorem violations_functions : (trees : List Function) →
    Finding.violations (Function.allFindings trees) = Function.allViolations trees
  | [] => rfl
  | first :: rest => by
      simp [Function.allFindings, Function.allViolations, violations_function first,
        violations_functions rest]
termination_by structural trees => trees

theorem violations_declaration : (tree : Declaration) →
    Finding.violations tree.findings = tree.violations
  | .var name value | .const name value => by
      simp [Declaration.findings, Declaration.violations, violations_expression]
  | .function declared => violations_function declared
  | .recursive [] => rfl
  | .recursive (first :: rest) => by
      simp [Declaration.findings, Declaration.violations, violations_function first,
        violations_functions rest]
termination_by structural tree => tree

theorem violations_declarations : (trees : List Declaration) →
    Finding.violations (Declaration.allFindings trees) = Declaration.allViolations trees
  | [] => rfl
  | first :: rest => by
      simp [Declaration.allFindings, Declaration.allViolations, violations_declaration first,
        violations_declarations rest]
termination_by structural trees => trees

theorem violations_command : (tree : Command) →
    Finding.violations tree.findings = tree.violations
  | .nop => rfl
  | .assign target value => by simp [Command.findings, Command.violations, violations_expression]
  | .loop test body | .ifThen test body => by
      simp [Command.findings, Command.violations, violations_condition, violations_commands body]
  | .ifThenElse test thenCommands elseCommands => by
      simp [Command.findings, Command.violations, violations_condition,
        violations_commands thenCommands, violations_commands elseCommands]
  | .block inner => violations_block inner
  | .print value => violations_expression value
  | .call callee actuals => by simp [Command.findings, Command.violations, violations_actuals]
termination_by structural tree => tree

theorem violations_commands : (trees : List Command) →
    Finding.violations (Command.allFindings trees) = Command.allViolations trees
  | [] => rfl
  | first :: rest => by
      simp [Command.allFindings, Command.allViolations, violations_command first,
        violations_commands rest]
termination_by structural trees => trees
end

end BlockMachine
