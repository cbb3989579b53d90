namespace BlockMachine

/-! # Surface programs

The trees that a program is given as. Identifiers are texts, and a binary
application keeps the lexeme it was written with, so that whether the lexeme
names an operator is decided when the tree is translated. -/

/-- Expressions. `addressOf x` is written `&x` and `valueOf x` is `*x`. -/
inductive Expr where
  | ident (name : String)
  | num (value : Float)
  | bool (value : Bool)
  | binary (lexeme : String) (lhs rhs : Expr)
  | not (operand : Expr)
  | addressOf (name : String)
  | valueOf (name : String)
deriving Inhabited, Repr

/-! Declarations, functions, blocks and commands contain one another: a block is
a list of declarations followed by commands, a function's body is a block, and
both conditionals and loops hold lists of commands. -/

mutual
/-- Declarations followed by the commands that see them. -/
inductive Block where
  | mk (declarations : List Declaration) (commands : List Command)

/-- A named function with formal parameters. -/
inductive Function where
  | mk (name : String) (formals : List String) (body : Block)

/-- `var` binds a new cell, `const` a value, `function` a closure, and
`recursive` a group of functions that may call one another. -/
inductive Declaration where
  | var (name : String) (initial : Expr)
  | const (name : String) (value : Expr)
  | function (function : Function)
  | recursive (group : List Function)

inductive Command where
  | nop
  | assign (target : String) (value : Expr)
  | loop (condition : Expr) (body : List Command)
  | ifThen (condition : Expr) (thenCommands : List Command)
  | ifThenElse (condition : Expr) (thenCommands elseCommands : List Command)
  | block (block : Block)
  | print (value : Expr)
  | call (callee : String) (actuals : List Expr)
end

instance : Inhabited Command := ⟨.nop⟩

end BlockMachine
