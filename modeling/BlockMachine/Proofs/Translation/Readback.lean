import BlockMachine.Proofs.Translation.Tree

namespace BlockMachine

/-! # Reading programs back

Translation loses nothing but the difference between a list of commands without commands
and one that holds a single command that does nothing. Code is read back from the root
down. A depth bounds how far, since code in general may refer back to itself; the code of a
program does not, and is never deeper than it is long. -/

/-! ## Reading -/

/-- The nodes that the sequences at a node run, in order. Sequences are nested to the
left. -/
def Code.spine (code : Code) : Nat → NodeId → List NodeId
  | 0, id => [id]
  | depth + 1, id =>
    match code.node? id with
    | some (.sequence first second) => code.spine depth first ++ [second]
    | _ => [id]

/-- The nodes of a block's declarations. Where there are none, there is a node that does
nothing; that is not a declaration. -/
def Code.declared (code : Code) (depth : Nat) (id : NodeId) : List NodeId :=
  match code.node? id with
  | some .noOp => []
  | _ => code.spine depth id

namespace Draft

variable (draft : Draft)

def readExpr : Nat → NodeId → Option Expr
  | 0, _ => none
  | depth + 1, id =>
    match draft.code.node? id with
    | some (.identifier name) => some (.ident (draft.names.text name))
    | some (.number value) => some (.num value)
    | some (.truth value) => some (.bool value)
    | some (.arith op lhs rhs) => do
      return .binary (BinaryOperator.arith op).lexeme (← readExpr depth lhs) (← readExpr depth rhs)
    | some (.logic op lhs rhs) => do
      return .binary (BinaryOperator.logic op).lexeme (← readExpr depth lhs) (← readExpr depth rhs)
    | some (.not operand) => do
      return .not (← readExpr depth operand)
    | some (.addressOf name) => some (.addressOf (draft.names.text name))
    | some (.valueOf name) => some (.valueOf (draft.names.text name))
    | _ => none

/-- A block, given how its declarations and commands are read. -/
def readBlock (depth : Nat) (readDeclaration : NodeId → Option Declaration)
    (readCommand : NodeId → Option Command) (id : NodeId) : Option Block :=
  match draft.code.node? id with
  | some (.block declarations commands) => do
    let parts ← (draft.code.declared depth declarations).mapM readDeclaration
    let body ← (draft.code.spine depth commands).mapM readCommand
    return .mk parts body
  | _ => none

/-- A function, given how its body is read. -/
def readFunction (readBody : NodeId → Option Block) (binding : Binding) : Option Function :=
  match draft.code.node? binding.2 with
  | some (.abstraction formals body) => do
    return .mk (draft.names.text binding.1) ((draft.code.formals formals).map draft.names.text)
      (← readBody body)
  | _ => none

mutual
/-- What a name is bound to tells which kind of declaration it is. -/
def readDeclaration : Nat → NodeId → Option Declaration
  | 0, _ => none
  | depth + 1, id =>
    match draft.code.node? id with
    | some (.bind name value) =>
      match draft.code.node? value with
      | some (.allocateReference initial) => do
        return .var (draft.names.text name) (← draft.readExpr depth initial)
      | some (.abstraction _ _) => do
        return .function (← draft.readFunction
          (draft.readBlock depth (readDeclaration depth) (readCommand depth)) (name, value))
      | _ => do
        return .const (draft.names.text name) (← draft.readExpr depth value)
    | some (.recBind group) => do
      return .recursive (← (draft.code.group group).mapM (draft.readFunction
        (draft.readBlock depth (readDeclaration depth) (readCommand depth))))
    | _ => none

def readCommand : Nat → NodeId → Option Command
  | 0, _ => none
  | depth + 1, id =>
    match draft.code.node? id with
    | some .noOp => some .nop
    | some (.assign target value) => do
      return .assign (draft.names.text target) (← draft.readExpr depth value)
    | some (.loop condition body) => do
      return .loop (← draft.readExpr depth condition)
        (← (draft.code.spine depth body).mapM (readCommand depth))
    | some (.conditional condition thenBranch none) => do
      return .ifThen (← draft.readExpr depth condition)
        (← (draft.code.spine depth thenBranch).mapM (readCommand depth))
    | some (.conditional condition thenBranch (some elseBranch)) => do
      return .ifThenElse (← draft.readExpr depth condition)
        (← (draft.code.spine depth thenBranch).mapM (readCommand depth))
        (← (draft.code.spine depth elseBranch).mapM (readCommand depth))
    | some (.block _ _) => do
      return .block (← draft.readBlock depth (readDeclaration depth) (readCommand depth) id)
    | some (.print value) => do
      return .print (← draft.readExpr depth value)
    | some (.call callee actuals) => do
      return .call (draft.names.text callee)
        (← (draft.code.actuals actuals).mapM (draft.readExpr depth))
    | _ => none
end

end Draft

/-- The surface program that a program with the names of a table is read back as. -/
def Program.readBack (program : Program) (table : NameTable) : Option (List Command) :=
  (program.code.spine program.code.size program.root).mapM
    (Draft.readCommand ⟨table, program.code⟩ program.code.size)

/-! ## Lists without commands -/

mutual
/-- A block in which every list without commands holds one that does nothing. -/
def Block.filled : Block → Block
  | .mk parts body => .mk (Declaration.allFilled parts) (Command.bodyFilled body)
termination_by structural block => block

def Function.filled : Function → Function
  | .mk name formals body => .mk name formals body.filled
termination_by structural function => function

def Function.allFilled : List Function → List Function
  | [] => []
  | first :: rest => first.filled :: Function.allFilled rest
termination_by structural functions => functions

def Declaration.filled : Declaration → Declaration
  | .var name initial => .var name initial
  | .const name value => .const name value
  | .function declared => .function declared.filled
  | .recursive group => .recursive (Function.allFilled group)
termination_by structural declaration => declaration

def Declaration.allFilled : List Declaration → List Declaration
  | [] => []
  | first :: rest => first.filled :: Declaration.allFilled rest
termination_by structural declarations => declarations

def Command.filled : Command → Command
  | .nop => .nop
  | .assign target value => .assign target value
  | .loop condition body => .loop condition (Command.bodyFilled body)
  | .ifThen condition thenCommands => .ifThen condition (Command.bodyFilled thenCommands)
  | .ifThenElse condition thenCommands elseCommands =>
    .ifThenElse condition (Command.bodyFilled thenCommands) (Command.bodyFilled elseCommands)
  | .block inner => .block inner.filled
  | .print value => .print value
  | .call callee actuals => .call callee actuals
termination_by structural command => command

def Command.allFilled : List Command → List Command
  | [] => []
  | first :: rest => first.filled :: Command.allFilled rest
termination_by structural commands => commands

/-- A whole list of commands, which may be one without commands itself. -/
def Command.bodyFilled : List Command → List Command
  | [] => [.nop]
  | first :: rest => first.filled :: Command.allFilled rest
termination_by structural commands => commands
end

@[simp] theorem Function.allFilled_eq_map (functions : List Function) :
    Function.allFilled functions = functions.map Function.filled := by
  induction functions with
  | nil => rfl
  | cons first rest induction => rw [Function.allFilled, induction, List.map_cons]

@[simp] theorem Declaration.allFilled_eq_map (declarations : List Declaration) :
    Declaration.allFilled declarations = declarations.map Declaration.filled := by
  induction declarations with
  | nil => rfl
  | cons first rest induction => rw [Declaration.allFilled, induction, List.map_cons]

@[simp] theorem Command.allFilled_eq_map (commands : List Command) :
    Command.allFilled commands = commands.map Command.filled := by
  induction commands with
  | nil => rfl
  | cons first rest induction => rw [Command.allFilled, induction, List.map_cons]

/-! ## What is laid out is read back -/

namespace Code

variable {code : Code}

theorem Flattens.noOp_of_nil {id : NodeId} (flat : code.Flattens id []) :
    code.node? id = some .noOp := by
  generalize isEmpty : ([] : List NodeId) = ids at flat
  cases flat with
  | self => cases isEmpty
  | nothing fetched => exact fetched
  | sequence => exact absurd isEmpty.symm (by simp)

theorem Flattens.ne_noOp {id : NodeId} {ids : List NodeId} (flat : code.Flattens id ids)
    (notEmpty : ids ≠ []) (parts : ∀ part ∈ ids, code.node? part ≠ some .noOp) :
    code.node? id ≠ some .noOp := by
  cases flat with
  | self => exact parts id List.mem_cons_self
  | nothing => exact absurd rfl notEmpty
  | sequence fetched => simp [fetched]

section Ordered

variable (ordered : ∀ parent child, code.Refers parent child → child.index < parent.index)

include ordered

theorem Flattens.index_le {id : NodeId} {ids : List NodeId} (flat : code.Flattens id ids) :
    ∀ part ∈ ids, part.index ≤ id.index := by
  induction flat with
  | self id => exact List.forall_mem_singleton.mpr (Nat.le_refl _)
  | nothing => exact List.forall_mem_nil _
  | @sequence id first second ids fetched _ _ induction =>
      have firstBelow := ordered id first ⟨_, fetched, by simp [Node.children]⟩
      have secondBelow := ordered id second ⟨_, fetched, by simp [Node.children]⟩
      refine List.forall_mem_append.mpr ⟨fun part member => ?_, ?_⟩
      · exact Nat.le_trans (induction part member) (Nat.le_of_lt firstBelow)
      · exact List.forall_mem_singleton.mpr (Nat.le_of_lt secondBelow)

/-- Sequences whose parts are none themselves are read part by part. -/
theorem Flattens.spine_eq {id : NodeId} {ids : List NodeId} (flat : code.Flattens id ids)
    (notEmpty : ids ≠ []) (simple : ∀ part ∈ ids, ∀ first second,
      code.node? part ≠ some (.sequence first second))
    {depth : Nat} (inside : id.index ≤ depth) : code.spine depth id = ids := by
  induction flat generalizing depth with
  | self id =>
      cases depth with
      | zero => rfl
      | succ depth =>
          unfold spine
          split
          next first second fetched =>
            exact absurd fetched (simple id List.mem_cons_self first second)
          next => rfl
  | nothing => exact absurd rfl notEmpty
  | @sequence id first second ids fetched _ someBefore induction =>
      have below := ordered id first ⟨_, fetched, by simp [Node.children]⟩
      cases depth with
      | zero => omega
      | succ depth =>
          have before := induction someBefore
            (fun part member => simple part (List.mem_append_left _ member))
            (Nat.le_of_lt_succ (Nat.lt_of_lt_of_le below inside))
          simp only [spine, fetched, before]

end Ordered

end Code

theorem mapM_of_forall₂ {Laid : α → β → Prop} {read : β → Option γ} {outcome : α → γ}
    {trees : List α} {entries : List β} (laid : List.Forall₂ Laid trees entries)
    (each : ∀ tree, ∀ entry ∈ entries, Laid tree entry → read entry = some (outcome tree)) :
    entries.mapM read = some (trees.map outcome) := by
  induction laid with
  | nil => rfl
  | @cons tree entry trees entries first _ induction =>
      have head := each tree entry List.mem_cons_self first
      have tail := induction fun tree entry member =>
        each tree entry (List.mem_cons_of_mem _ member)
      simp [List.mapM_cons, head, tail]

namespace Draft

variable {draft : Draft} {id : NodeId} {depth : Nat}

/-- No expression makes a cell or a closure. -/
theorem LaysExpr.ne_cell_and_ne_closure {expr : Expr} (laid : draft.LaysExpr expr id) :
    (∀ initial, draft.code.node? id ≠ some (.allocateReference initial)) ∧
      ∀ formals body, draft.code.node? id ≠ some (.abstraction formals body) := by
  cases laid with
  | @binary _ op _ _ _ _ _ _ _ _ fetched => cases op <;> simp [fetched, Node.ofOperator]
  | _ => simp [*]

theorem LaysDeclaration.not_sequence {tree : Declaration} (laid : draft.LaysDeclaration tree id)
    (first second : NodeId) : draft.code.node? id ≠ some (.sequence first second) := by
  cases laid <;> simp [*]

theorem LaysDeclaration.not_noOp {tree : Declaration} (laid : draft.LaysDeclaration tree id) :
    draft.code.node? id ≠ some .noOp := by
  cases laid <;> simp [*]

theorem LaysCommand.not_sequence {tree : Command} (laid : draft.LaysCommand tree id)
    (first second : NodeId) : draft.code.node? id ≠ some (.sequence first second) := by
  cases laid with
  | block laid =>
      obtain ⟨_, _, fetched⟩ := laid.fetches
      simp [fetched]
  | _ => simp [*]

theorem Names.text_name {text : String} {name : Name} (named : draft.Names text name) :
    draft.names.text name = text :=
  NameTable.text_of_find? named

theorem map_text_names {texts : List String} {names : List Name}
    (named : List.Forall₂ draft.Names texts names) : names.map draft.names.text = texts := by
  induction named with
  | nil => rfl
  | cons first _ induction => rw [List.map_cons, first.text_name, induction]

/-- Whether what is laid out at nodes below a depth is read back. -/
structure ReadsBelow (draft : Draft) (depth : Nat) : Prop where
  declaration : ∀ {tree : Declaration} {id : NodeId}, draft.LaysDeclaration tree id →
    id.index < depth → draft.readDeclaration depth id = some tree.filled
  command : ∀ {tree : Command} {id : NodeId}, draft.LaysCommand tree id →
    id.index < depth → draft.readCommand depth id = some tree.filled

variable (ordered : ∀ parent child, draft.code.Refers parent child →
  child.index < parent.index)

include ordered

theorem child_below (inside : id.index < depth + 1) {node : Node}
    (fetched : draft.code.node? id = some node) {child : NodeId}
    (member : child ∈ node.children draft.code := by simp [Node.children]) :
    child.index < depth := by
  have := ordered id child ⟨node, fetched, member⟩
  omega

/-- What a sequence of laid parts is read as, given what the parts are. -/
theorem mapM_spine {Laid : α → NodeId → Prop} {read : NodeId → Option β} {outcome : α → β}
    {trees : List α} {ids : List NodeId} (laid : List.Forall₂ Laid trees ids)
    (flat : draft.code.Flattens id ids) (notEmpty : ids ≠ [])
    (simple : ∀ tree part, Laid tree part → ∀ first second,
      draft.code.node? part ≠ some (.sequence first second))
    (inside : id.index ≤ depth)
    (each : ∀ tree part, Laid tree part → part.index ≤ id.index →
      read part = some (outcome tree)) :
    (draft.code.spine depth id).mapM read = some (trees.map outcome) := by
  rw [flat.spine_eq ordered notEmpty ?_ inside]
  · exact mapM_of_forall₂ laid fun tree part member partLaid =>
      each tree part partLaid (flat.index_le ordered part member)
  · intro part member
    obtain ⟨tree, _, partLaid⟩ := exists_of_mem_right laid member
    exact simple tree part partLaid

theorem readExpr_of_laid {expr : Expr} (laid : draft.LaysExpr expr id)
    (inside : id.index < depth) : draft.readExpr depth id = some expr := by
  induction depth generalizing expr id with
  | zero => omega
  | succ depth induction =>
      cases laid with
      | ident named fetched => simp [readExpr, fetched, named.text_name]
      | num fetched => simp [readExpr, fetched]
      | bool fetched => simp [readExpr, fetched]
      | @binary _ op _ _ left right _ known lhsLaid rhsLaid fetched =>
          obtain rfl := BinaryOperator.ofLexeme?_eq_some_iff.mp known
          have children := Node.children_ofOperator draft.code op left right
          have lhsRead := induction lhsLaid
            (child_below ordered inside fetched (by simp [children]))
          have rhsRead := induction rhsLaid
            (child_below ordered inside fetched (by simp [children]))
          cases op <;> simp [readExpr, fetched, Node.ofOperator, lhsRead, rhsRead]
      | not operandLaid fetched =>
          have operandRead := induction operandLaid (child_below ordered inside fetched)
          simp [readExpr, fetched, operandRead]
      | addressOf named fetched => simp [readExpr, fetched, named.text_name]
      | valueOf named fetched => simp [readExpr, fetched, named.text_name]

namespace ReadsBelow

variable (reads : draft.ReadsBelow depth)

include reads

theorem body {body : List Command} {ids : List NodeId} (laid : draft.LaysCommands body ids)
    (flat : draft.code.Flattens id ids) (inside : id.index < depth) :
    (draft.code.spine depth id).mapM (draft.readCommand depth) =
      some (Command.bodyFilled body) := by
  cases laid with
  | nil =>
      -- The node that stands for no commands reads as a command.
      have fetched := flat.noOp_of_nil
      have alone : draft.code.spine depth id = [id] :=
        (Code.Flattens.self id).spine_eq ordered (by simp) (by simp [fetched]) (Nat.le_of_lt inside)
      have read : draft.readCommand depth id = some .nop := reads.command (.nop fetched) inside
      simp [alone, read, Command.bodyFilled]
  | cons firstLaid restLaid =>
      rw [Command.bodyFilled, Command.allFilled_eq_map]
      exact mapM_spine ordered (.cons firstLaid restLaid.forall₂) flat (by simp)
        (fun _ _ => LaysCommand.not_sequence) (Nat.le_of_lt inside)
        fun _ _ partLaid below => reads.command partLaid (Nat.lt_of_le_of_lt below inside)

theorem declarations {parts : List Declaration} {ids : List NodeId}
    (laid : draft.LaysDeclarations parts ids) (flat : draft.code.Flattens id ids)
    (inside : id.index < depth) :
    (draft.code.declared depth id).mapM (draft.readDeclaration depth) =
      some (Declaration.allFilled parts) := by
  unfold Code.declared
  cases laid with
  | nil => simp [flat.noOp_of_nil, Declaration.allFilled]
  | cons firstLaid restLaid =>
      have laid := List.Forall₂.cons firstLaid restLaid.forall₂
      have something : draft.code.node? id ≠ some .noOp := flat.ne_noOp (by simp) fun part member =>
        let ⟨_, _, partLaid⟩ := exists_of_mem_right laid member
        partLaid.not_noOp
      split
      next nothing => exact absurd nothing something
      next =>
        rw [Declaration.allFilled_eq_map]
        exact mapM_spine ordered laid flat (by simp)
          (fun _ _ => LaysDeclaration.not_sequence) (Nat.le_of_lt inside)
          fun _ _ partLaid below => reads.declaration partLaid (Nat.lt_of_le_of_lt below inside)

theorem block {tree : Block} (laid : draft.LaysBlock tree id) (inside : id.index ≤ depth) :
    draft.readBlock depth (draft.readDeclaration depth) (draft.readCommand depth) id =
      some tree.filled := by
  cases laid with
  | @mk _ _ _ _ declarations commands _ partsLaid declarationsFlat bodyLaid commandsFlat fetched =>
      have declarationsBelow := ordered id declarations ⟨_, fetched, by simp [Node.children]⟩
      have commandsBelow := ordered id commands ⟨_, fetched, by simp [Node.children]⟩
      have partsRead := reads.declarations ordered partsLaid declarationsFlat (by omega)
      have bodyRead := reads.body ordered bodyLaid commandsFlat (by omega)
      simp only [readBlock, fetched, partsRead, bodyRead, Option.bind_eq_bind, Option.bind_some,
        Option.pure_def, Block.filled]

theorem function {tree : Function} {binding : Binding} (laid : draft.LaysFunction tree binding)
    (inside : binding.2.index ≤ depth) :
    draft.readFunction (draft.readBlock depth (draft.readDeclaration depth)
      (draft.readCommand depth)) binding = some tree.filled := by
  cases laid with
  | @mk _ _ _ _ span bodyId closure _ formals listed bodyLaid fetched named =>
      have inside : closure.index ≤ depth := inside
      have bodyBelow := ordered closure bodyId ⟨_, fetched, by simp [Node.children]⟩
      have bodyRead := reads.block ordered bodyLaid (by omega)
      subst listed
      simp only [readFunction, fetched, bodyRead, named.text_name, map_text_names formals,
        Option.bind_eq_bind, Option.bind_some, Option.pure_def, Function.filled]

theorem readDeclaration {tree : Declaration} (laid : draft.LaysDeclaration tree id)
    (inside : id.index < depth + 1) :
    draft.readDeclaration (depth + 1) id = some tree.filled := by
  cases laid with
  | @var _ _ value cell _ _ laid allocates named fetched =>
      have cellBelow : cell.index < depth := child_below ordered inside fetched
      have valueBelow := ordered cell value ⟨_, allocates, by simp [Node.children]⟩
      have read := readExpr_of_laid ordered laid (Nat.lt_trans valueBelow cellBelow)
      simp [Draft.readDeclaration, fetched, allocates, named.text_name, read, Declaration.filled]
  | const laid named fetched =>
      have read := readExpr_of_laid ordered laid (child_below ordered inside fetched)
      simp only [Draft.readDeclaration, fetched]
      -- What an expression leaves is bound as it is: the other two readings do not apply.
      split
      next initial cell => exact absurd cell (laid.ne_cell_and_ne_closure.1 initial)
      next formals body closure =>
        exact absurd closure (laid.ne_cell_and_ne_closure.2 formals body)
      next => simp [named.text_name, read, Declaration.filled]
  | @function _ _ closure _ laid fetched =>
      obtain ⟨formals, body, found⟩ := laid.fetches
      have closureBelow : closure.index < depth := child_below ordered inside fetched
      have read := reads.function ordered laid (Nat.le_of_lt closureBelow)
      simp [Draft.readDeclaration, fetched, found, read, Declaration.filled]
  | @recursive group bindings span _ laid listed fetched =>
      subst listed
      have read := mapM_of_forall₂ laid.forall₂ fun tree binding member functionLaid =>
        reads.function ordered functionLaid
          (Nat.le_of_lt (child_below ordered inside fetched (List.mem_map_of_mem member)))
      simp [Draft.readDeclaration, fetched, read, Declaration.filled]

theorem readCommand {tree : Command} (laid : draft.LaysCommand tree id)
    (inside : id.index < depth + 1) : draft.readCommand (depth + 1) id = some tree.filled := by
  cases laid with
  | nop fetched => simp [Draft.readCommand, fetched, Command.filled]
  | assign laid named fetched =>
      have read := readExpr_of_laid ordered laid (child_below ordered inside fetched)
      simp [Draft.readCommand, fetched, named.text_name, read, Command.filled]
  | loop testLaid bodyLaid flat fetched =>
      have testRead := readExpr_of_laid ordered testLaid (child_below ordered inside fetched)
      have bodyRead := reads.body ordered bodyLaid flat (child_below ordered inside fetched)
      simp [Draft.readCommand, fetched, testRead, bodyRead, Command.filled]
  | ifThen testLaid bodyLaid flat fetched =>
      have testRead := readExpr_of_laid ordered testLaid (child_below ordered inside fetched)
      have bodyRead := reads.body ordered bodyLaid flat (child_below ordered inside fetched)
      simp [Draft.readCommand, fetched, testRead, bodyRead, Command.filled]
  | ifThenElse testLaid thenLaid thenFlat elseLaid elseFlat fetched =>
      have testRead := readExpr_of_laid ordered testLaid (child_below ordered inside fetched)
      have thenRead := reads.body ordered thenLaid thenFlat (child_below ordered inside fetched)
      have elseRead := reads.body ordered elseLaid elseFlat (child_below ordered inside fetched)
      simp [Draft.readCommand, fetched, testRead, thenRead, elseRead, Command.filled]
  | block laid =>
      obtain ⟨_, _, fetched⟩ := laid.fetches
      have read := reads.block ordered laid (Nat.le_of_lt_succ inside)
      simp [Draft.readCommand, fetched, read, Command.filled]
  | print laid fetched =>
      have read := readExpr_of_laid ordered laid (child_below ordered inside fetched)
      simp [Draft.readCommand, fetched, read, Command.filled]
  | @call _ exprs _ span _ _ laid named listed fetched =>
      subst listed
      have read : (draft.code.actuals span).mapM (draft.readExpr depth) =
          some (exprs.map fun expr => expr) :=
        mapM_of_forall₂ laid fun expr part member partLaid =>
          readExpr_of_laid ordered partLaid (child_below ordered inside fetched member)
      simp [Draft.readCommand, fetched, named.text_name, read, Command.filled]

end ReadsBelow

/-- Whatever is laid out is read back from any depth above it. -/
theorem readsBelow (depth : Nat) : draft.ReadsBelow depth := by
  induction depth with
  | zero => exact ⟨fun _ inside => absurd inside (Nat.not_lt_zero _),
      fun _ inside => absurd inside (Nat.not_lt_zero _)⟩
  | succ depth induction => exact ⟨induction.readDeclaration ordered, induction.readCommand ordered⟩

end Draft

/-- Whatever translation accepts is read back, but for lists without commands. -/
theorem readBack_of_translate {names : NameTable} {body : List Command} {program : Program}
    (accepted : (translate names body).1 = .ok program) :
    program.readBack (translate names body).2 = some (Command.bodyFilled body) := by
  obtain ⟨ids, laid, flat⟩ := exists_laid_of_translate accepted
  have known : program.root.index < program.code.size := Draft.knows_of_flattens flat laid.knows
  have ordered := ordered_of_translate accepted
  exact (Draft.readsBelow ordered program.code.size).body ordered laid flat known

/-! ## What reading back cannot tell apart -/

namespace Build

/-- Having nothing to run is translated like running what does nothing. -/
theorem commands_bodyFilled {body : List Command}
    (same : commands (Command.allFilled body) = commands body) (next : NodeId → Build α) :
    (commands (Command.bodyFilled body) >>= fun commanded => sequence commanded >>= next) =
      (commands body >>= fun commanded => sequence commanded >>= next) := by
  cases body with
  | nil => rfl
  | cons first rest => rw [← same]; rfl

mutual
theorem block_filled : (tree : Block) → block tree.filled = block tree
  | .mk parts body => by
      simp only [Block.filled, block, declarations_allFilled parts,
        commands_bodyFilled (commands_allFilled body)]
termination_by structural tree => tree

theorem function_filled : (tree : Function) → function tree.filled = function tree
  | .mk text parameters body => by
      simp only [Function.filled, function, block_filled body]
termination_by structural tree => tree

theorem functions_allFilled : (trees : List Function) →
    functions (Function.allFilled trees) = functions trees
  | [] => rfl
  | first :: rest => by
      simp only [Function.allFilled, functions, function_filled first, functions_allFilled rest]
termination_by structural trees => trees

theorem declaration_filled : (tree : Declaration) → declaration tree.filled = declaration tree
  | .var _ _ | .const _ _ => rfl
  | .function declared => by
      simp only [Declaration.filled, declaration, function_filled declared]
  | .recursive [] => rfl
  | .recursive (first :: rest) => by
      simp only [Declaration.filled, Function.allFilled, declaration, function_filled first,
        functions_allFilled rest]
termination_by structural tree => tree

theorem declarations_allFilled : (trees : List Declaration) →
    declarations (Declaration.allFilled trees) = declarations trees
  | [] => rfl
  | first :: rest => by
      simp only [Declaration.allFilled, declarations, declaration_filled first,
        declarations_allFilled rest]
termination_by structural trees => trees

theorem command_filled : (tree : Command) → command tree.filled = command tree
  | .nop | .assign _ _ | .print _ | .call _ _ => rfl
  | .loop test body => by
      simp only [Command.filled, command, commands_bodyFilled (commands_allFilled body)]
  | .ifThen test body => by
      simp only [Command.filled, command, commands_bodyFilled (commands_allFilled body)]
  | .ifThenElse test thenCommands elseCommands => by
      simp only [Command.filled, command, commands_bodyFilled (commands_allFilled thenCommands),
        commands_bodyFilled (commands_allFilled elseCommands)]
  | .block inner => block_filled inner
termination_by structural tree => tree

theorem commands_allFilled : (trees : List Command) →
    commands (Command.allFilled trees) = commands trees
  | [] => rfl
  | first :: rest => by
      simp only [Command.allFilled, commands, command_filled first, commands_allFilled rest]
termination_by structural trees => trees
end

theorem program_bodyFilled (body : List Command) :
    program (Command.bodyFilled body) = program body := by
  simpa only [program, bind_pure] using commands_bodyFilled (commands_allFilled body) pure

end Build

/-- Programs that differ just in such lists have one translation. -/
theorem translate_bodyFilled (names : NameTable) (body : List Command) :
    translate names (Command.bodyFilled body) = translate names body := by
  rw [translate, translate, Build.program_bodyFilled]

/-- A program of every kind of declaration, with loops and branches that do nothing. -/
def sketch : List Command :=
  [.block (.mk
    [.var "done" (.bool false), .const "cell" (.addressOf "done"),
      .function (.mk "idle" ["until", "then"] (.mk [] [])),
      .recursive [.mk "again" ["turn"] (.mk [] [.call "again" [.not (.ident "turn")]])]]
    [.loop (.binary "and" (.valueOf "cell") (.bool false)) [],
      .ifThen (.ident "done") [.nop],
      .ifThenElse (.ident "done") [] [.assign "done" (.bool true), .print (.ident "done")],
      .call "idle" [.ident "done", .bool true]])]

end BlockMachine
