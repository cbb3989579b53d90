import BlockMachine.Machine.State
import BlockMachine.Proofs.Translation.Growth
import Mathlib.Data.List.Forall2

namespace BlockMachine

/-! # Layout of surface programs

A draft lays a surface tree out at a node if the nodes from there on are those of
the tree. Translation lays out what it accepts. -/

/-- Whether a tree of sequences at a node runs just these nodes. -/
inductive Code.Flattens (code : Code) : NodeId → List NodeId → Prop where
  | self (id : NodeId) : Flattens code id [id]
  | nothing {id : NodeId} (fetched : code.node? id = some .noOp) : Flattens code id []
  | sequence {id first second : NodeId} {ids : List NodeId}
      (fetched : code.node? id = some (.sequence first second))
      (before : Flattens code first ids) (notEmpty : ids ≠ []) : Flattens code id (ids ++ [second])

namespace Draft

variable (draft : Draft)

/-- Whether a name stands for a text. -/
def Names (text : String) (name : Name) : Prop :=
  draft.names.find? text = some name

inductive LaysExpr : Expr → NodeId → Prop where
  | ident {text : String} {name : Name} {id : NodeId} (named : draft.Names text name)
      (fetched : draft.code.node? id = some (.identifier name)) : LaysExpr (.ident text) id
  | num {value : Float} {id : NodeId} (fetched : draft.code.node? id = some (.number value)) :
      LaysExpr (.num value) id
  | bool {value : Bool} {id : NodeId} (fetched : draft.code.node? id = some (.truth value)) :
      LaysExpr (.bool value) id
  | binary {lexeme : String} {op : BinaryOperator} {lhs rhs : Expr} {left right id : NodeId}
      (known : BinaryOperator.ofLexeme? lexeme = some op) (lhsLaid : LaysExpr lhs left)
      (rhsLaid : LaysExpr rhs right)
      (fetched : draft.code.node? id = some (.ofOperator op left right)) :
      LaysExpr (.binary lexeme lhs rhs) id
  | not {operand : Expr} {inner id : NodeId} (laid : LaysExpr operand inner)
      (fetched : draft.code.node? id = some (.not inner)) : LaysExpr (.not operand) id
  | addressOf {text : String} {name : Name} {id : NodeId} (named : draft.Names text name)
      (fetched : draft.code.node? id = some (.addressOf name)) : LaysExpr (.addressOf text) id
  | valueOf {text : String} {name : Name} {id : NodeId} (named : draft.Names text name)
      (fetched : draft.code.node? id = some (.valueOf name)) : LaysExpr (.valueOf text) id

mutual
inductive LaysBlock : Block → NodeId → Prop where
  | mk {parts : List Declaration} {body : List Command} {declared commanded : List NodeId}
      {declarations commands id : NodeId} (partsLaid : LaysDeclarations parts declared)
      (declarationsFlat : draft.code.Flattens declarations declared)
      (bodyLaid : LaysCommands body commanded)
      (commandsFlat : draft.code.Flattens commands commanded)
      (fetched : draft.code.node? id = some (.block declarations commands)) :
      LaysBlock (.mk parts body) id

inductive LaysFunction : Function → Binding → Prop where
  | mk {text : String} {parameters : List String} {body : Block} {names : List Name}
      {span : Span Name} {bodyId closure : NodeId} {name : Name}
      (formals : List.Forall₂ draft.Names parameters names)
      (listed : draft.code.formals span = names) (bodyLaid : LaysBlock body bodyId)
      (fetched : draft.code.node? closure = some (.abstraction span bodyId))
      (named : draft.Names text name) : LaysFunction (.mk text parameters body) (name, closure)

inductive LaysFunctions : List Function → List Binding → Prop where
  | nil : LaysFunctions [] []
  | cons {first : Function} {rest : List Function} {binding : Binding} {bindings : List Binding}
      (firstLaid : LaysFunction first binding) (restLaid : LaysFunctions rest bindings) :
      LaysFunctions (first :: rest) (binding :: bindings)

inductive LaysDeclaration : Declaration → NodeId → Prop where
  | var {text : String} {initial : Expr} {value cell id : NodeId} {name : Name}
      (laid : draft.LaysExpr initial value)
      (allocates : draft.code.node? cell = some (.allocateReference value))
      (named : draft.Names text name) (fetched : draft.code.node? id = some (.bind name cell)) :
      LaysDeclaration (.var text initial) id
  | const {text : String} {expr : Expr} {value id : NodeId} {name : Name}
      (laid : draft.LaysExpr expr value) (named : draft.Names text name)
      (fetched : draft.code.node? id = some (.bind name value)) :
      LaysDeclaration (.const text expr) id
  | function {declared : Function} {name : Name} {closure id : NodeId}
      (laid : LaysFunction declared (name, closure))
      (fetched : draft.code.node? id = some (.bind name closure)) :
      LaysDeclaration (.function declared) id
  | recursive {group : List Function} {bindings : List Binding} {span : Span Binding}
      {id : NodeId} (laid : LaysFunctions group bindings)
      (listed : draft.code.group span = bindings)
      (fetched : draft.code.node? id = some (.recBind span)) :
      LaysDeclaration (.recursive group) id

inductive LaysDeclarations : List Declaration → List NodeId → Prop where
  | nil : LaysDeclarations [] []
  | cons {first : Declaration} {rest : List Declaration} {id : NodeId} {ids : List NodeId}
      (firstLaid : LaysDeclaration first id) (restLaid : LaysDeclarations rest ids) :
      LaysDeclarations (first :: rest) (id :: ids)

inductive LaysCommand : Command → NodeId → Prop where
  | nop {id : NodeId} (fetched : draft.code.node? id = some .noOp) : LaysCommand .nop id
  | assign {text : String} {expr : Expr} {value id : NodeId} {name : Name}
      (laid : draft.LaysExpr expr value) (named : draft.Names text name)
      (fetched : draft.code.node? id = some (.assign name value)) :
      LaysCommand (.assign text expr) id
  | loop {test : Expr} {body : List Command} {condition bodyId id : NodeId}
      {commanded : List NodeId} (testLaid : draft.LaysExpr test condition)
      (bodyLaid : LaysCommands body commanded) (flat : draft.code.Flattens bodyId commanded)
      (fetched : draft.code.node? id = some (.loop condition bodyId)) :
      LaysCommand (.loop test body) id
  | ifThen {test : Expr} {body : List Command} {condition bodyId id : NodeId}
      {commanded : List NodeId} (testLaid : draft.LaysExpr test condition)
      (bodyLaid : LaysCommands body commanded) (flat : draft.code.Flattens bodyId commanded)
      (fetched : draft.code.node? id = some (.conditional condition bodyId none)) :
      LaysCommand (.ifThen test body) id
  | ifThenElse {test : Expr} {thenCommands elseCommands : List Command}
      {condition thenId elseId id : NodeId} {thenCommanded elseCommanded : List NodeId}
      (testLaid : draft.LaysExpr test condition)
      (thenLaid : LaysCommands thenCommands thenCommanded)
      (thenFlat : draft.code.Flattens thenId thenCommanded)
      (elseLaid : LaysCommands elseCommands elseCommanded)
      (elseFlat : draft.code.Flattens elseId elseCommanded)
      (fetched : draft.code.node? id = some (.conditional condition thenId (some elseId))) :
      LaysCommand (.ifThenElse test thenCommands elseCommands) id
  | block {inner : Block} {id : NodeId} (laid : LaysBlock inner id) : LaysCommand (.block inner) id
  | print {expr : Expr} {value id : NodeId} (laid : draft.LaysExpr expr value)
      (fetched : draft.code.node? id = some (.print value)) : LaysCommand (.print expr) id
  | call {text : String} {exprs : List Expr} {ids : List NodeId} {span : Span NodeId}
      {name : Name} {id : NodeId} (laid : List.Forall₂ draft.LaysExpr exprs ids)
      (named : draft.Names text name) (listed : draft.code.actuals span = ids)
      (fetched : draft.code.node? id = some (.call name span)) : LaysCommand (.call text exprs) id

inductive LaysCommands : List Command → List NodeId → Prop where
  | nil : LaysCommands [] []
  | cons {first : Command} {rest : List Command} {id : NodeId} {ids : List NodeId}
      (firstLaid : LaysCommand first id) (restLaid : LaysCommands rest ids) :
      LaysCommands (first :: rest) (id :: ids)
end

end Draft

namespace Draft

variable {draft : Draft}

theorem LaysFunctions.forall₂ {functions : List Function} {bindings : List Binding}
    (laid : draft.LaysFunctions functions bindings) :
    List.Forall₂ draft.LaysFunction functions bindings := by
  induction functions generalizing bindings with
  | nil => cases laid; exact .nil
  | cons first rest induction =>
      cases laid with
      | cons firstLaid restLaid => exact .cons firstLaid (induction restLaid)

theorem LaysDeclarations.forall₂ {parts : List Declaration} {ids : List NodeId}
    (laid : draft.LaysDeclarations parts ids) :
    List.Forall₂ draft.LaysDeclaration parts ids := by
  induction parts generalizing ids with
  | nil => cases laid; exact .nil
  | cons first rest induction =>
      cases laid with
      | cons firstLaid restLaid => exact .cons firstLaid (induction restLaid)

theorem LaysCommands.forall₂ {body : List Command} {ids : List NodeId}
    (laid : draft.LaysCommands body ids) : List.Forall₂ draft.LaysCommand body ids := by
  induction body generalizing ids with
  | nil => cases laid; exact .nil
  | cons first rest induction =>
      cases laid with
      | cons firstLaid restLaid => exact .cons firstLaid (induction restLaid)

end Draft

/-! ## What translation lays out -/

namespace Build

theorem ensures_sequenceFrom (first : NodeId) (rest : List NodeId) {ids : List NodeId}
    (notEmpty : ids ≠ []) :
    (sequenceFrom first rest).Ensures fun draft id =>
      draft.code.Flattens first ids → draft.code.Flattens id (ids ++ rest) := by
  induction rest generalizing first ids with
  | nil => exact .pure fun draft flat => by simpa using flat
  | cons second rest induction =>
      have stillNotEmpty : ids ++ [second] ≠ [] := by simp
      refine (Ensures.alloc _).bind fun both => (induction both stillNotEmpty).mono ?_
      intro draft id flattens fetched flat
      simpa using flattens (.sequence fetched flat notEmpty)

theorem ensures_sequence (ids : List NodeId) :
    (sequence ids).Ensures fun draft id => draft.code.Flattens id ids := by
  cases ids with
  | nil => exact (Ensures.alloc _).mono fun draft id => .nothing
  | cons first rest =>
      exact (ensures_sequenceFrom first rest (by simp)).mono fun draft id flattens =>
        flattens (.self first)

theorem ensures_expression (expr : Expr) :
    (expression expr).Ensures fun draft result => draft.LaysExpr expr result.1 := by
  induction expr with
  | ident text =>
      exact (Ensures.intern text).bind fun name => (Ensures.alloc _).bind fun id =>
        .pure fun draft fetched named => .ident named fetched
  | num value =>
      exact (Ensures.alloc _).bind fun id => .pure fun draft fetched => .num fetched
  | bool value =>
      exact (Ensures.alloc _).bind fun id => .pure fun draft fetched => .bool fetched
  | binary lexeme lhs rhs inductionLhs inductionRhs =>
      unfold expression
      split
      next => exact .reject _
      next op known =>
        refine inductionLhs.bind fun left => inductionRhs.bind fun right =>
          (Ensures.checked fun _ _ _ => trivial).bind fun kind => (Ensures.alloc _).bind fun id =>
          .pure ?_
        intro draft fetched _ rhsLaid lhsLaid
        exact .binary known lhsLaid rhsLaid fetched
  | not operand induction =>
      exact induction.bind fun inner => (Ensures.checked fun _ _ _ => trivial).bind fun _ =>
        (Ensures.alloc _).bind fun id => .pure fun draft fetched _ laid => .not laid fetched
  | addressOf text =>
      exact (Ensures.intern text).bind fun name => (Ensures.alloc _).bind fun id =>
        .pure fun draft fetched named => .addressOf named fetched
  | valueOf text =>
      exact (Ensures.intern text).bind fun name => (Ensures.alloc _).bind fun id =>
        .pure fun draft fetched named => .valueOf named fetched

theorem ensures_value (expr : Expr) :
    (value expr).Ensures fun draft id => draft.LaysExpr expr id :=
  (ensures_expression expr).bind fun _ => .pure fun _ laid => laid

theorem ensures_values (exprs : List Expr) :
    (values exprs).Ensures fun draft ids => List.Forall₂ draft.LaysExpr exprs ids := by
  induction exprs with
  | nil => exact .pure fun _ => .nil
  | cons expr exprs induction =>
      exact (ensures_value expr).bind fun id => induction.bind fun ids =>
        .pure fun draft restLaid laid => .cons laid restLaid

theorem ensures_condition (construct : Construct) (expr : Expr) :
    (condition construct expr).Ensures fun draft id => draft.LaysExpr expr id :=
  (ensures_expression expr).bind fun _ => (Ensures.checked fun _ _ _ => trivial).bind fun _ =>
    .pure fun _ _ laid => laid

theorem ensures_formals (function : String) (known : List Name) (texts : List String) :
    (formals function known texts).Ensures fun draft names =>
      ∃ added, names = known ++ added ∧ List.Forall₂ draft.Names texts added := by
  induction texts generalizing known with
  | nil => exact .pure fun _ => ⟨[], by simp, .nil⟩
  | cons text texts induction =>
      refine (Ensures.intern text).bind fun name => ?_
      split
      · exact .reject _
      · apply (induction (known ++ [name])).mono
        intro draft names found named
        rcases found with ⟨added, rfl, laid⟩
        exact ⟨name :: added, by simp, .cons named laid⟩

mutual
theorem ensures_block : (tree : Block) → (block tree).Ensures fun draft id => draft.LaysBlock tree id
  | .mk parts body => by
      refine (ensures_declarations parts).bind fun declared => (ensures_sequence declared).bind
        fun declarations => (ensures_commands body).bind fun commanded =>
        (ensures_sequence commanded).bind fun commands => (Ensures.alloc _).mono ?_
      intro draft id fetched commandsFlat bodyLaid declarationsFlat partsLaid
      exact .mk partsLaid declarationsFlat bodyLaid commandsFlat fetched
termination_by structural tree => tree

theorem ensures_function : (tree : Function) →
    (function tree).Ensures fun draft binding => draft.LaysFunction tree binding
  | .mk text parameters body => by
      refine (ensures_formals text [] parameters).bind fun names =>
        (Ensures.allocFormals names).bind fun span => (ensures_block body).bind fun bodyId =>
        (Ensures.alloc _).bind fun closure => (Ensures.intern text).bind fun name => .pure ?_
      intro draft named fetched bodyLaid listed found
      rcases found with ⟨added, rfl, formals⟩
      exact .mk formals listed bodyLaid fetched named
termination_by structural tree => tree

theorem ensures_functions : (trees : List Function) →
    (functions trees).Ensures fun draft bindings => draft.LaysFunctions trees bindings
  | [] => .pure fun _ => .nil
  | first :: rest => (ensures_function first).bind fun _ =>
      (ensures_functions rest).bind fun _ =>
      .pure fun _ restLaid firstLaid => .cons firstLaid restLaid
termination_by structural trees => trees

theorem ensures_declaration : (tree : Declaration) →
    (declaration tree).Ensures fun draft id => draft.LaysDeclaration tree id
  | .var text initial => by
      refine (ensures_value initial).bind fun value => (Ensures.alloc _).bind fun cell =>
        (Ensures.intern text).bind fun name => (Ensures.alloc _).mono ?_
      intro draft id fetched named allocates laid
      exact .var laid allocates named fetched
  | .const text expr => by
      refine (ensures_value expr).bind fun value => (Ensures.intern text).bind fun name =>
        (Ensures.alloc _).mono ?_
      intro draft id fetched named laid
      exact .const laid named fetched
  | .function declared =>
      (ensures_function declared).bind fun _ => (Ensures.alloc _).mono fun _ _ fetched laid =>
        .function laid fetched
  | .recursive [] => .reject _
  | .recursive (first :: rest) => by
      refine (ensures_function first).bind fun binding => (ensures_functions rest).bind
        fun bindings => (Ensures.allocGroup _).bind fun span => (Ensures.alloc _).mono ?_
      intro draft id fetched listed restLaid firstLaid
      exact .recursive (.cons firstLaid restLaid) listed fetched
termination_by structural tree => tree

theorem ensures_declarations : (trees : List Declaration) →
    (declarations trees).Ensures fun draft ids => draft.LaysDeclarations trees ids
  | [] => .pure fun _ => .nil
  | first :: rest => (ensures_declaration first).bind fun _ =>
      (ensures_declarations rest).bind fun _ =>
      .pure fun _ restLaid firstLaid => .cons firstLaid restLaid
termination_by structural trees => trees

theorem ensures_command : (tree : Command) →
    (command tree).Ensures fun draft id => draft.LaysCommand tree id
  | .nop => (Ensures.alloc _).mono fun _ _ fetched => .nop fetched
  | .assign text expr => by
      refine (ensures_value expr).bind fun value => (Ensures.intern text).bind fun name =>
        (Ensures.alloc _).mono ?_
      intro draft id fetched named laid
      exact .assign laid named fetched
  | .loop test body => by
      refine (ensures_condition .loop test).bind fun condition => (ensures_commands body).bind
        fun commanded => (ensures_sequence commanded).bind fun bodyId => (Ensures.alloc _).mono ?_
      intro draft id fetched flat bodyLaid testLaid
      exact .loop testLaid bodyLaid flat fetched
  | .ifThen test body => by
      refine (ensures_condition .conditional test).bind fun condition => (ensures_commands body).bind
        fun commanded => (ensures_sequence commanded).bind fun bodyId => (Ensures.alloc _).mono ?_
      intro draft id fetched flat bodyLaid testLaid
      exact .ifThen testLaid bodyLaid flat fetched
  | .ifThenElse test thenCommands elseCommands => by
      refine (ensures_condition .conditional test).bind fun condition =>
        (ensures_commands thenCommands).bind fun thenCommanded =>
        (ensures_sequence thenCommanded).bind fun thenId =>
        (ensures_commands elseCommands).bind fun elseCommanded =>
        (ensures_sequence elseCommanded).bind fun elseId => (Ensures.alloc _).mono ?_
      intro draft id fetched elseFlat elseLaid thenFlat thenLaid testLaid
      exact .ifThenElse testLaid thenLaid thenFlat elseLaid elseFlat fetched
  | .block inner => (ensures_block inner).mono fun _ _ => .block
  | .print expr => (ensures_value expr).bind fun _ => (Ensures.alloc _).mono fun _ _ fetched laid =>
      .print laid fetched
  | .call text exprs => by
      refine (ensures_values exprs).bind fun ids => (Ensures.intern text).bind fun name =>
        (Ensures.allocActuals ids).bind fun span => (Ensures.alloc _).mono ?_
      intro draft id fetched listed named laid
      exact .call laid named listed fetched
termination_by structural tree => tree

theorem ensures_commands : (trees : List Command) →
    (commands trees).Ensures fun draft ids => draft.LaysCommands trees ids
  | [] => .pure fun _ => .nil
  | first :: rest => (ensures_command first).bind fun _ => (ensures_commands rest).bind fun _ =>
      .pure fun _ restLaid firstLaid => .cons firstLaid restLaid
termination_by structural trees => trees
end

theorem ensures_program (body : List Command) :
    (program body).Ensures fun draft root => ∃ ids,
      draft.LaysCommands body ids ∧ draft.code.Flattens root ids :=
  (ensures_commands body).bind fun ids => (ensures_sequence ids).mono
    fun _ _ flat laid => ⟨ids, laid, flat⟩

end Build

/-- An image is laid out as its draft. -/
def Image.draft (image : Image) : Draft :=
  ⟨image.names, image.code⟩

/-- The image of a translated program lays out the program. -/
theorem exists_laid_of_translate {names : NameTable} {body : List Command} {program : Program}
    (accepted : (translate names body).1 = .ok program) :
    ∃ ids, (Image.draft ⟨program, (translate names body).2⟩).LaysCommands body ids ∧
      program.code.Flattens program.root ids := by
  unfold translate at accepted ⊢
  cases built : Build.program body ⟨names, .empty⟩ with
  | error rejection draft => simp [built] at accepted
  | ok root draft =>
      rw [built] at accepted
      cases accepted
      rcases Build.ensures_program body _ root draft built with ⟨_, laid⟩
      exact laid draft (.refl draft)

/-- What a surface program is translated to; nothing if it is rejected. -/
def Program.ofBody (body : List Command) : Program :=
  (translate .initial body).1.toOption.getD default

theorem translate_eq_ok {body : List Command} (accepted : (translate .initial body).1.isOk) :
    (translate .initial body).1 = .ok (.ofBody body) := by
  unfold Program.ofBody
  cases translated : (translate .initial body).1 with
  | ok program => rfl
  | error rejection => simp [translated, Except.isOk, Except.toBool] at accepted

end BlockMachine
