import BlockMachine.Proofs.Translation.Growth

namespace BlockMachine

/-! # No node is shared

Translation uses the node of every part once, for the construct that the part
belongs to. At any time the nodes of a draft are therefore of two kinds: those that
one other node refers to, and those that still wait for the construct around
them. -/

namespace Node

/-- The nodes that a node refers to. -/
def children (code : Code) : Node → List NodeId
  | .identifier _ | .number _ | .truth _ | .addressOf _ | .valueOf _ | .noOp => []
  | .arith _ lhs rhs | .logic _ lhs rhs => [lhs, rhs]
  | .not operand => [operand]
  | .allocateReference initial => [initial]
  | .assign _ value => [value]
  | .sequence first second => [first, second]
  | .conditional condition thenBranch elseBranch =>
    condition :: thenBranch :: elseBranch.toList
  | .loop condition body => [condition, body]
  | .block declarations commands => [declarations, commands]
  | .print value => [value]
  | .call _ actuals => code.actuals actuals
  | .bind _ value => [value]
  | .recBind group => (code.group group).map Prod.snd
  | .abstraction _ body => [body]

theorem children_ofOperator (code : Code) (op : BinaryOperator) (lhs rhs : NodeId) :
    (ofOperator op lhs rhs).children code = [lhs, rhs] := by
  cases op <;> rfl

end Node

/-- The nodes that the nodes of code refer to, each as often as it is referred to. -/
def Code.references (code : Code) : List NodeId :=
  code.nodes.toList.flatMap (Node.children code)

/-- Whether every node of a draft is referred to once or is one of `waiting`, not
both, however much the draft grows. -/
def Draft.Owes (draft : Draft) (waiting : List NodeId) : Prop :=
  ∀ later, draft.Extends later → ∀ id : NodeId,
    (draft.code.nodes.toList.flatMap (Node.children later.code)).count id + waiting.count id =
      if id.index < draft.code.nodes.size then 1 else 0

namespace Build

/-- Whether an action uses the nodes `taken`, which wait for it, and leaves those
waiting that its result gives. -/
def Grafts (action : Build α) (taken : List NodeId) (given : α → List NodeId) : Prop :=
  ∀ draft result after waiting, action draft = .ok result after →
    draft.Owes (taken ++ waiting) → after.Owes (given result ++ waiting)

namespace Grafts

variable {taken waiting : List NodeId} {given : α → List NodeId}

theorem pure {result : α} (same : (given result).Perm taken) :
    Grafts (Pure.pure result) taken given := by
  intro draft _ after waiting built owes later grown id
  cases built
  rw [(same.append_right waiting).count_eq]
  exact owes later grown id

theorem bind {action : Build α} {following : α → Build β} {result : β → List NodeId}
    (first : action.Grafts taken given)
    (second : ∀ value, (following value).Grafts (given value) result) :
    (action >>= following).Grafts taken result := by
  intro draft value after waiting built owes
  obtain ⟨found, middle, started, continued⟩ := exists_of_bind_eq_ok built
  exact second found middle value after waiting continued
    (first draft found middle waiting started owes)

/-- Nodes that an action has nothing to do with go on waiting. -/
theorem frame {action : Build α} (grafts : action.Grafts taken given) (others : List NodeId) :
    action.Grafts (taken ++ others) fun value => given value ++ others := by
  intro draft value after waiting built owes
  rw [List.append_assoc] at owes ⊢
  exact grafts draft value after (others ++ waiting) built owes

/-- What waits while an action runs that needs none of it is there for the next
one. -/
theorem next {action : Build α} {following : α → Build β} {result : β → List NodeId}
    (first : action.Grafts [] given)
    (second : ∀ value, (following value).Grafts (given value ++ taken) result) :
    (action >>= following).Grafts taken result :=
  (first.frame taken).bind second

theorem reject (rejection : Rejection) : Grafts (reject rejection) taken given := by
  intro draft result after waiting built
  cases built

/-- An action that adds no nodes leaves waiting what waits. -/
theorem of_nodes_eq {action : Build α} {Holds : Draft → α → Prop} (ensures : action.Ensures Holds)
    (same : ∀ draft result after, action draft = .ok result after →
      after.code.nodes = draft.code.nodes) : action.Grafts [] fun _ => [] := by
  intro draft result after waiting built owes later grown
  rw [same draft result after built]
  exact owes later ((ensures draft result after built).1.trans grown)

theorem checked (outcome : Except Rejection α) : Grafts (checked outcome) [] fun _ => [] := by
  unfold Build.checked
  split
  · exact pure (.refl _)
  · exact reject _

theorem intern (text : String) : Grafts (intern text) [] fun _ => [] :=
  of_nodes_eq (Ensures.intern text) fun draft result after built => by cases built; rfl

theorem allocFormals (names : List Name) : Grafts (allocFormals names) [] fun _ => [] :=
  of_nodes_eq (Ensures.allocFormals names) fun draft result after built => by cases built; rfl

/-- A new node uses what it refers to, and waits itself. -/
theorem alloc_of_children {node : Node} {draft after : Draft} {id : NodeId}
    (built : alloc node draft = .ok id after) {children : List NodeId}
    (refers : ∀ later, after.Extends later → (node.children later.code).Perm children)
    (owes : draft.Owes (children ++ waiting)) : after.Owes ([id] ++ waiting) := by
  intro later grown query
  have grows := (Ensures.alloc node draft id after built).1
  have before := owes later (grows.trans grown) query
  have counted := (refers later grown).count_eq query
  cases built
  simp only [Array.toList_push, List.flatMap_append, List.flatMap_cons,
    List.flatMap_nil, List.append_nil, List.count_append, Array.size_push] at before counted ⊢
  have newest : List.count query [(⟨draft.code.nodes.size⟩ : NodeId)] =
      if draft.code.nodes.size = query.index then 1 else 0 := by
    rcases query with ⟨index⟩
    simp only [List.count_singleton, beq_iff_eq, NodeId.mk.injEq]
  rw [newest]
  rcases Nat.lt_trichotomy query.index draft.code.nodes.size with older | same | unknown
  · rw [if_pos older] at before
    rw [if_neg (by omega), if_pos (by omega)]
    omega
  · rw [if_neg (by omega)] at before
    rw [if_pos same.symm, if_pos (by omega)]
    omega
  · rw [if_neg (by omega)] at before
    rw [if_neg (by omega), if_neg (by omega)]
    omega

theorem alloc {node : Node} (children : ∀ code, (node.children code).Perm taken) :
    Grafts (alloc node) taken fun id => [id] := by
  intro draft id after waiting built owes
  exact alloc_of_children built (fun later _ => children later.code) owes

/-- The actuals of a call lie in a list of their own. -/
theorem allocCall (callee : Name) (ids : List NodeId) :
    Grafts (do
      let actuals ← allocActuals ids
      Build.alloc (.call callee actuals)) ids fun id => [id] := by
  intro draft id after waiting built owes
  obtain ⟨span, middle, listed, allocated⟩ := exists_of_bind_eq_ok built
  rcases Ensures.allocActuals ids draft span middle listed with ⟨_, listedLater⟩
  have grows := (Ensures.alloc _ middle id after allocated).1
  have owesMiddle := of_nodes_eq (Ensures.allocActuals ids)
    (fun draft result after built => by cases built; rfl) draft span middle _ listed owes
  refine alloc_of_children allocated ?_ owesMiddle
  intro later grown
  rw [Node.children, listedLater later (grows.trans grown)]

/-- So do the members of a recursive group. -/
theorem allocRecBind (bindings : List Binding) (members : (bindings.map Prod.snd).Perm taken) :
    Grafts (do
      let group ← allocGroup bindings
      Build.alloc (.recBind group)) taken fun id => [id] := by
  intro draft id after waiting built owes
  obtain ⟨span, middle, listed, allocated⟩ := exists_of_bind_eq_ok built
  rcases Ensures.allocGroup bindings draft span middle listed with ⟨_, listedLater⟩
  have grows := (Ensures.alloc _ middle id after allocated).1
  have owesMiddle := of_nodes_eq (Ensures.allocGroup bindings)
    (fun draft result after built => by cases built; rfl) draft span middle _ listed owes
  refine alloc_of_children allocated ?_ owesMiddle
  intro later grown
  rw [Node.children, listedLater later (grows.trans grown)]
  exact members

end Grafts

/-! ## What translation grafts -/

theorem grafts_sequenceFrom (first : NodeId) (rest : List NodeId) :
    (sequenceFrom first rest).Grafts (first :: rest) fun id => [id] := by
  induction rest generalizing first with
  | nil => exact .pure (.refl _)
  | cons second rest induction =>
      have both : (alloc (.sequence first second)).Grafts [first, second] fun id => [id] :=
        .alloc fun _ => .refl _
      exact (both.frame rest).bind induction

theorem grafts_sequence (ids : List NodeId) : (sequence ids).Grafts ids fun id => [id] := by
  cases ids with
  | nil => exact .alloc fun _ => .nil
  | cons first rest => exact grafts_sequenceFrom first rest

theorem grafts_expression (expr : Expr) :
    (expression expr).Grafts [] fun result => [result.1] := by
  induction expr with
  | ident text | addressOf text | valueOf text =>
      exact (Grafts.intern text).next fun name =>
        Grafts.bind (.alloc fun _ => .nil) fun id => .pure (.refl _)
  | num value | bool value => exact Grafts.bind (.alloc fun _ => .nil) fun id => .pure (.refl _)
  | binary lexeme lhs rhs inductionLhs inductionRhs =>
      unfold expression
      split
      next => exact .reject _
      next op known =>
        refine inductionLhs.next fun left => inductionRhs.next fun right =>
          (Grafts.checked _).next fun kind => Grafts.bind (.alloc fun code => ?_) fun id => .pure (.refl _)
        rw [Node.children_ofOperator]
        exact .swap _ _ _
  | not operand induction =>
      exact induction.next fun inner => (Grafts.checked _).next fun _ =>
        Grafts.bind (.alloc fun _ => .refl _) fun id => .pure (.refl _)

theorem grafts_value (expr : Expr) : (value expr).Grafts [] fun id => [id] :=
  (grafts_expression expr).bind fun _ => .pure (.refl _)

theorem grafts_values (exprs : List Expr) : (values exprs).Grafts [] fun ids => ids := by
  induction exprs with
  | nil => exact .pure (.refl _)
  | cons expr exprs induction =>
      exact (grafts_value expr).next fun id => induction.next fun ids =>
        .pure (@List.perm_append_comm _ [id] ids)

theorem grafts_condition (construct : Construct) (expr : Expr) :
    (condition construct expr).Grafts [] fun id => [id] :=
  (grafts_expression expr).bind fun _ => (Grafts.checked _).next fun _ => .pure (.refl _)

theorem grafts_formals (function : String) (known : List Name) (texts : List String) :
    (formals function known texts).Grafts [] fun _ => [] := by
  induction texts generalizing known with
  | nil => exact .pure .nil
  | cons text texts induction =>
      refine (Grafts.intern text).next fun name => ?_
      split
      · exact .reject _
      · exact induction (known ++ [name])

mutual
theorem grafts_block : (tree : Block) → (block tree).Grafts [] fun id => [id]
  | .mk parts body => by
      refine (grafts_declarations parts).bind fun declared => (grafts_sequence declared).bind
        fun declarations => (grafts_commands body).next fun commanded =>
        ((grafts_sequence commanded).frame _).bind fun commands => .alloc fun _ => ?_
      exact .swap _ _ _
termination_by structural tree => tree

theorem grafts_function : (tree : Function) →
    (function tree).Grafts [] fun binding => [binding.2]
  | .mk text parameters body =>
      (grafts_formals text [] parameters).next fun names => (Grafts.allocFormals names).next
        fun _ => (grafts_block body).next fun _ =>
        Grafts.bind (.alloc fun _ => .refl _) fun _ => (Grafts.intern text).next fun _ =>
        .pure (.refl _)
termination_by structural tree => tree

theorem grafts_functions : (trees : List Function) →
    (functions trees).Grafts [] fun bindings => bindings.map Prod.snd
  | [] => .pure .nil
  | first :: rest => (grafts_function first).next fun binding =>
      (grafts_functions rest).next fun _ =>
      .pure (@List.perm_append_comm _ [binding.2] _)
termination_by structural trees => trees

theorem grafts_declaration : (tree : Declaration) → (declaration tree).Grafts [] fun id => [id]
  | .var text initial => (grafts_value initial).bind fun _ =>
      Grafts.bind (.alloc fun _ => .refl _) fun _ => (Grafts.intern text).next fun _ =>
      .alloc fun _ => .refl _
  | .const text expr => (grafts_value expr).bind fun _ => (Grafts.intern text).next fun _ =>
      .alloc fun _ => .refl _
  | .function declared => (grafts_function declared).bind fun _ => .alloc fun _ => .refl _
  | .recursive [] => .reject _
  | .recursive (first :: rest) => (grafts_function first).next fun binding =>
      (grafts_functions rest).next fun bindings =>
      .allocRecBind (binding :: bindings) (@List.perm_append_comm _ [binding.2] _)
termination_by structural tree => tree

theorem grafts_declarations : (trees : List Declaration) →
    (declarations trees).Grafts [] fun ids => ids
  | [] => .pure .nil
  | first :: rest => (grafts_declaration first).next fun id =>
      (grafts_declarations rest).next fun ids => .pure (@List.perm_append_comm _ [id] ids)
termination_by structural trees => trees

theorem grafts_command : (tree : Command) → (command tree).Grafts [] fun id => [id]
  | .nop => .alloc fun _ => .nil
  | .assign text expr => (grafts_value expr).bind fun value => (Grafts.intern text).next
      fun name => .alloc fun _ => .refl _
  | .loop test body => by
      refine (grafts_condition .loop test).bind fun condition => (grafts_commands body).next
        fun commanded => ((grafts_sequence commanded).frame _).bind fun bodyId => .alloc fun _ => ?_
      exact .swap _ _ _
  | .ifThen test body => by
      refine (grafts_condition .conditional test).bind fun condition => (grafts_commands body).next
        fun commanded => ((grafts_sequence commanded).frame _).bind fun bodyId => .alloc fun _ => ?_
      exact .swap _ _ _
  | .ifThenElse test thenCommands elseCommands => by
      refine (grafts_condition .conditional test).bind fun condition =>
        (grafts_commands thenCommands).next fun thenCommanded =>
        ((grafts_sequence thenCommanded).frame _).bind fun thenId =>
        (grafts_commands elseCommands).next fun elseCommanded =>
        ((grafts_sequence elseCommanded).frame _).bind fun elseId => .alloc fun _ => ?_
      exact (List.reverse_perm [elseId, thenId, condition])
  | .block inner => grafts_block inner
  | .print expr => (grafts_value expr).bind fun _ => .alloc fun _ => .refl _
  | .call text exprs => (grafts_values exprs).bind fun ids => (Grafts.intern text).next
      fun name => .allocCall name ids
termination_by structural tree => tree

theorem grafts_commands : (trees : List Command) → (commands trees).Grafts [] fun ids => ids
  | [] => .pure .nil
  | first :: rest => (grafts_command first).next fun id =>
      (grafts_commands rest).next fun ids => .pure (@List.perm_append_comm _ [id] ids)
termination_by structural trees => trees
end

theorem grafts_program (body : List Command) : (program body).Grafts [] fun id => [id] :=
  (grafts_commands body).bind grafts_sequence

end Build

theorem Draft.owes_empty (names : NameTable) : (⟨names, .empty⟩ : Draft).Owes [] := by
  intro later grown id
  simp [Code.empty]

/-- Every node of a translated program is referred to once, but for the root, which
no node refers to. -/
theorem count_references_of_translate {names : NameTable} {body : List Command} {program : Program}
    (accepted : (translate names body).1 = .ok program) (id : NodeId) :
    program.code.references.count id + [program.root].count id =
      if id.index < program.code.nodes.size then 1 else 0 := by
  unfold translate at accepted
  cases built : Build.program body ⟨names, .empty⟩ with
  | error rejection draft => simp [built] at accepted
  | ok root draft =>
      rw [built] at accepted
      cases accepted
      have owes := Build.grafts_program body _ root draft [] built (Draft.owes_empty names)
      exact owes draft (.refl draft) id

end BlockMachine
