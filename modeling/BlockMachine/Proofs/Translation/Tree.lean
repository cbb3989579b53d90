import BlockMachine.Proofs.Translation.Occurrences
import BlockMachine.Proofs.Translation.WellFormed
import Mathlib.Logic.Relation

namespace BlockMachine

/-! # Translated programs are trees

The machine reads nodes and lists without further checks. What translation emits is a tree
in which every number and every span means something. -/

/-- Whether a node refers to another one. -/
def Code.Refers (code : Code) (parent child : NodeId) : Prop :=
  ∃ node, code.node? parent = some node ∧ child ∈ node.children code

/-- Whether the nodes of a program are a tree with its root at the end, its lists tile
their pools, and its names are those of a table. -/
structure Program.IsTree (program : Program) (table : NameTable) : Prop where
  /-- Children have smaller numbers. -/
  ordered : ∀ parent child, program.code.Refers parent child → child.index < parent.index
  /-- The root is the last node. -/
  last : program.root.index + 1 = program.code.size
  /-- Every node but the root is a child once, of one node; the root is none. -/
  single : ∀ id : NodeId, id.index < program.code.size →
    program.code.references.count id = if id = program.root then 0 else 1
  reachable : ∀ id : NodeId, id.index < program.code.size →
    Relation.ReflTransGen program.code.Refers program.root id
  actuals : program.code.nodeLists.Tiled program.code.actualSpans
  formals : program.code.nameLists.Tiled program.code.formalSpans
  groups : program.code.groups.Tiled program.code.groupSpans
  /-- Functions have distinct formals, and their bodies are blocks. -/
  functions : ∀ id span body, program.code.node? id = some (.abstraction span body) →
    (program.code.formals span).Nodup ∧
      ∃ declarations commands, program.code.node? body = some (.block declarations commands)
  /-- Recursive groups are not empty, and their members are functions. -/
  members : ∀ id span, program.code.node? id = some (.recBind span) →
    program.code.group span ≠ [] ∧ Node.AreFunctions program.code (program.code.group span)
  named : ∀ name ∈ program.code.names, name.index < table.size

/-! ## What the layout of a part says about numbers -/

namespace Draft

variable {draft : Draft} {id : NodeId}

theorem Names.index_lt {text : String} {name : Name} (named : draft.Names text name) :
    name.index < draft.names.size :=
  (List.getElem?_eq_some_iff.mp (NameTable.find?_eq_some_iff.mp named)).1

theorem LaysExpr.knows {expr : Expr} (laid : draft.LaysExpr expr id) : draft.Knows id := by
  cases laid <;> exact knows_of_node? ‹_›

theorem LaysBlock.fetches {tree : Block} (laid : draft.LaysBlock tree id) :
    ∃ declarations commands, draft.code.node? id = some (.block declarations commands) := by
  cases laid with
  | mk _ _ _ _ fetched => exact ⟨_, _, fetched⟩

theorem LaysFunction.fetches {tree : Function} {binding : Binding}
    (laid : draft.LaysFunction tree binding) :
    ∃ formals body, draft.code.node? binding.2 = some (.abstraction formals body) := by
  cases laid with
  | mk _ _ _ fetched _ => exact ⟨_, _, fetched⟩

theorem LaysFunction.named {tree : Function} {binding : Binding}
    (laid : draft.LaysFunction tree binding) : binding.1.index < draft.names.size := by
  cases laid with
  | mk _ _ _ _ named => exact Names.index_lt named

theorem LaysDeclaration.knows {tree : Declaration} (laid : draft.LaysDeclaration tree id) :
    draft.Knows id := by
  cases laid <;> exact knows_of_node? ‹draft.code.node? id = _›

theorem LaysCommand.knows {tree : Command} (laid : draft.LaysCommand tree id) :
    draft.Knows id := by
  cases laid with
  | block laid =>
      obtain ⟨_, _, fetched⟩ := laid.fetches
      exact knows_of_node? fetched
  | _ => exact knows_of_node? ‹draft.code.node? id = _›

theorem knows_of_flattens {ids : List NodeId} (flat : draft.code.Flattens id ids)
    (known : ∀ part ∈ ids, draft.Knows part) : draft.Knows id := by
  cases flat with
  | self => exact known id List.mem_cons_self
  | nothing fetched => exact knows_of_node? fetched
  | sequence fetched _ _ => exact knows_of_node? fetched

theorem knows_of_forall₂ {Laid : α → NodeId → Prop} {trees : List α} {ids : List NodeId}
    (laid : List.Forall₂ Laid trees ids)
    (knows : ∀ tree id, Laid tree id → draft.Knows id) : ∀ id ∈ ids, draft.Knows id := by
  intro id member
  obtain ⟨tree, _, holds⟩ := exists_of_mem_right laid member
  exact knows tree id holds

theorem LaysDeclarations.knows {parts : List Declaration} {ids : List NodeId}
    (laid : draft.LaysDeclarations parts ids) : ∀ id ∈ ids, draft.Knows id :=
  knows_of_forall₂ laid.forall₂ fun _ _ => LaysDeclaration.knows

theorem LaysCommands.knows {body : List Command} {ids : List NodeId}
    (laid : draft.LaysCommands body ids) : ∀ id ∈ ids, draft.Knows id :=
  knows_of_forall₂ laid.forall₂ fun _ _ => LaysCommand.knows

end Draft

/-! ## What translation keeps -/

namespace Build

theorem keeps_sequenceFrom (first : NodeId) (rest : List NodeId) :
    Keeps (fun draft => draft.Knows first ∧ ∀ id ∈ rest, draft.Knows id)
      (sequenceFrom first rest) := by
  induction rest generalizing first with
  | nil => exact .pure
  | cons second rest induction =>
      refine .bind (.alloc (.sequence first second)) (.alloc ?_) fun both =>
        (induction both).mono ?_
      · rintro draft ⟨knowsFirst, knowsRest⟩
        obtain ⟨knowsSecond, _⟩ := List.forall_mem_cons.mp knowsRest
        exact .mk ⟨rfl, rfl, rfl⟩ (fun _ => by simp [Node.children, knowsFirst, knowsSecond])
          (List.forall_mem_nil _)
      · rintro draft ⟨⟨_, knowsRest⟩, fetched⟩
        exact ⟨Draft.knows_of_node? fetched, (List.forall_mem_cons.mp knowsRest).2⟩

theorem keeps_sequence (ids : List NodeId) :
    Keeps (fun draft => ∀ id ∈ ids, draft.Knows id) (sequence ids) := by
  cases ids with
  | nil => exact .alloc fun _ _ =>
      ⟨⟨rfl, rfl, rfl⟩, fun _ => List.forall_mem_nil _, List.forall_mem_nil _⟩
  | cons first rest => exact (keeps_sequenceFrom first rest).mono fun _ =>
      List.forall_mem_cons.mp

theorem keeps_expression (expr : Expr) : Keeps (fun _ => True) (expression expr) := by
  induction expr with
  | ident text | addressOf text | valueOf text =>
      refine .bind (.intern text) (.intern text) fun name =>
        .bind (.alloc _) (.alloc ?_) fun id => .pure
      rintro draft ⟨_, named⟩
      exact ⟨⟨rfl, rfl, rfl⟩, fun _ => List.forall_mem_nil _,
        List.forall_mem_singleton.mpr (Draft.Names.index_lt named)⟩
  | num value | bool value =>
      refine .bind (.alloc _) (.alloc fun draft _ => ?_) fun id => .pure
      exact ⟨⟨rfl, rfl, rfl⟩, fun _ => List.forall_mem_nil _, List.forall_mem_nil _⟩
  | binary lexeme lhs rhs inductionLhs inductionRhs =>
      unfold expression
      split
      next => exact .reject _
      next op known =>
        refine .bind (ensures_expression lhs) inductionLhs fun left =>
          .bind (ensures_expression rhs) (inductionRhs.free) fun right =>
          .bind (.checked fun _ _ _ => trivial) (.checked _) fun kind =>
          .bind (.alloc _) (.alloc ?_) fun id => .pure
        rintro draft ⟨⟨⟨_, lhsLaid⟩, rhsLaid⟩, _⟩
        refine ⟨Node.isPlain_ofOperator op _ _, fun code => ?_, ?_⟩
        · rw [Node.children_ofOperator]
          exact List.forall_mem_cons.mpr ⟨lhsLaid.knows, List.forall_mem_singleton.mpr rhsLaid.knows⟩
        · rw [Node.names_ofOperator]
          exact List.forall_mem_nil _
  | not operand induction =>
      refine .bind (ensures_expression operand) induction fun inner =>
        .bind (.checked fun _ _ _ => trivial) (.checked _) fun _ =>
        .bind (.alloc _) (.alloc ?_) fun id => .pure
      rintro draft ⟨⟨_, laid⟩, _⟩
      exact ⟨⟨rfl, rfl, rfl⟩, fun _ => List.forall_mem_singleton.mpr laid.knows,
        List.forall_mem_nil _⟩

theorem keeps_value (expr : Expr) : Keeps (fun _ => True) (value expr) :=
  .bind (ensures_expression expr) (keeps_expression expr) fun _ => .pure

theorem keeps_values (exprs : List Expr) : Keeps (fun _ => True) (values exprs) := by
  induction exprs with
  | nil => exact .pure
  | cons expr exprs induction =>
      exact .bind (ensures_value expr) (keeps_value expr) fun id =>
        .bind (ensures_values exprs) induction.free fun ids => .pure

theorem keeps_condition (construct : Construct) (expr : Expr) :
    Keeps (fun _ => True) (condition construct expr) :=
  .bind (ensures_expression expr) (keeps_expression expr) fun _ =>
    .bind (.checked fun _ _ _ => trivial) (.checked _) fun _ => .pure

theorem keeps_formals (function : String) (known : List Name) (texts : List String) :
    Keeps (fun _ => True) (formals function known texts) := by
  induction texts generalizing known with
  | nil => exact .pure
  | cons text texts induction =>
      refine .bind (.intern text) (.intern text) fun name => ?_
      split
      · exact .reject _
      · exact (induction (known ++ [name])).free

/-- Formals are distinct, since a repeated one is rejected. -/
theorem ensures_formals_nodup (function : String) (known : List Name) (texts : List String)
    (distinct : known.Nodup) :
    (formals function known texts).Ensures fun _ names => names.Nodup := by
  induction texts generalizing known with
  | nil => exact .pure fun _ => distinct
  | cons text texts induction =>
      refine (Ensures.intern text).bind fun name => ?_
      split
      next => exact .reject _
      next fresh =>
        have notKnown : name ∉ known := fun member => fresh (List.contains_iff_mem.mpr member)
        refine (induction (known ++ [name]) ?_).mono fun _ _ distinct _ => distinct
        rw [← List.concat_eq_append]
        exact distinct.concat notKnown

/-- Once a body has been translated, its node is there. -/
theorem Keeps.body {Given : Draft → Prop} {body : List Command} {next : NodeId → Build α}
    (keeps : Keeps (fun _ => True) (commands body))
    (rest : ∀ id, Keeps (fun draft => Given draft ∧ draft.Knows id) (next id)) :
    Keeps Given (do
      let commanded ← commands body
      let id ← sequence commanded
      next id) := by
  refine .bind (ensures_commands body) keeps.free fun commanded =>
    .bind (ensures_sequence commanded) ((keeps_sequence commanded).mono ?_) fun id =>
    (rest id).mono ?_
  · rintro draft ⟨_, laid⟩
    exact laid.knows
  · rintro draft ⟨⟨given, laid⟩, flat⟩
    exact ⟨given, Draft.knows_of_flattens flat laid.knows⟩

mutual
theorem keeps_block : (tree : Block) → Keeps (fun _ => True) (block tree)
  | .mk parts body => by
      refine .bind (ensures_declarations parts) (keeps_declarations parts) fun declared =>
        .bind (ensures_sequence declared) ((keeps_sequence declared).mono ?_) fun declarations =>
        .body (keeps_commands body) fun commands => .alloc ?_
      · rintro draft ⟨_, laid⟩
        exact laid.knows
      · rintro draft ⟨⟨⟨_, laid⟩, flat⟩, knowsCommands⟩
        have knowsDeclarations := Draft.knows_of_flattens flat laid.knows
        exact .mk ⟨rfl, rfl, rfl⟩
          (fun _ => by simp [Node.children, knowsDeclarations, knowsCommands])
          (List.forall_mem_nil _)
termination_by structural tree => tree

theorem keeps_function : (tree : Function) → Keeps (fun _ => True) (function tree)
  | .mk text parameters body => by
      have distinct := ensures_formals_nodup text [] parameters List.nodup_nil
      refine .bind (distinct.and (ensures_formals text [] parameters))
        (keeps_formals text [] parameters) fun names => .abstraction ?_ (keeps_block body).free
        ((ensures_block body).mono fun _ _ => Draft.LaysBlock.fetches) fun closure =>
        .bind (.intern text) (.intern text) fun name => .pure
      rintro draft ⟨_, distinct, added, rfl, named⟩
      refine ⟨distinct, fun name member => ?_⟩
      obtain ⟨_, _, known⟩ := exists_of_mem_right named member
      exact Draft.Names.index_lt known
termination_by structural tree => tree

theorem keeps_functions : (trees : List Function) → Keeps (fun _ => True) (functions trees)
  | [] => .pure
  | first :: rest => .bind (ensures_function first) (keeps_function first) fun _ =>
      .bind (ensures_functions rest) (keeps_functions rest).free fun _ => .pure
termination_by structural trees => trees

theorem keeps_declaration : (tree : Declaration) → Keeps (fun _ => True) (declaration tree)
  | .var text initial => by
      refine .bind (ensures_value initial) (keeps_value initial) fun value =>
        .bind (.alloc _) (.alloc ?_) fun cell => .bind (.intern text) (.intern text) fun name =>
        .alloc ?_
      · rintro draft ⟨_, laid⟩
        exact ⟨⟨rfl, rfl, rfl⟩, fun _ => List.forall_mem_singleton.mpr laid.knows,
          List.forall_mem_nil _⟩
      · rintro draft ⟨⟨_, allocates⟩, named⟩
        exact ⟨⟨rfl, rfl, rfl⟩,
          fun _ => List.forall_mem_singleton.mpr (Draft.knows_of_node? allocates),
          List.forall_mem_singleton.mpr (Draft.Names.index_lt named)⟩
  | .const text expr => by
      refine .bind (ensures_value expr) (keeps_value expr) fun value =>
        .bind (.intern text) (.intern text) fun name => .alloc ?_
      rintro draft ⟨⟨_, laid⟩, named⟩
      exact ⟨⟨rfl, rfl, rfl⟩, fun _ => List.forall_mem_singleton.mpr laid.knows,
        List.forall_mem_singleton.mpr (Draft.Names.index_lt named)⟩
  | .function declared => by
      refine .bind (ensures_function declared) (keeps_function declared) fun binding => .alloc ?_
      rintro draft ⟨_, laid⟩
      obtain ⟨_, _, fetched⟩ := laid.fetches
      exact ⟨⟨rfl, rfl, rfl⟩, fun _ => List.forall_mem_singleton.mpr (Draft.knows_of_node? fetched),
        List.forall_mem_singleton.mpr laid.named⟩
  | .recursive [] => .reject _
  | .recursive (first :: rest) => by
      refine .bind (ensures_function first) (keeps_function first) fun binding =>
        .bind (ensures_functions rest) (keeps_functions rest).free fun bindings =>
        .allocRecBind (List.cons_ne_nil _ _) ?_
      rintro draft ⟨⟨_, firstLaid⟩, restLaid⟩
      refine ⟨List.forall_mem_cons.mpr ⟨firstLaid.fetches, ?_⟩,
        List.forall_mem_cons.mpr ⟨firstLaid.named, ?_⟩⟩
      · intro member isMember
        obtain ⟨_, _, laid⟩ := exists_of_mem_right restLaid.forall₂ isMember
        exact laid.fetches
      · intro member isMember
        obtain ⟨_, _, laid⟩ := exists_of_mem_right restLaid.forall₂ isMember
        exact laid.named
termination_by structural tree => tree

theorem keeps_declarations : (trees : List Declaration) →
    Keeps (fun _ => True) (declarations trees)
  | [] => .pure
  | first :: rest => .bind (ensures_declaration first) (keeps_declaration first) fun _ =>
      .bind (ensures_declarations rest) (keeps_declarations rest).free fun _ => .pure
termination_by structural trees => trees

theorem keeps_command : (tree : Command) → Keeps (fun _ => True) (command tree)
  | .nop => .alloc fun _ _ =>
      ⟨⟨rfl, rfl, rfl⟩, fun _ => List.forall_mem_nil _, List.forall_mem_nil _⟩
  | .assign text expr => by
      refine .bind (ensures_value expr) (keeps_value expr) fun value =>
        .bind (.intern text) (.intern text) fun name => .alloc ?_
      rintro draft ⟨⟨_, laid⟩, named⟩
      exact ⟨⟨rfl, rfl, rfl⟩, fun _ => List.forall_mem_singleton.mpr laid.knows,
        List.forall_mem_singleton.mpr (Draft.Names.index_lt named)⟩
  | .loop test body => by
      refine .bind (ensures_condition .loop test) (keeps_condition .loop test) fun condition =>
        .body (keeps_commands body) fun bodyId => .alloc ?_
      rintro draft ⟨⟨_, testLaid⟩, knowsBody⟩
      exact .mk ⟨rfl, rfl, rfl⟩ (fun _ => by simp [Node.children, testLaid.knows, knowsBody])
        (List.forall_mem_nil _)
  | .ifThen test body => by
      refine .bind (ensures_condition .conditional test) (keeps_condition .conditional test)
        fun condition => .body (keeps_commands body) fun bodyId => .alloc ?_
      rintro draft ⟨⟨_, testLaid⟩, knowsBody⟩
      exact .mk ⟨rfl, rfl, rfl⟩ (fun _ => by simp [Node.children, testLaid.knows, knowsBody])
        (List.forall_mem_nil _)
  | .ifThenElse test thenCommands elseCommands => by
      refine .bind (ensures_condition .conditional test) (keeps_condition .conditional test)
        fun condition => .body (keeps_commands thenCommands) fun thenId =>
        .body (keeps_commands elseCommands) fun elseId => .alloc ?_
      rintro draft ⟨⟨⟨_, testLaid⟩, knowsThen⟩, knowsElse⟩
      exact .mk ⟨rfl, rfl, rfl⟩
        (fun _ => by simp [Node.children, testLaid.knows, knowsThen, knowsElse])
        (List.forall_mem_nil _)
  | .block inner => keeps_block inner
  | .print expr => by
      refine .bind (ensures_value expr) (keeps_value expr) fun value => .alloc ?_
      rintro draft ⟨_, laid⟩
      exact ⟨⟨rfl, rfl, rfl⟩, fun _ => List.forall_mem_singleton.mpr laid.knows,
        List.forall_mem_nil _⟩
  | .call text exprs => by
      refine .bind (ensures_values exprs) (keeps_values exprs) fun ids =>
        .bind (.intern text) (.intern text) fun name => .allocCall ?_
      rintro draft ⟨⟨_, laid⟩, named⟩
      exact ⟨Draft.knows_of_forall₂ laid fun _ _ => Draft.LaysExpr.knows,
        Draft.Names.index_lt named⟩
termination_by structural tree => tree

theorem keeps_commands : (trees : List Command) → Keeps (fun _ => True) (commands trees)
  | [] => .pure
  | first :: rest => .bind (ensures_command first) (keeps_command first) fun _ =>
      .bind (ensures_commands rest) (keeps_commands rest).free fun _ => .pure
termination_by structural trees => trees
end

theorem keeps_program (body : List Command) : Keeps (fun _ => True) (program body) :=
  .bind (ensures_commands body) (keeps_commands body) fun ids =>
    (keeps_sequence ids).mono fun _ given => given.2.knows

end Build

theorem wellFormed_of_translate {names : NameTable} {body : List Command} {program : Program}
    (accepted : (translate names body).1 = .ok program) :
    (Image.draft ⟨program, (translate names body).2⟩).WellFormed [] := by
  unfold translate at accepted ⊢
  cases built : Build.program body ⟨names, .empty⟩ with
  | error rejection draft => simp [built] at accepted
  | ok root draft =>
      rw [built] at accepted
      cases accepted
      exact Build.keeps_program body _ root draft [] (fun _ _ => trivial)
        (Draft.wellFormed_empty names) built

/-! ## The tree

In code whose children come before their parents, a node that no other one refers to is the
last one, and from every node the way up ends there. -/

namespace Code

variable {code : Code} {root : NodeId}

theorem mem_references_iff {child : NodeId} :
    child ∈ code.references ↔ ∃ parent, code.Refers parent child := by
  unfold references
  rw [List.mem_flatMap]
  constructor
  · rintro ⟨node, member, refers⟩
    obtain ⟨parent, fetched⟩ := mem_nodes_iff.mp member
    exact ⟨parent, node, fetched, refers⟩
  · rintro ⟨parent, node, fetched, refers⟩
    exact ⟨node, mem_nodes_iff.mpr ⟨parent, fetched⟩, refers⟩

theorem Refers.lt_size {parent child : NodeId} (refers : code.Refers parent child) :
    parent.index < code.size := by
  obtain ⟨node, fetched, _⟩ := refers
  exact (Array.getElem?_eq_some_iff.mp fetched).1

variable (ordered : ∀ parent child, code.Refers parent child → child.index < parent.index)
  (single : ∀ id : NodeId, id.index < code.size →
    code.references.count id = if id = root then 0 else 1)

include single in
theorem exists_parent {id : NodeId} (inside : id.index < code.size) (inner : id ≠ root) :
    ∃ parent, code.Refers parent id := by
  have once := single id inside
  rw [if_neg inner] at once
  exact mem_references_iff.mp (List.count_pos_iff.mp (by omega))

include ordered single in
/-- The last node has no parent, since parents are later. -/
theorem root_last (known : root.index < code.size) : root.index + 1 = code.size := by
  by_contra notLast
  let newest : NodeId := ⟨code.size - 1⟩
  have notRoot : newest ≠ root := by
    rintro rfl
    exact notLast (Nat.sub_one_add_one (Nat.ne_zero_of_lt known))
  obtain ⟨parent, refers⟩ := exists_parent single (Nat.sub_one_lt_of_lt known) notRoot
  have later : code.size - 1 < parent.index := ordered parent newest refers
  have inside := refers.lt_size
  omega

include ordered single in
/-- Going up from a node leads to later and later ones, up to the root. -/
theorem reachable_of_single (id : NodeId) (inside : id.index < code.size) :
    Relation.ReflTransGen code.Refers root id := by
  induction above : code.size - id.index using Nat.strong_induction_on generalizing id with
  | h above induction =>
      by_cases isRoot : id = root
      · rw [isRoot]
      · obtain ⟨parent, refers⟩ := exists_parent single inside isRoot
        have later := ordered parent id refers
        have parentInside := refers.lt_size
        exact (induction _ (by omega) parent parentInside rfl).tail refers

end Code

theorem ordered_of_translate {names : NameTable} {body : List Command} {program : Program}
    (accepted : (translate names body).1 = .ok program) (parent child : NodeId)
    (refers : program.code.Refers parent child) : child.index < parent.index := by
  obtain ⟨node, fetched, member⟩ := refers
  exact ((wellFormed_of_translate accepted).nodes parent node fetched).children child member

/-- Every accepted program is translated to a tree whose lists tile their pools. -/
theorem isTree_of_translate {names : NameTable} {body : List Command} {program : Program}
    (accepted : (translate names body).1 = .ok program) :
    program.IsTree (translate names body).2 := by
  have formed := wellFormed_of_translate accepted
  obtain ⟨ids, laid, flat⟩ := exists_laid_of_translate accepted
  have known : program.root.index < program.code.size := Draft.knows_of_flattens flat laid.knows
  have ordered := ordered_of_translate accepted
  have single : ∀ id : NodeId, id.index < program.code.size →
      program.code.references.count id = if id = program.root then 0 else 1 := by
    intro id inside
    have counted := count_references_of_translate accepted id
    rw [if_pos (show id.index < program.code.nodes.size from inside)] at counted
    split
    next isRoot =>
      rw [isRoot, List.count_singleton_self] at counted
      rw [isRoot]
      omega
    next inner =>
      rw [List.count_eq_zero_of_not_mem (fun member => inner (List.mem_singleton.mp member))]
        at counted
      exact counted
  exact {
    ordered := ordered
    last := Code.root_last ordered single known
    single := single
    reachable := Code.reachable_of_single ordered single
    actuals := formed.actuals
    formals := formed.formals
    groups := formed.groups
    functions := fun id span body fetched => (formed.nodes id _ fetched).function span body rfl
    members := fun id span fetched => (formed.nodes id _ fetched).group span rfl
    named := by
      refine List.forall_mem_append.mpr ⟨?_, List.forall_mem_append.mpr ⟨formed.listed, ?_⟩⟩
      · intro name member
        obtain ⟨node, isNode, mentions⟩ := List.mem_flatMap.mp member
        obtain ⟨id, fetched⟩ := Code.mem_nodes_iff.mp isNode
        exact (formed.nodes id node fetched).names name mentions
      · exact List.forall_mem_map.mpr formed.grouped }

/-- Two functions that hand on what they are given. -/
def handing : List Command :=
  [.block (.mk
    [.recursive [
      .mk "show" ["left", "right"]
        (.mk [] [.print (.ident "left"), .call "keep" [.ident "right"]]),
      .mk "keep" ["given"] (.mk [.var "cell" (.ident "given")]
        [.call "show" [.ident "given", .addressOf "cell"]])]]
    [.call "show" [.bool true, .bool false]])]

/-- Its three calls and two functions share their pools without gaps. -/
theorem isTree_of_translate_handing :
    (translate .initial handing).1 = .ok (.ofBody handing) ∧
    (Program.ofBody handing).IsTree (translate .initial handing).2 ∧
    (Program.ofBody handing).code.actualSpans = [⟨0, 1⟩, ⟨1, 2⟩, ⟨3, 2⟩] ∧
    (Program.ofBody handing).code.formalSpans = [⟨0, 2⟩, ⟨2, 1⟩] ∧
    (Program.ofBody handing).code.groupSpans = [⟨0, 2⟩] := by
  have accepted := @translate_eq_ok handing (by decide +kernel)
  exact ⟨accepted, isTree_of_translate accepted, by decide +kernel, by decide +kernel,
    by decide +kernel⟩

end BlockMachine
