import BlockMachine.Proofs.Correctness.Expressions
import BlockMachine.Proofs.Expressions.Runs

namespace BlockMachine

/-! # Declarations

The declarations of a block collect their bindings on the value stack. They leave
the environment alone, add to the closure tables, and put the cells they allocate
into the region. -/

namespace Setting

variable {setting : Setting}

/-- What declarations leave behind if they started with `collected` on the stack. -/
structure Declares (setting : Setting) (start : State) (rest : List Control)
    (collected : Environment) (below : ValueStack) (world : World)
    (declared : List (String × Value)) (after : World) (state : State) : Prop where
  agrees : after.Agrees setting.printer state
  control : state.control = rest
  values : ∃ bindings, List.Forall₂ (setting.draft.Binds state.closures) declared bindings ∧
    state.values = .declarations (collected.bindAll bindings) :: below
  environment : state.environment = start.environment
  grows : start.closures.Grows state.closures
  region : ∀ address, address ∈ state.region.addresses ↔
    address ∈ start.region.addresses ∨ world.next ≤ address.index ∧ address.index < after.next
  next : world.next ≤ after.next

/-- How many steps a tree of sequences takes until its nodes are to be run: one for each
node but the first one, and one if there is none. -/
def sequenceCost : Nat → Nat
  | 0 => 1
  | count + 1 => count

/-- A tree of sequences comes down to its nodes. -/
theorem reachesOver_flattens {id : NodeId} {ids : List NodeId}
    (flat : setting.image.code.Flattens id ids) {start : State} {rest : List Control}
    (scheduled : start.control = .node id :: rest) :
    Relation.ReflTransGen (Machine.AdvancesOver rest) (setting.machine start)
      (setting.machine { start with
        control := ids.map .node ++ rest
        steps := start.steps + sequenceCost ids.length }) := by
  induction flat generalizing start rest with
  | self id =>
      have same : { start with control := [id].map .node ++ rest } = start := by
        rw [List.map_singleton, List.singleton_append, ← scheduled]
      exact same ▸ .refl
  | nothing fetched => exact .single (advancesOver_of_agenda scheduled fetched rfl (by simp))
  | @sequence id first second ids fetched _ notEmpty induction =>
      let opened : State := { start with
        control := .node first :: .node second :: rest
        steps := start.steps + 1 }
      have opens : Machine.AdvancesOver rest (setting.machine start) (setting.machine opened) :=
        advancesOver_of_agenda scheduled fetched rfl (by simp)
      have control : opened.control = .node first :: (.node second :: rest) := rfl
      have below := @Machine.reachesOver_below [.node second] rest _ _ (induction control)
      have reached := below.head opens
      have counted : opened.steps + sequenceCost ids.length =
          start.steps + sequenceCost (ids ++ [second]).length := by
        cases ids with
        | nil => exact absurd rfl notEmpty
        | cons =>
            simp only [opened, List.length_append, List.length_cons, List.length_nil, sequenceCost]
            omega
      rw [counted] at reached
      rw [List.map_append, List.append_assoc]
      exact reached

theorem reaches_flattens {id : NodeId} {ids : List NodeId}
    (flat : setting.image.code.Flattens id ids) {start : State} {rest : List Control}
    (scheduled : start.control = .node id :: rest) :
    ∃ steps, setting.Reaches start { start with
      control := ids.map .node ++ rest
      steps := steps } :=
  ⟨_, Machine.reaches_of_reachesOver (reachesOver_flattens flat scheduled)⟩

/-! ## Functions -/

/-- References to closures that have been made one after another, the last one's on top. -/
def stacked (first count : Nat) : List ClosureRef :=
  (List.range' first count).reverse.map fun index => .plain ⟨index⟩

/-- What a closure table has after functions have become closures in an environment. -/
structure Abstracts (setting : Setting) (before : ClosureTable) (captured : Environment)
    (functions : List Function) (members : List Member) (table : ClosureTable) : Prop where
  grows : before.Grows table
  size : table.size = before.size + functions.length
  groupCount : table.groupCount = before.groupCount
  laid : List.Forall₂ (setting.draft.LaysMember table captured) functions members

/-- The functions of a group become closures, the first one's on top. -/
theorem reachesOver_abstractions {functions : List Function} {bindings : List Binding}
    (laid : List.Forall₂ setting.draft.LaysFunction functions bindings) {start : State}
    {rest : List Control}
    (scheduled : start.control = (bindings.map Prod.snd).reverse.map .node ++ rest) :
    ∃ table, setting.Abstracts start.closures start.environment functions
        (Binding.members bindings (stacked start.closures.size functions.length)) table ∧
      Relation.ReflTransGen (Machine.AdvancesOver rest) (setting.machine start)
        (setting.machine { start with
          control := rest
          values := (stacked start.closures.size functions.length).map .closure ++ start.values
          closures := table
          steps := start.steps + functions.length }) := by
  induction laid generalizing start rest with
  | nil =>
      have control : start.control = rest := scheduled
      subst control
      exact ⟨start.closures, ⟨.refl _, rfl, rfl, .nil⟩, .refl⟩
  | @cons function binding functions bindings head _ induction =>
      cases head with
      | @mk text parameters body names span bodyId closure name formals listed bodyLaid fetched
          named =>
          have control : start.control =
              (bindings.map Prod.snd).reverse.map .node ++ (.node closure :: rest) := by
            simpa using scheduled
          rcases induction control with ⟨table, abstracts, reached⟩
          let made : Closure := ⟨span, bodyId, start.environment⟩
          have grown := table.grows_insert made
          have size : (table.insert made).2.size = table.size + 1 := Array.size_push _
          have laid : setting.draft.LaysMember (table.insert made).2 start.environment
              (.mk text parameters body) (name, ⟨table.size⟩) :=
            .mk named (table.closure?_insert_new made) rfl ⟨listed ▸ formals, bodyLaid⟩
          have references : stacked start.closures.size (functions.length + 1) =
              .plain ⟨table.size⟩ :: stacked start.closures.size functions.length := by
            rw [abstracts.size, stacked, List.range'_concat, List.reverse_append]
            simp [stacked]
          rw [List.length_cons, references]
          refine ⟨(table.insert made).2, ?_, ?_⟩
          · exact {
              grows := abstracts.grows.trans grown
              size := by rw [size, abstracts.size, List.length_cons, Nat.add_assoc]
              groupCount := abstracts.groupCount
              laid := .cons laid (abstracts.laid.imp fun _ _ => Draft.LaysMember.grow grown) }
          · have above := @Machine.reachesOver_below [.node closure] rest _ _ reached
            exact above.tail (advancesOver_of_rule rfl (.abstraction fetched))

theorem reaches_abstractions {functions : List Function} {bindings : List Binding}
    (laid : List.Forall₂ setting.draft.LaysFunction functions bindings) {start : State}
    {rest : List Control}
    (scheduled : start.control = (bindings.map Prod.snd).reverse.map .node ++ rest) :
    ∃ references table steps, start.closures.Grows table ∧
      references.length = bindings.length ∧
      (∀ reference ∈ references, reference.group = none) ∧
      List.Forall₂ (setting.draft.LaysMember table start.environment) functions
        (Binding.members bindings references) ∧
      setting.Reaches start { start with
        control := rest
        values := references.map .closure ++ start.values
        closures := table
        steps := steps } := by
  rcases reachesOver_abstractions laid scheduled with ⟨table, abstracts, reached⟩
  refine ⟨_, table, _, abstracts.grows, ?_, ?_, abstracts.laid,
    Machine.reaches_of_reachesOver reached⟩
  · simp [stacked, laid.length_eq]
  · intro reference member
    rcases List.mem_map.mp member with ⟨_, _, rfl⟩
    rfl

/-! ## Single declarations -/

variable {fuel : Nat} {start : State} {rest : List Control} {collected : Environment}
  {below : ValueStack} {world : World} {scope : Scope}

/-- The REF opcode makes a new cell. -/
theorem mirrors_newCell {before : State} {value : Value} {bound : Bindable} {stack : ValueStack}
    (agrees : world.Agrees setting.printer before)
    (same : setting.draft.Agrees before.closures (some value) (some bound))
    (taken : before.values = .bindable bound :: stack) :
    Mirrors (fun address after _ state =>
        after.Agrees setting.printer state ∧ after.next = world.next + 1 ∧
        address = ⟨world.next⟩ ∧
        state = { before with
          values := .location address :: stack
          store := state.store
          region := before.region.push address })
      (World.Agrees setting.printer) (Evaluation.newCell value world) (Action.applyRef before) := by
  apply (mirrors_storable agrees same taken).bind
  intro content _ _ _ pops
  rcases pops with ⟨rfl, rfl, rfl⟩
  have address : (before.store.allocate content).1 = ⟨world.next⟩ := by
    rw [Store.allocate, agrees.next]
  refine .ok ⟨agrees.allocate content rfl rfl, rfl, rfl, ?_⟩
  rw [← address]
  rfl

/-- The BIND opcode ends a declaration of one name. -/
theorem follows_bind {state : State} {after : World} {text : String} {name : Name} {value : Value}
    {bound : Bindable} (control : state.control = .op .bind :: rest)
    (values : state.values = .bindable bound :: .identifier name :: .declarations collected :: below)
    (named : setting.draft.Names text name)
    (agreed : setting.draft.Agrees state.closures (some value) (some bound))
    (agrees : after.Agrees setting.printer state)
    (environment : state.environment = start.environment)
    (grows : start.closures.Grows state.closures)
    (region : ∀ address, address ∈ state.region.addresses ↔ address ∈ start.region.addresses ∨
      world.next ≤ address.index ∧ address.index < after.next)
    (next : world.next ≤ after.next) :
    setting.Follows fuel state (setting.Declares start rest collected below world)
      ((pure [(text, value)] : Evaluation (List (String × Value))) after) := by
  refine ⟨_, reaches_of_rule control (.bind values), ?_⟩
  exact {
    agrees := agrees.frame rfl rfl
    control := rfl
    values := ⟨[(name, bound)], .cons ⟨named, agreed⟩ .nil, rfl⟩
    environment := environment
    grows := grows
    region := region
    next := next }

/-- Where nothing was allocated, a region has what it had. -/
theorem region_unchanged {addresses : List Address} (next : Nat) (address : Address) :
    address ∈ addresses ↔
      address ∈ addresses ∨ next ≤ address.index ∧ address.index < next := by
  constructor
  · exact .inl
  · intro either
    rcases either with known | impossible
    · exact known
    · omega

theorem region_push {region : Region} (next : Nat) (address : Address) :
    address ∈ (region.push ⟨next⟩).addresses ↔
      address ∈ region.addresses ∨ next ≤ address.index ∧ address.index < next + 1 := by
  rcases address with ⟨index⟩
  simp only [Region.push, List.mem_append, List.mem_singleton, Address.mk.injEq]
  apply or_congr_right
  omega

theorem follows_var {text : String} {initial : Expr} {id : NodeId}
    (laid : setting.draft.LaysDeclaration (.var text initial) id)
    (same : setting.draft.AgreesOn start.closures scope start.environment)
    (agrees : world.Agrees setting.printer start) (scheduled : start.control = .node id :: rest)
    (values : start.values = .declarations collected :: below) :
    setting.Follows fuel start (setting.Declares start rest collected below world)
      (Evaluation.declaration scope (.var text initial) world) := by
  cases laid with
  | @var _ _ value cell _ name laid allocates named fetched =>
      refine .of_succ (.after_agenda scheduled fetched rfl (by simp) ?_)
      refine .of_succ (.after_agenda rfl allocates rfl (by simp) ?_)
      refine .bind (follows_expression laid same (agrees.frame rfl rfl) rfl) ?_
      intro value _ _ leaves
      rcases leaves with ⟨rfl, bound, _, agreed, rfl⟩
      refine .bind (.of_mirrors rfl (mirrors_newCell ?_ agreed rfl)) ?_
      · exact agrees.frame rfl rfl
      · intro _ after state allocated
        rcases allocated with ⟨agreesAfter, next, rfl, stored⟩
        refine follows_bind (by rw [stored]; rfl) (by rw [stored, ← values]; rfl) named (.storable _)
          agreesAfter (by rw [stored]; rfl) (by rw [stored]; exact .refl _) ?_ ?_
        · intro address
          rw [stored, next]
          exact region_push world.next address
        · omega

theorem follows_const {text : String} {expr : Expr} {id : NodeId}
    (laid : setting.draft.LaysDeclaration (.const text expr) id)
    (same : setting.draft.AgreesOn start.closures scope start.environment)
    (agrees : world.Agrees setting.printer start) (scheduled : start.control = .node id :: rest)
    (values : start.values = .declarations collected :: below) :
    setting.Follows fuel start (setting.Declares start rest collected below world)
      (Evaluation.declaration scope (.const text expr) world) := by
  cases laid with
  | const laid named fetched =>
      refine .of_succ (.after_agenda scheduled fetched rfl (by simp) ?_)
      refine .bind (follows_expression laid same (agrees.frame rfl rfl) rfl) ?_
      intro value _ _ leaves
      rcases leaves with ⟨rfl, bound, _, agreed, rfl⟩
      exact follows_bind rfl (by rw [← values]; rfl) named agreed (agrees.frame rfl rfl) rfl
        (.refl _) (region_unchanged world.next) (Nat.le_refl _)

theorem follows_function {declared : Function} {id : NodeId}
    (laid : setting.draft.LaysDeclaration (.function declared) id)
    (same : setting.draft.AgreesOn start.closures scope start.environment)
    (agrees : world.Agrees setting.printer start) (scheduled : start.control = .node id :: rest)
    (values : start.values = .declarations collected :: below) :
    setting.Follows fuel start (setting.Declares start rest collected below world)
      (Evaluation.declaration scope (.function declared) world) := by
  cases laid with
  | @function _ name closure _ laid fetched =>
      refine .of_succ (.after_agenda scheduled fetched rfl (by simp) ?_)
      have abstracted : List.Forall₂ setting.draft.LaysFunction [declared] [(name, closure)] :=
        .cons laid .nil
      let opened : State := { start with
        control := [.node closure, .op .bind] ++ rest
        values := [.identifier name] ++ start.values
        steps := start.steps + 1 }
      have control : opened.control =
          ([(name, closure)].map Prod.snd).reverse.map .node ++ (.op .bind :: rest) := rfl
      rcases reaches_abstractions abstracted control with
        ⟨references, table, steps, grows, length, plain, members, reached⟩
      refine .after_reaches reached ?_
      rcases List.length_eq_one_iff.mp length with ⟨reference, rfl⟩
      cases members with
      | cons member _ =>
          have alone := plain reference List.mem_cons_self
          refine follows_bind rfl (by rw [← values]; rfl) ?_ (member.agrees (same.grow grows) ?_)
            (agrees.frame rfl rfl) rfl grows (region_unchanged world.next) (Nat.le_refl _)
          · cases member with
            | mk named => exact named
          · rw [alone]
            exact .alone

/-- What a group declares agrees with the members of its table entry. -/
theorem binds_group {table : ClosureTable} {environment : Environment}
    (same : setting.draft.AgreesOn table scope environment) {group : List Function}
    {members : List Member} {id : GroupId} (listed : table.members? id = some members)
    (laid : List.Forall₂ (setting.draft.LaysMember table environment) group members) :
    List.Forall₂ (setting.draft.Binds table)
      (group.map fun member => (member.name, member.toValue scope group))
      (ClosureTable.memberBindings id members) := by
  rw [ClosureTable.memberBindings, List.forall₂_map_left_iff, List.forall₂_map_right_iff]
  apply laid.imp
  intro function member memberLaid
  refine ⟨?_, memberLaid.agrees same (.group listed laid)⟩
  cases memberLaid with
  | mk named => exact named

theorem areFunctions {functions : List Function} {bindings : List Binding}
    (laid : List.Forall₂ setting.draft.LaysFunction functions bindings) :
    Node.AreFunctions setting.image.code bindings := by
  induction laid with
  | nil => simp [Node.AreFunctions]
  | cons head _ induction =>
      intro binding member
      rcases List.mem_cons.mp member with rfl | later
      · cases head with
        | mk _ _ _ fetched => exact ⟨_, _, fetched⟩
      · exact induction binding later

theorem follows_recursive {group : List Function} {id : NodeId}
    (laid : setting.draft.LaysDeclaration (.recursive group) id)
    (same : setting.draft.AgreesOn start.closures scope start.environment)
    (agrees : world.Agrees setting.printer start) (scheduled : start.control = .node id :: rest)
    (values : start.values = .declarations collected :: below) :
    setting.Follows fuel start (setting.Declares start rest collected below world)
      (Evaluation.declaration scope (.recursive group) world) := by
  cases laid with
  | @recursive _ bindings span _ laid listed fetched =>
      have functions := laid.forall₂
      have listed : setting.image.code.group span = bindings := listed
      have abstractions := areFunctions functions
      refine .of_succ (.after_agenda scheduled fetched rfl ?_ ?_)
      · intro other equal
        cases equal
        exact listed ▸ abstractions
      · rw [listed]
        let opened : State := { start with
          control := ((bindings.map Prod.snd).reverse.map .node ++ [.op (.recBind id)]) ++ rest
          values := [] ++ start.values
          steps := start.steps + 1 }
        have control : opened.control =
            (bindings.map Prod.snd).reverse.map .node ++ (.op (.recBind id) :: rest) := by
          simp [opened]
        rcases reaches_abstractions functions control with
          ⟨references, table, steps, grows, length, _, members, reached⟩
        refine .after_reaches reached ?_
        have grown := table.grows_addGroup (Binding.members bindings references)
        have listedMembers : (table.addGroup (Binding.members bindings references)).2.members?
            ⟨table.groupCount⟩ = some (Binding.members bindings references) := by
          rw [ClosureTable.members?_addGroup]
          exact if_pos rfl
        let declaring : State := { opened with
          control := .op (.recBind id) :: rest
          values := references.map .closure ++ opened.values
          closures := table
          steps := steps }
        have taken : declaring.values = references.map .closure ++ .declarations collected :: below :=
          congrArg (references.map StackValue.closure ++ ·) values
        have scheduledNext : declaring.control = .op (.recBind id) :: rest := rfl
        refine ⟨_, reaches_of_rule scheduledNext (.recBind fetched (listed ▸ length) taken), ?_⟩
        rw [listed]
        exact {
          agrees := agrees.frame rfl rfl
          control := rfl
          values := ⟨_, binds_group (same.grow (grows.trans grown)) listedMembers
            (members.imp fun _ _ => Draft.LaysMember.grow grown), rfl⟩
          environment := rfl
          grows := grows.trans grown
          region := region_unchanged world.next
          next := Nat.le_refl _ }

theorem follows_declaration {part : Declaration} {id : NodeId}
    (laid : setting.draft.LaysDeclaration part id)
    (same : setting.draft.AgreesOn start.closures scope start.environment)
    (agrees : world.Agrees setting.printer start) (scheduled : start.control = .node id :: rest)
    (values : start.values = .declarations collected :: below) :
    setting.Follows fuel start (setting.Declares start rest collected below world)
      (Evaluation.declaration scope part world) := by
  cases part with
  | var text initial => exact follows_var laid same agrees scheduled values
  | const text expr => exact follows_const laid same agrees scheduled values
  | function declared => exact follows_function laid same agrees scheduled values
  | recursive group => exact follows_recursive laid same agrees scheduled values

/-! ## All declarations of a block -/

/-- Declarations one after another declare what they do together. -/
theorem Declares.append {between : State} {middle after : World} {state : State}
    {first second : List (String × Value)} {collectedFirst : Environment} {restFirst : List Control}
    (left : setting.Declares start restFirst collected below world first middle between)
    (right : setting.Declares between rest collectedFirst below middle second after state)
    (continued : between.values = .declarations collectedFirst :: below) :
    setting.Declares start rest collected below world (first ++ second) after state where
  agrees := right.agrees
  control := right.control
  values := by
    rcases left.values with ⟨bindings, binds, values⟩
    rcases right.values with ⟨others, othersBind, valuesAfter⟩
    rw [continued] at values
    cases values
    refine ⟨bindings ++ others, List.rel_append (binds.imp fun _ _ => .grow right.grows) othersBind,
      ?_⟩
    rw [Environment.bindAll_append]
    exact valuesAfter
  environment := right.environment.trans left.environment
  grows := left.grows.trans right.grows
  region := by
    intro address
    have ordered := left.next
    have further := right.next
    rw [right.region, left.region, or_assoc]
    apply or_congr_right
    omega
  next := Nat.le_trans left.next right.next

theorem follows_declarations {parts : List Declaration} {ids : List NodeId}
    (laid : List.Forall₂ setting.draft.LaysDeclaration parts ids)
    (same : setting.draft.AgreesOn start.closures scope start.environment)
    (agrees : world.Agrees setting.printer start)
    (scheduled : start.control = ids.map .node ++ rest)
    (values : start.values = .declarations collected :: below) :
    setting.Follows fuel start (setting.Declares start rest collected below world)
      (Evaluation.declarations scope parts world) := by
  induction laid generalizing start collected world with
  | nil =>
      refine ⟨start, .refl, ?_⟩
      exact {
        agrees := agrees
        control := scheduled
        values := ⟨[], .nil, values⟩
        environment := rfl
        grows := .refl _
        region := region_unchanged world.next
        next := Nat.le_refl _ }
  | @cons part id parts ids head _ induction =>
      refine .bind (follows_declaration head same agrees scheduled values) ?_
      intro declared middle between first
      rcases first.values with ⟨bindings, _, continued⟩
      have sameBetween : setting.draft.AgreesOn between.closures scope between.environment :=
        first.environment ▸ same.grow first.grows
      refine .bind (induction sameBetween first.agrees first.control continued) ?_
      intro others after state second
      exact ⟨state, .refl, first.append second continued⟩

end Setting

end BlockMachine
