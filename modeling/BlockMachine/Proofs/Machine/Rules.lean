import BlockMachine.Machine.Run

namespace BlockMachine

/-! # Rules of the machine

What carrying out a control entry does when it succeeds, one rule for each shape
of change. A rule gives the state before, from which the entry is already gone,
and the state after. Whatever holds of every rule holds of every step. -/

/-- The opcode that applies an operator. -/
def BinaryOperator.opcode : BinaryOperator → Opcode
  | .arith op => .arith op
  | .logic op => .logic op

namespace Node

/-- The value that a literal stands for. -/
def literal? : Node → Option Storable
  | .number value => some (.number value)
  | .truth value => some (.boolean value)
  | _ => none

/-- What entering a node parks on the value stack and what it schedules, where it
does nothing else. -/
def agenda? (code : Code) (id : NodeId) : Node → Option (List StackValue × List Control)
  | .arith op lhs rhs => some ([], [.node rhs, .node lhs, .op (.arith op)])
  | .logic op lhs rhs => some ([], [.node rhs, .node lhs, .op (.logic op)])
  | .not operand => some ([], [.node operand, .op .not])
  | .allocateReference initial => some ([], [.node initial, .op .ref])
  | .noOp => some ([], [])
  | .assign target value => some ([.identifier target], [.node value, .op .assign])
  | .sequence first second => some ([], [.node first, .node second])
  | .conditional condition _ _ => some ([.pending id], [.node condition, .op .cond])
  | .loop condition _ => some ([.pending id], [.node condition, .op .loop])
  | .print value => some ([], [.node value, .op .print])
  | .call callee actuals =>
    some ([], (code.actuals actuals).reverse.map .node ++
      [.op (.call callee (code.actuals actuals).length)])
  | .bind name value => some ([.identifier name], [.node value, .op .bind])
  | .recBind span =>
    some ([], ((code.group span).map Prod.snd).reverse.map .node ++ [.op (.recBind id)])
  | _ => none

theorem agenda?_ofOperator (code : Code) (id : NodeId) (op : BinaryOperator) (lhs rhs : NodeId) :
    (ofOperator op lhs rhs).agenda? code id =
      some ([], [.node rhs, .node lhs, .op op.opcode]) := by
  cases op <;> rfl

@[simp]
theorem ofOperator_ne_recBind (op : BinaryOperator) (lhs rhs : NodeId) (span : Span Binding) :
    ofOperator op lhs rhs ≠ .recBind span := by
  cases op <;> simp [ofOperator]

/-- All members of a group are functions. -/
def AreFunctions (code : Code) (group : List Binding) : Prop :=
  ∀ binding ∈ group, ∃ formals body, code.node? binding.2 = some (.abstraction formals body)

end Node

/-- What an identifier bound to `value` stands for: an address stands for what
its cell holds. -/
def Store.dereference? (store : Store) : Bindable → Option Bindable
  | .storable (.location address) => (store.get? address).map .storable
  | other => some other

/-- An operator takes storable operands, the first from the top, and yields a
number or a boolean. -/
inductive Opcode.Combines : Opcode → List Storable → Storable → Prop
  | arith (evaluated : ArithOp.evaluate op lhs rhs = .ok result) :
      Combines (.arith op) [.number lhs, .number rhs] (.number result)
  | lt : Combines (.logic .lt) [.number lhs, .number rhs] (.boolean (lhs < rhs))
  | le : Combines (.logic .le) [.number lhs, .number rhs] (.boolean (lhs ≤ rhs))
  | gt : Combines (.logic .gt) [.number lhs, .number rhs] (.boolean (lhs > rhs))
  | ge : Combines (.logic .ge) [.number lhs, .number rhs] (.boolean (lhs ≥ rhs))
  | sameNumber : Combines (.logic .eq) [.number lhs, .number rhs] (.boolean (lhs == rhs))
  | sameTruth : Combines (.logic .eq) [.boolean lhs, .boolean rhs] (.boolean (lhs == rhs))
  | and : Combines (.logic .and) [.boolean lhs, .boolean rhs] (.boolean (lhs && rhs))
  | or : Combines (.logic .or) [.boolean lhs, .boolean rhs] (.boolean (lhs || rhs))
  | not : Combines .not [.boolean operand] (.boolean (!operand))

/-- The branch of a conditional that runs. -/
def Node.branch (condition : Bool) (thenBranch : NodeId) (elseBranch : Option NodeId) :
    List Control :=
  if condition then [.node thenBranch] else elseBranch.toList.map .node

/-- The members of a group with the closures that were made for them. -/
def Binding.members (group : List Binding) (references : List ClosureRef) : List Member :=
  (group.map Prod.fst).zip (references.map ClosureRef.closure)

/-- The environment in which a closure was made, overlaid with its group. -/
def ClosureTable.homeEnvironment? (table : ClosureTable) (closure : Closure) :
    Option GroupId → Option Environment
  | none => some closure.captured
  | some group => (table.groupEnvironment? group).map closure.captured.extend

/-- What carrying out an entry may change, the entry itself being gone. -/
inductive Rule (image : Image) : Control → State → State → Prop
  | literal (fetched : image.code.node? site = some node) (literal : node.literal? = some value) :
      Rule image (.node site) before
        { before with values := .storable value :: before.values }
  | identifier (fetched : image.code.node? site = some (.identifier name))
      (bound : before.environment.lookup name = some value)
      (held : before.store.dereference? value = some result) :
      Rule image (.node site) before
        { before with values := .bindable result :: before.values }
  | addressOf (fetched : image.code.node? site = some (.addressOf name))
      (bound : before.environment.lookup name = some (.storable (.location address))) :
      Rule image (.node site) before
        { before with values := .location address :: before.values }
  | valueOf (fetched : image.code.node? site = some (.valueOf name))
      (bound : before.environment.lookup name = some (.storable (.location address)))
      (pointer : before.store.get? address = some (.location target))
      (held : before.store.get? target = some value) :
      Rule image (.node site) before
        { before with values := .storable value :: before.values }
  | agenda (fetched : image.code.node? site = some node)
      (agenda : node.agenda? image.code site = some (parked, scheduled))
      (functions : ∀ span, node = .recBind span →
        Node.AreFunctions image.code (image.code.group span)) :
      Rule image (.node site) before
        { before with
          values := parked ++ before.values
          control := scheduled ++ before.control }
  | block (fetched : image.code.node? site = some (.block declarations commands)) :
      Rule image (.node site) before
        { before with
          values := .declarations .empty :: .mark before.closures.mark ::
            .region before.region :: .environment before.environment :: before.values
          region := .empty
          control := .node declarations :: .op .blockDeclarations :: .node commands ::
            .op .blockCommands :: before.control }
  | abstraction (fetched : image.code.node? site = some (.abstraction formals body)) :
      Rule image (.node site) before
        { before with
          values := .closure (.plain ⟨before.closures.size⟩) :: before.values
          closures := (before.closures.insert ⟨formals, body, before.environment⟩).2 }
  | operator (combines : Opcode.Combines opcode operands result)
      (taken : before.values = operands.map .storable ++ rest) :
      Rule image (.op opcode) before { before with values := .storable result :: rest }
  | assign (taken : before.values = .storable value :: .identifier target :: rest)
      (bound : before.environment.lookup target = some (.storable (.location address)))
      (written : before.store.write address value = .ok store) :
      Rule image (.op .assign) before { before with values := rest, store := store }
  | bind (taken : before.values =
        .bindable value :: .identifier name :: .declarations collected :: rest) :
      Rule image (.op .bind) before
        { before with values := .declarations (collected.bind name value) :: rest }
  | recBind (fetched : image.code.node? site = some (.recBind span))
      (members : references.length = (image.code.group span).length)
      (taken : before.values = references.map .closure ++ .declarations collected :: rest) :
      Rule image (.op (.recBind site)) before
        { before with
          values := .declarations (collected.bindAll
            (ClosureTable.memberBindings ⟨before.closures.groupCount⟩
              (Binding.members (image.code.group span) references))) :: rest
          closures := (before.closures.addGroup
            (Binding.members (image.code.group span) references)).2 }
  | ref (taken : before.values = .storable value :: rest) :
      Rule image (.op .ref) before
        { before with
          values := .location (before.store.allocate value).1 :: rest
          store := (before.store.allocate value).2
          region := before.region.push (before.store.allocate value).1 }
  | blockDeclarations (taken : before.values = .declarations declared :: rest) :
      Rule image (.op .blockDeclarations) before
        { before with
          values := rest
          environment := before.environment.extend declared }
  | blockCommands
      (taken : before.values = .mark mark :: .region region :: .environment outer :: rest) :
      Rule image (.op .blockCommands) before
        { before with
          values := rest
          store := before.region.release before.store
          region := region
          environment := outer
          closures := before.closures.truncate mark }
  | cond (taken : before.values = .boolean condition :: .pending site :: rest)
      (fetched : image.code.node? site = some (.conditional test thenBranch elseBranch)) :
      Rule image (.op .cond) before
        { before with
          values := rest
          control := Node.branch condition thenBranch elseBranch ++ before.control }
  | loop (taken : before.values = .boolean condition :: .pending site :: rest)
      (fetched : image.code.node? site = some (.loop test body)) :
      Rule image (.op .loop) before
        { before with
          values := rest
          control := (if condition then [.node body, .node site] else []) ++ before.control }
  | print (taken : before.values = .bindable value :: rest) :
      Rule image (.op .print) before
        { before with values := rest, printer := before.printer.println value.text }
  | call {closure : Closure}
      (bound : before.environment.lookup callee = some (.closure reference))
      (found : before.closures.closure? reference.closure = some closure)
      (arity : (image.code.formals closure.formals).length = count)
      (matched : actuals.length = (image.code.formals closure.formals).length)
      (taken : before.values = actuals.map .bindable ++ rest)
      (entered : before.closures.homeEnvironment? closure reference.group = some home) :
      Rule image (.op (.call callee count)) before
        { before with
          values := .mark before.closures.mark :: .region before.region ::
            .environment before.environment :: rest
          region := .empty
          environment := home.bindAll ((image.code.formals closure.formals).zip actuals)
          control := .node closure.body :: .op .blockCommands :: before.control }

/-! ## Actions that succeed -/

namespace StackValue

variable {entry : StackValue}

theorem bindable?_eq_some_iff {value : Bindable} :
    entry.bindable? = some value ↔ entry = .bindable value := by
  cases entry <;> simp [bindable?]

theorem storable?_eq_some_iff {value : Storable} :
    entry.storable? = some value ↔ entry = .bindable (.storable value) := by
  cases entry with
  | bindable value => cases value <;> simp [storable?, bindable?, Bindable.storable?]
  | _ => simp [storable?, bindable?]

theorem number?_eq_some_iff {value : Float} :
    entry.number? = some value ↔ entry = .bindable (.storable (.number value)) := by
  unfold number?
  split <;> simp_all

theorem boolean?_eq_some_iff {value : Bool} :
    entry.boolean? = some value ↔ entry = .bindable (.storable (.boolean value)) := by
  unfold boolean?
  split
  · simp
  · cases value <;> simp_all

theorem closure?_eq_some_iff {reference : ClosureRef} :
    entry.closure? = some reference ↔ entry = .bindable (.closure reference) := by
  unfold closure?
  split <;> simp_all

theorem identifier?_eq_some_iff {name : Name} :
    entry.identifier? = some name ↔ entry = .identifier name := by
  cases entry <;> simp [identifier?]

theorem pending?_eq_some_iff {node : NodeId} :
    entry.pending? = some node ↔ entry = .pending node := by
  cases entry <;> simp [pending?]

theorem environment?_eq_some_iff {saved : Environment} :
    entry.environment? = some saved ↔ entry = .environment saved := by
  cases entry <;> simp [environment?]

theorem region?_eq_some_iff {saved : Region} :
    entry.region? = some saved ↔ entry = .region saved := by
  cases entry <;> simp [region?]

theorem mark?_eq_some_iff {saved : Mark} :
    entry.mark? = some saved ↔ entry = .mark saved := by
  cases entry <;> simp [mark?]

theorem declarations?_eq_some_iff {collected : Environment} :
    entry.declarations? = some collected ↔ entry = .declarations collected := by
  cases entry <;> simp [declarations?]

theorem map_storable (values : List Storable) :
    values.map storable = (values.map Bindable.storable).map bindable := by
  simp [storable]

theorem map_closure (references : List ClosureRef) :
    references.map closure = (references.map Bindable.closure).map bindable := by
  simp [closure]

end StackValue

namespace Action

open ValueStack StackValue

variable {image : Image} {before after : State}

theorem bind_eq_ok_iff {action : Action α} {next : α → Action β} {result : β} :
    (action >>= next) before = .ok result after ↔
      ∃ value middle, action before = .ok value middle ∧
        next value middle = .ok result after := by
  simp only [bind, EStateM.bind]
  cases action before <;> simp [and_assoc]

theorem pure_eq_ok_iff {value result : α} :
    (pure value : Action α) before = .ok result after ↔ value = result ∧ before = after := by
  simp [pure, EStateM.pure]

theorem not_fail_eq_ok {fault : Fault} {result : α} :
    ¬(fail fault : Action α) before = .ok result after := by
  simp [fail]

theorem pop_eq_ok_iff {expected : String} {top : StackValue} :
    onValues (pop expected) before = .ok top after ↔
      ∃ rest, before.values = top :: rest ∧ { before with values := rest } = after := by
  simp only [onValues]
  cases before.values <;> simp [pop, and_assoc]

theorem popAs_eq_ok_iff {expected : String} {view : StackValue → Option α} {value : α} :
    onValues (popAs expected view) before = .ok value after ↔
      ∃ top, view top = some value ∧ ∃ rest, before.values = top :: rest ∧
        { before with values := rest } = after := by
  simp only [onValues]
  cases before.values with
  | nil => simp [popAs]
  | cons top rest =>
      simp only [popAs, List.cons.injEq]
      constructor
      · intro popped
        cases viewed : view top with
        | none => simp [viewed] at popped
        | some found =>
            simp only [viewed, EStateM.Result.ok.injEq] at popped
            exact ⟨top, popped.1 ▸ viewed, rest, ⟨rfl, rfl⟩, popped.2⟩
      · intro holds
        rcases holds with ⟨_, viewed, _, ⟨rfl, rfl⟩, rfl⟩
        simp [viewed]

theorem changeDeclarations_eq_ok_iff {change : Environment → Environment} :
    onValues (changeDeclarations change) before = .ok () after ↔
      ∃ collected rest, before.values = .declarations collected :: rest ∧
        { before with values := .declarations (change collected) :: rest } = after := by
  simp only [onValues]
  cases before.values with
  | nil => simp [changeDeclarations]
  | cons top rest => cases top <;> simp [changeDeclarations, and_assoc]

theorem fetch_eq_ok_iff {site : NodeId} {node : Node} :
    fetch image site before = .ok node after ↔
      image.code.node? site = some node ∧ before = after := by
  simp only [fetch]
  cases image.code.node? site <;> simp [fail, pure, EStateM.pure]

theorem lookup_eq_ok_iff {name : Name} {value : Bindable} :
    lookup image name before = .ok value after ↔
      before.environment.lookup name = some value ∧ before = after := by
  simp only [lookup]
  cases before.environment.lookup name <;> simp

theorem read_eq_ok_iff {address : Address} {value : Storable} :
    read address before = .ok value after ↔
      before.store.get? address = some value ∧ before = after := by
  simp only [read, Store.read]
  cases before.store.get? address <;> simp

theorem write_eq_ok_iff {address : Address} {value : Storable} :
    write address value before = .ok () after ↔
      ∃ store, before.store.write address value = .ok store ∧
        { before with store := store } = after := by
  simp only [write]
  cases before.store.write address value <;> simp

theorem locationOf_eq_ok_iff {name : Name} {address : Address} :
    locationOf image name before = .ok address after ↔
      before.environment.lookup name = some (.storable (.location address)) ∧
        before = after := by
  simp only [locationOf, bind_eq_ok_iff, lookup_eq_ok_iff]
  constructor
  · intro ran
    rcases ran with ⟨value, _, ⟨bound, rfl⟩, matched⟩
    split at matched
    · exact ⟨by simp_all [pure_eq_ok_iff], (pure_eq_ok_iff.mp matched).2⟩
    · exact absurd matched not_fail_eq_ok
  · intro holds
    rcases holds with ⟨bound, rfl⟩
    exact ⟨_, before, ⟨bound, rfl⟩, rfl⟩

theorem closureAt_eq_ok_iff {reference : ClosureId} {closure : Closure} :
    closureAt reference before = .ok closure after ↔
      before.closures.closure? reference = some closure ∧ before = after := by
  simp only [closureAt]
  cases before.closures.closure? reference <;> simp

theorem unfold_eq_ok_iff {group : GroupId} {bindings : Environment} :
    unfold group before = .ok bindings after ↔
      before.closures.groupEnvironment? group = some bindings ∧ before = after := by
  simp only [unfold]
  cases before.closures.groupEnvironment? group <;> simp

/-! ## Nodes -/

theorem requireFunctions_eq_ok_iff {group : List Binding} {done : Unit} :
    requireFunctions image group before = .ok done after ↔
      Node.AreFunctions image.code group ∧ before = after := by
  induction group with
  | nil => simp [requireFunctions, pure_eq_ok_iff, Node.AreFunctions]
  | cons member rest induction =>
      simp only [requireFunctions, bind_eq_ok_iff, fetch_eq_ok_iff]
      constructor
      · intro ran
        rcases ran with ⟨node, _, ⟨fetched, rfl⟩, checked⟩
        split at checked
        · rcases induction.mp checked with ⟨functions, same⟩
          refine ⟨?_, same⟩
          intro binding isMember
          rcases List.mem_cons.mp isMember with rfl | later
          · exact ⟨_, _, fetched⟩
          · exact functions binding later
        · exact absurd checked not_fail_eq_ok
      · intro holds
        rcases holds with ⟨functions, rfl⟩
        rcases functions member List.mem_cons_self with ⟨formals, body, fetched⟩
        refine ⟨_, before, ⟨fetched, rfl⟩, induction.mpr ⟨?_, rfl⟩⟩
        exact fun binding later => functions binding (List.mem_cons_of_mem member later)

theorem enterIdentifier_eq_ok_iff {name : Name} :
    enterIdentifier image name before = .ok () after ↔
      ∃ value result, before.environment.lookup name = some value ∧
        before.store.dereference? value = some result ∧
        { before with values := .bindable result :: before.values } = after := by
  simp only [enterIdentifier, bind_eq_ok_iff, lookup_eq_ok_iff]
  constructor
  · intro ran
    rcases ran with ⟨value, _, ⟨bound, rfl⟩, entered⟩
    split at entered
    · simp only [bind_eq_ok_iff, read_eq_ok_iff] at entered
      rcases entered with ⟨held, _, ⟨isHeld, rfl⟩, pushed⟩
      cases pushed
      exact ⟨_, .storable held, bound, by simp [Store.dereference?, isHeld], rfl⟩
    · refine ⟨value, value, bound, ?_, by simpa [push] using entered⟩
      unfold Store.dereference?
      split <;> simp_all
  · intro holds
    rcases holds with ⟨value, result, bound, held, rfl⟩
    refine ⟨value, before, ⟨bound, rfl⟩, ?_⟩
    unfold Store.dereference? at held
    split at held
    next address =>
      rcases Option.map_eq_some_iff.mp held with ⟨content, isHeld, rfl⟩
      simp only [bind_eq_ok_iff, read_eq_ok_iff]
      exact ⟨content, before, ⟨isHeld, rfl⟩, rfl⟩
    next notLocation =>
      cases held
      cases value with
      | closure reference => rfl
      | storable value =>
        cases value with
        | number value => rfl
        | boolean value => rfl
        | location address => exact absurd rfl (notLocation address)

theorem enterValueOf_eq_ok_iff {name : Name} :
    enterValueOf image name before = .ok () after ↔
      ∃ address target value,
        before.environment.lookup name = some (.storable (.location address)) ∧
        before.store.get? address = some (.location target) ∧
        before.store.get? target = some value ∧
        { before with values := .storable value :: before.values } = after := by
  simp only [enterValueOf, bind_eq_ok_iff, locationOf_eq_ok_iff, read_eq_ok_iff]
  constructor
  · intro ran
    rcases ran with ⟨address, _, ⟨bound, rfl⟩, content, _, ⟨pointer, rfl⟩, entered⟩
    split at entered
    · simp only [bind_eq_ok_iff, read_eq_ok_iff] at entered
      rcases entered with ⟨value, _, ⟨held, rfl⟩, pushed⟩
      exact ⟨address, _, value, bound, pointer, held, by simpa [push] using pushed⟩
    · exact absurd entered not_fail_eq_ok
  · intro holds
    rcases holds with ⟨address, target, value, bound, pointer, held, rfl⟩
    refine ⟨address, before, ⟨bound, rfl⟩, _, before, ⟨pointer, rfl⟩, ?_⟩
    simp only [bind_eq_ok_iff, read_eq_ok_iff]
    exact ⟨value, before, ⟨held, rfl⟩, rfl⟩

end Action

/-- A node that is entered with success is entered by one of the rules. -/
theorem Rule.of_enter {image : Image} {site : NodeId} {before after : State}
    (entered : Action.enter image site before = .ok () after) :
    Rule image (.node site) before after := by
  simp only [Action.enter, Action.bind_eq_ok_iff, Action.fetch_eq_ok_iff] at entered
  rcases entered with ⟨node, _, ⟨fetched, rfl⟩, entered⟩
  cases node with
  | identifier name =>
      rcases Action.enterIdentifier_eq_ok_iff.mp entered with ⟨value, result, bound, held, rfl⟩
      exact .identifier fetched bound held
  | number value =>
      cases entered
      exact .literal fetched rfl
  | truth value =>
      cases entered
      exact .literal fetched rfl
  | addressOf name =>
      simp only [Action.enterNode, Action.bind_eq_ok_iff, Action.locationOf_eq_ok_iff] at entered
      rcases entered with ⟨address, _, ⟨bound, rfl⟩, pushed⟩
      cases pushed
      exact .addressOf fetched bound
  | valueOf name =>
      rcases Action.enterValueOf_eq_ok_iff.mp entered with
        ⟨address, target, value, bound, pointer, held, rfl⟩
      exact .valueOf fetched bound pointer held
  | block declarations commands =>
      cases entered
      exact .block fetched
  | abstraction formals body =>
      cases entered
      exact .abstraction fetched
  | recBind span =>
      simp only [Action.enterNode, Action.bind_eq_ok_iff,
        Action.requireFunctions_eq_ok_iff] at entered
      rcases entered with ⟨_, _, ⟨functions, rfl⟩, scheduled⟩
      cases scheduled
      exact .agenda fetched rfl fun _ same => by cases same; exact functions
  | _ =>
      cases entered
      exact .agenda fetched rfl (by simp)

namespace Action

open ValueStack StackValue

variable {image : Image} {before after : State}

/-! ## Opcodes -/

theorem popMembers_eq_ok_iff {group : List Binding} {members : List Member} :
    popMembers group before = .ok members after ↔
      ∃ references rest, references.length = group.length ∧
        before.values = references.map .closure ++ rest ∧
        Binding.members group references = members ∧
        { before with values := rest } = after := by
  induction group generalizing before after members with
  | nil => simp [popMembers, pure_eq_ok_iff, Binding.members]
  | cons member group induction =>
      rcases member with ⟨name, site⟩
      simp only [popMembers, popClosure, bind_eq_ok_iff, popAs_eq_ok_iff,
        closure?_eq_some_iff, exists_eq_left, pure_eq_ok_iff, induction]
      constructor
      · intro ran
        rcases ran with ⟨reference, _, ⟨_, taken, rfl⟩, _, _,
          ⟨references, rest, length, rfl, rfl, rfl⟩, rfl, rfl⟩
        exact ⟨reference :: references, rest, by simp [length], taken, rfl, rfl⟩
      · intro holds
        rcases holds with ⟨references, rest, length, taken, rfl, rfl⟩
        cases references with
        | nil => simp at length
        | cons reference references =>
            exact ⟨reference, _, ⟨_, taken, rfl⟩, _, _,
              ⟨references, rest, by simpa using length, rfl, rfl, rfl⟩, rfl, rfl⟩

theorem bindActuals_eq_ok_iff {home environment : Environment} {formals : List Name} :
    bindActuals home formals before = .ok environment after ↔
      ∃ actuals rest, actuals.length = formals.length ∧
        before.values = actuals.map .bindable ++ rest ∧
        home.bindAll (formals.zip actuals) = environment ∧
        { before with values := rest } = after := by
  induction formals generalizing before home with
  | nil => simp [bindActuals, pure_eq_ok_iff, Environment.bindAll]
  | cons formal formals induction =>
      simp only [bindActuals, popBindable, bind_eq_ok_iff, popAs_eq_ok_iff,
        bindable?_eq_some_iff, exists_eq_left, induction]
      constructor
      · intro ran
        rcases ran with ⟨actual, _, ⟨_, taken, rfl⟩, actuals, rest, length, rfl, rfl, rfl⟩
        exact ⟨actual :: actuals, rest, by simp [length], taken, rfl, rfl⟩
      · intro holds
        rcases holds with ⟨actuals, rest, length, taken, rfl, rfl⟩
        cases actuals with
        | nil => simp at length
        | cons actual actuals =>
            exact ⟨actual, _, ⟨_, taken, rfl⟩, actuals, rest, by simpa using length,
              rfl, rfl, rfl⟩

theorem homeEnvironment_eq_ok_iff {closure : Closure} {group : Option GroupId}
    {home : Environment} :
    homeEnvironment closure group before = .ok home after ↔
      before.closures.homeEnvironment? closure group = some home ∧ before = after := by
  cases group with
  | none => simp [homeEnvironment, ClosureTable.homeEnvironment?, pure_eq_ok_iff]
  | some group =>
      simp only [homeEnvironment, ClosureTable.homeEnvironment?, bind_eq_ok_iff,
        unfold_eq_ok_iff, pure_eq_ok_iff, Option.map_eq_some_iff]
      constructor
      · intro ran
        rcases ran with ⟨bindings, _, ⟨unfolded, rfl⟩, rfl, rfl⟩
        exact ⟨⟨bindings, unfolded, rfl⟩, rfl⟩
      · intro holds
        rcases holds with ⟨⟨bindings, unfolded, rfl⟩, rfl⟩
        exact ⟨bindings, before, ⟨unfolded, rfl⟩, rfl, rfl⟩

theorem eq_of_areEqual?_eq_some {lhs rhs : StackValue} {result : Bool}
    (same : areEqual? lhs rhs = some result) :
    (∃ left right, lhs = .storable (.number left) ∧ rhs = .storable (.number right) ∧
        (left == right) = result) ∨
      ∃ left right, lhs = .storable (.boolean left) ∧ rhs = .storable (.boolean right) ∧
        (left == right) = result := by
  unfold areEqual? at same
  split at same
  · exact .inl ⟨_, _, rfl, rfl, by simpa using same⟩
  · exact .inr ⟨_, _, rfl, rfl, by simpa using same⟩
  · contradiction

theorem requireArity_eq_ok_iff {callee : String} {expected got : Nat} {done : Unit} :
    requireArity callee expected got before = .ok done after ↔
      expected = got ∧ before = after := by
  unfold requireArity
  split
  · simp only [not_fail_eq_ok, false_iff]
    omega
  · split
    · simp only [not_fail_eq_ok, false_iff]
      omega
    · have same : expected = got := by omega
      simp [pure_eq_ok_iff, same]

end Action

section

open BlockMachine.Action ValueStack StackValue

variable {image : Image} {before after : State}

theorem Rule.of_applyLogic {op : LogicOp}
    (applied : applyLogic op before = .ok () after) :
    Rule image (.op (.logic op)) before after := by
  have order (holds : Float → Float → Bool) (applied : compareNumbers holds before = .ok () after) :
      ∃ lhs rhs rest, before.values = .storable (.number lhs) :: .storable (.number rhs) :: rest ∧
        { before with values := .storable (.boolean (holds lhs rhs)) :: rest } = after := by
    simp only [compareNumbers, popNumber, bind_eq_ok_iff, popAs_eq_ok_iff,
      number?_eq_some_iff, exists_eq_left] at applied
    rcases applied with ⟨lhs, _, ⟨_, taken, rfl⟩, rhs, _, ⟨rest, rfl, rfl⟩, pushed⟩
    cases pushed
    exact ⟨lhs, rhs, rest, taken, rfl⟩
  have connect (connective : Bool → Bool → Bool)
      (applied : connectBooleans connective before = .ok () after) :
      ∃ lhs rhs rest, before.values = .storable (.boolean lhs) :: .storable (.boolean rhs) :: rest ∧
        { before with values := .storable (.boolean (connective lhs rhs)) :: rest } = after := by
    simp only [connectBooleans, popBoolean, bind_eq_ok_iff, popAs_eq_ok_iff,
      boolean?_eq_some_iff, exists_eq_left] at applied
    rcases applied with ⟨lhs, _, ⟨_, taken, rfl⟩, rhs, _, ⟨rest, rfl, rfl⟩, pushed⟩
    cases pushed
    exact ⟨lhs, rhs, rest, taken, rfl⟩
  cases op with
  | lt =>
      rcases order _ applied with ⟨lhs, rhs, rest, taken, rfl⟩
      exact .operator .lt taken
  | le =>
      rcases order _ applied with ⟨lhs, rhs, rest, taken, rfl⟩
      exact .operator .le taken
  | gt =>
      rcases order _ applied with ⟨lhs, rhs, rest, taken, rfl⟩
      exact .operator .gt taken
  | ge =>
      rcases order _ applied with ⟨lhs, rhs, rest, taken, rfl⟩
      exact .operator .ge taken
  | and =>
      rcases connect _ applied with ⟨lhs, rhs, rest, taken, rfl⟩
      exact .operator .and taken
  | or =>
      rcases connect _ applied with ⟨lhs, rhs, rest, taken, rfl⟩
      exact .operator .or taken
  | eq =>
      simp only [applyLogic, compareEqual, bind_eq_ok_iff, pop_eq_ok_iff] at applied
      rcases applied with ⟨lhs, _, ⟨_, taken, rfl⟩, rhs, _, ⟨rest, rfl, rfl⟩, applied⟩
      cases same : areEqual? lhs rhs with
      | none =>
          simp only [same] at applied
          exact absurd applied not_fail_eq_ok
      | some result =>
          simp only [same] at applied
          cases applied
          rcases eq_of_areEqual?_eq_some same with
            ⟨left, right, rfl, rfl, rfl⟩ | ⟨left, right, rfl, rfl, rfl⟩
          · exact .operator .sameNumber taken
          · exact .operator .sameTruth taken

theorem Rule.of_applyRecBind {site : NodeId}
    (applied : applyRecBind image site before = .ok () after) :
    Rule image (.op (.recBind site)) before after := by
  simp only [applyRecBind, bind_eq_ok_iff, fetch_eq_ok_iff] at applied
  rcases applied with ⟨node, _, ⟨fetched, rfl⟩, applied⟩
  split at applied
  next span =>
    simp only [bind_eq_ok_iff, popMembers_eq_ok_iff, addGroup, changeDeclarations_eq_ok_iff,
      bindMembers_eq_bindAll] at applied
    rcases applied with
      ⟨_, _, ⟨references, _, length, taken, rfl, rfl⟩, _, _, added, collected, rest, declared, rfl⟩
    cases added
    subst declared
    exact .recBind fetched length taken
  next => exact absurd applied not_fail_eq_ok

theorem Rule.of_applyCall {callee : Name} {count : Nat}
    (applied : applyCall image callee count before = .ok () after) :
    Rule image (.op (.call callee count)) before after := by
  simp only [applyCall, bind_eq_ok_iff, lookup_eq_ok_iff] at applied
  rcases applied with ⟨value, _, ⟨bound, rfl⟩, applied⟩
  split at applied
  next reference =>
    simp only [bind_eq_ok_iff, closureAt_eq_ok_iff, requireArity_eq_ok_iff,
      homeEnvironment_eq_ok_iff, bindActuals_eq_ok_iff] at applied
    rcases applied with
      ⟨closure, _, ⟨found, rfl⟩, _, _, ⟨arity, rfl⟩, home, _, ⟨entered, rfl⟩, _, _,
        ⟨actuals, rest, matched, taken, rfl, rfl⟩, _, _, opened, _, _, set, scheduled⟩
    cases opened
    cases set
    cases scheduled
    exact .call bound found arity matched taken entered
  next => exact absurd applied not_fail_eq_ok

theorem Rule.of_applyArith {op : ArithOp}
    (applied : applyArith op before = .ok () after) :
    Rule image (.op (.arith op)) before after := by
  simp only [applyArith, popNumber, bind_eq_ok_iff, popAs_eq_ok_iff,
    number?_eq_some_iff, exists_eq_left] at applied
  rcases applied with ⟨lhs, _, ⟨_, taken, rfl⟩, rhs, _, ⟨rest, rfl, rfl⟩, applied⟩
  cases evaluated : op.evaluate lhs rhs with
  | error fault => simp [evaluated, fail] at applied
  | ok result =>
      simp only [evaluated] at applied
      cases applied
      exact .operator (.arith evaluated) taken

theorem Rule.of_applyAssign (applied : applyAssign image before = .ok () after) :
    Rule image (.op .assign) before after := by
  simp only [applyAssign, popStorable, popIdentifier, bind_eq_ok_iff,
    popAs_eq_ok_iff, storable?_eq_some_iff, identifier?_eq_some_iff, exists_eq_left,
    lookup_eq_ok_iff] at applied
  rcases applied with
    ⟨value, _, ⟨_, taken, rfl⟩, target, _, ⟨rest, rfl, rfl⟩, bound, _, ⟨isBound, rfl⟩, applied⟩
  split at applied
  · rcases write_eq_ok_iff.mp applied with ⟨store, written, rfl⟩
    exact .assign taken isBound written
  · exact absurd applied not_fail_eq_ok

theorem Rule.of_closeScope (applied : closeScope before = .ok () after) :
    Rule image (.op .blockCommands) before after := by
  simp only [closeScope, popMark, popRegion, bind_eq_ok_iff, popAs_eq_ok_iff,
    mark?_eq_some_iff, region?_eq_some_iff, exists_eq_left] at applied
  rcases applied with ⟨mark, _, ⟨_, taken, rfl⟩, region, _, ⟨_, rfl, rfl⟩, applied⟩
  rcases bind_eq_ok_iff.mp applied with ⟨outer, _, popped, restored⟩
  simp only [popEnvironment, popAs_eq_ok_iff, environment?_eq_some_iff,
    exists_eq_left] at popped
  rcases popped with ⟨rest, rfl, rfl⟩
  cases restored
  exact .blockCommands taken

theorem Rule.of_applyCond (applied : applyCond image before = .ok () after) :
    Rule image (.op .cond) before after := by
  simp only [applyCond, popBoolean, popPending, bind_eq_ok_iff, popAs_eq_ok_iff,
    boolean?_eq_some_iff, pending?_eq_some_iff, exists_eq_left, fetch_eq_ok_iff] at applied
  rcases applied with
    ⟨condition, _, ⟨_, taken, rfl⟩, site, _, ⟨rest, rfl, rfl⟩, node, _, ⟨fetched, rfl⟩, applied⟩
  split at applied
  next elseBranch =>
    cases condition with
    | true =>
        cases applied
        exact .cond taken fetched
    | false =>
        cases elseBranch with
        | some elseBranch =>
            cases applied
            exact .cond taken fetched
        | none =>
            cases applied
            exact .cond taken fetched
  next => exact absurd applied not_fail_eq_ok

theorem Rule.of_applyLoop (applied : applyLoop image before = .ok () after) :
    Rule image (.op .loop) before after := by
  simp only [applyLoop, popBoolean, popPending, bind_eq_ok_iff, popAs_eq_ok_iff,
    boolean?_eq_some_iff, pending?_eq_some_iff, exists_eq_left, fetch_eq_ok_iff] at applied
  rcases applied with
    ⟨condition, _, ⟨_, taken, rfl⟩, site, _, ⟨rest, rfl, rfl⟩, node, _, ⟨fetched, rfl⟩, applied⟩
  split at applied
  · cases condition with
    | true =>
        cases applied
        exact .loop taken fetched
    | false =>
        cases applied
        exact .loop taken fetched
  · exact absurd applied not_fail_eq_ok

/-- An opcode that is applied with success is applied by one of the rules. -/
theorem Rule.of_apply {opcode : Opcode} (applied : apply image opcode before = .ok () after) :
    Rule image (.op opcode) before after := by
  cases opcode with
  | arith op => exact .of_applyArith applied
  | logic op => exact .of_applyLogic applied
  | not =>
      simp only [apply, applyNot, popBoolean, bind_eq_ok_iff, popAs_eq_ok_iff,
        boolean?_eq_some_iff, exists_eq_left] at applied
      rcases applied with ⟨operand, _, ⟨rest, taken, rfl⟩, pushed⟩
      cases pushed
      exact .operator .not taken
  | assign => exact .of_applyAssign applied
  | bind =>
      simp only [apply, applyBind, popBindable, popIdentifier, bind_eq_ok_iff, popAs_eq_ok_iff,
        bindable?_eq_some_iff, identifier?_eq_some_iff, exists_eq_left,
        declare, changeDeclarations_eq_ok_iff] at applied
      rcases applied with
        ⟨value, _, ⟨_, taken, rfl⟩, name, _, ⟨_, rfl, rfl⟩, collected, rest, rfl, rfl⟩
      exact .bind taken
  | recBind site => exact .of_applyRecBind applied
  | ref =>
      simp only [apply, applyRef, popStorable, bind_eq_ok_iff, popAs_eq_ok_iff,
        storable?_eq_some_iff, exists_eq_left] at applied
      rcases applied with ⟨value, _, ⟨rest, taken, rfl⟩, _, _, allocated, pushed⟩
      cases allocated
      cases pushed
      exact .ref taken
  | blockDeclarations =>
      simp only [apply, applyBlockDeclarations, popDeclarations, bind_eq_ok_iff,
        popAs_eq_ok_iff, declarations?_eq_some_iff, exists_eq_left] at applied
      rcases applied with ⟨declared, _, ⟨rest, taken, rfl⟩, _, _, current, set⟩
      cases current
      cases set
      exact .blockDeclarations taken
  | blockCommands => exact .of_closeScope applied
  | cond => exact .of_applyCond applied
  | loop => exact .of_applyLoop applied
  | print =>
      simp only [apply, applyPrint, popBindable, bind_eq_ok_iff, popAs_eq_ok_iff,
        bindable?_eq_some_iff, exists_eq_left] at applied
      rcases applied with ⟨value, _, ⟨rest, taken, rfl⟩, printed⟩
      cases printed
      exact .print taken
  | call callee count => exact .of_applyCall applied

/-- A control entry that is carried out with success is carried out by one of
the rules. -/
theorem Rule.of_execute {entry : Control} (executed : entry.execute image before = .ok () after) :
    Rule image entry before after :=
  match entry with
  | .node _ => .of_enter executed
  | .op _ => .of_apply executed

end

end BlockMachine
