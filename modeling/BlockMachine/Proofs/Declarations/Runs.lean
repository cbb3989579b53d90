import BlockMachine.Proofs.Declarations.Making

namespace BlockMachine

/-! # Running declarations

From the first node of declarations on, the machine comes in a known number of steps to a
state where each of them has made what it makes, or it fails. So does it from the node of
a block on, until the declarations become visible. -/

namespace Setting

open Machine

variable {setting : Setting} {rest : List Control} {start : State}

/-! ## Single declarations -/

variable {collected : Environment} {below : ValueStack}

theorem completes_var {text : String} {initial : Expr} {id : NodeId}
    (laid : setting.draft.LaysDeclaration (.var text initial) id)
    (issued : (setting.reading start).Issued) (scheduled : start.control = .node id :: rest)
    (values : start.values = .declarations collected :: below) :
    setting.Completes ((Declaration.var text initial).Succeeds (setting.reading start)) rest start
      (setting.Declared start collected below [.var text initial]) := by
  cases laid with
  | @var _ _ value cell _ name laid allocates named fetched =>
      refine .after_reaches (.single (advancesOver_of_agenda scheduled fetched rfl (by simp))) ?_
      refine .after_reaches (.single (advancesOver_of_agenda rfl allocates rfl (by simp)).below) ?_
      refine .bind [.op .ref, .op .bind] (fun ⟨value, found⟩ => ⟨_, found⟩)
        (.of_expression laid rfl) ?_
      rintro _ _ _ ⟨bound, found, rfl⟩
      have found : initial.evaluate (setting.reading start) = .ok bound := found
      cases bound with
      | closure reference =>
          refine .failed ?_ .refl rfl (fails_of_execute rfl rfl)
          rintro ⟨_, impossible⟩
          cases found.symm.trans impossible
      | storable value =>
          refine .after_reaches (.single (advancesOver_of_rule rfl (.ref rfl)).below) ?_
          refine .of_bind ⟨value, found⟩ rfl (by rw [← values]; rfl) ?_
          exact Declared.var issued found named (by simp only [valued, begin]; omega)

theorem completes_const {text : String} {expr : Expr} {id : NodeId}
    (laid : setting.draft.LaysDeclaration (.const text expr) id)
    (issued : (setting.reading start).Issued) (scheduled : start.control = .node id :: rest)
    (values : start.values = .declarations collected :: below) :
    setting.Completes ((Declaration.const text expr).Succeeds (setting.reading start)) rest start
      (setting.Declared start collected below [.const text expr]) := by
  cases laid with
  | const laid named fetched =>
      refine .after_reaches (.single (advancesOver_of_agenda scheduled fetched rfl (by simp))) ?_
      refine .bind [.op .bind] (fun ⟨value, found⟩ => ⟨value, found⟩) (.of_expression laid rfl) ?_
      rintro _ _ _ ⟨bound, found, rfl⟩
      refine .of_bind ⟨bound, found⟩ rfl (by rw [← values]; rfl) ?_
      exact .const issued found named (by simp only [valued]; omega)

theorem completes_function {declared : Function} {id : NodeId}
    (laid : setting.draft.LaysDeclaration (.function declared) id)
    (issued : (setting.reading start).Issued) (scheduled : start.control = .node id :: rest)
    (values : start.values = .declarations collected :: below) :
    setting.Completes ((Declaration.function declared).Succeeds (setting.reading start)) rest start
      (setting.Declared start collected below [.function declared]) := by
  cases laid with
  | @function _ name closure _ laid fetched =>
      refine .after_reaches (.single (advancesOver_of_agenda scheduled fetched rfl (by simp))) ?_
      have named : setting.draft.Names declared.name name := by
        cases laid with
        | mk _ _ _ _ named => exact named
      have functions : List.Forall₂ setting.draft.LaysFunction [declared] [(name, closure)] :=
        .cons laid .nil
      let opened : State := { start with
        control := [.node closure, .op .bind] ++ rest
        values := [.identifier name] ++ start.values
        steps := start.steps + 1 }
      have control : opened.control =
          ([(name, closure)].map Prod.snd).reverse.map .node ++ (.op .bind :: rest) := rfl
      rcases reachesOver_functions functions (List.nodup_singleton _) (fun _ _ => rfl) control
        with ⟨table, abstracts, reached⟩
      refine .after_reaches (@reachesOver_below [.op .bind] rest _ _ reached) ?_
      refine .of_bind trivial rfl (by rw [← values]; rfl) ?_
      exact .function issued named abstracts rfl

theorem completes_recursive {group : List Function} {id : NodeId}
    (laid : setting.draft.LaysDeclaration (.recursive group) id)
    (nodup : (group.map Function.name).Nodup)
    (issued : (setting.reading start).Issued) (scheduled : start.control = .node id :: rest)
    (values : start.values = .declarations collected :: below) :
    setting.Completes ((Declaration.recursive group).Succeeds (setting.reading start)) rest start
      (setting.Declared start collected below [.recursive group]) := by
  cases laid with
  | @recursive _ bindings span _ laid listed fetched =>
      have functions := laid.forall₂
      have listed : setting.image.code.group span = bindings := listed
      have named := (names_of_laid functions).2
      have isGroup (other : Span Binding) (same : Node.recBind span = .recBind other) :
          Node.AreFunctions setting.image.code (setting.image.code.group other) := by
        cases same
        exact listed ▸ areFunctions functions
      refine .after_reaches (.single (advancesOver_of_agenda scheduled fetched rfl isGroup)) ?_
      rw [listed]
      let place := (start.extent.places [.recursive group]).closure
      let opened : State := { start with
        control := ((bindings.map Prod.snd).reverse.map .node ++ [.op (.recBind id)]) ++ rest
        values := [] ++ start.values
        steps := start.steps + 1 }
      have placed (text : String) (_ : text ∈ group.map Function.name) : place text =
          ⟨opened.closures.size + (group.reverse.map Function.name).idxOf text⟩ := by
        simp [place, opened, Extent.places, State.extent, Declaration.closures,
          Declaration.functions]
      have control : opened.control =
          (bindings.map Prod.snd).reverse.map .node ++ (.op (.recBind id) :: rest) := by
        simp [opened]
      rcases reachesOver_functions functions nodup placed control with
        ⟨table, abstracts, reached⟩
      refine .after_reaches (@reachesOver_below [.op (.recBind id)] rest _ _ reached) ?_
      let references := group.map fun member => ClosureRef.plain (place member.name)
      have length : references.length = bindings.length := by
        rw [List.length_map, functions.length_eq]
      have isMembers := members_of_laid functions place
      rw [← isMembers] at abstracts
      let declaring : State := { opened with
        control := .op (.recBind id) :: rest
        values := group.map (fun member => .closure (.plain (place member.name))) ++ opened.values
        closures := table
        steps := opened.steps + group.length }
      have taken : declaring.values =
          references.map .closure ++ .declarations collected :: below := by
        rw [← values, List.map_map]
        rfl
      have scheduledNext : declaring.control = .op (.recBind id) :: rest := rfl
      have last := advancesOver_of_rule scheduledNext (.recBind fetched (listed ▸ length) taken)
      refine .done trivial (.single last) rfl ?_
      rw [listed]
      exact .recursive issued named isMembers abstracts
        (by simp only [begin, declaring, opened]; omega)

theorem completes_declaration {part : Declaration} {id : NodeId}
    (laid : setting.draft.LaysDeclaration part id) (nodup : part.names.Nodup)
    (issued : (setting.reading start).Issued) (scheduled : start.control = .node id :: rest)
    (values : start.values = .declarations collected :: below) :
    setting.Completes (part.Succeeds (setting.reading start)) rest start
      (setting.Declared start collected below [part]) := by
  cases part with
  | var text initial => exact completes_var laid issued scheduled values
  | const text expr => exact completes_const laid issued scheduled values
  | function declared => exact completes_function laid issued scheduled values
  | recursive group => exact completes_recursive laid nodup issued scheduled values

/-! ## All declarations of a block -/

theorem completes_declarations {parts : List Declaration} {ids : List NodeId}
    (laid : List.Forall₂ setting.draft.LaysDeclaration parts ids)
    (distinct : Declaration.Distinct parts) (issued : (setting.reading start).Issued)
    (scheduled : start.control = ids.map .node ++ rest)
    (values : start.values = .declarations collected :: below) :
    setting.Completes (∀ part ∈ parts, part.Succeeds (setting.reading start)) rest start
      (setting.Declared start collected below parts) := by
  induction laid generalizing start collected with
  | nil => exact .done (by simp) .refl scheduled (.nil issued values)
  | @cons part id parts ids head _ induction =>
      have nodup : part.names.Nodup :=
        (List.nodup_flatMap.mp distinct.names).1 part List.mem_cons_self
      have distinct : Declaration.Distinct ([part] ++ parts) := distinct
      refine .bind (ids.map .node) (fun succeeds => succeeds part List.mem_cons_self)
        (completes_declaration head nodup issued scheduled values) ?_
      intro middle succeeds control first
      refine (induction distinct.right first.issued control first.values).congr ?_ ?_
      · have extension := first.extends_reading
        have same (other : Declaration) := other.succeeds_iff_of_extends issued extension
        simp only [List.forall_mem_cons, same, succeeds, true_and]
      · intro after second
        exact first.append issued distinct second first.values

end Setting

/-! ## Blocks -/

/-- Whether a machine that is about to enter a block comes to the state just after its
declarations have become visible. -/
def Machine.PassesDeclarations (machine after : Machine) : Prop :=
  ∃ opened made declarations rest,
    machine.Advances opened ∧
    opened.state.control = .node declarations :: .op .blockDeclarations :: rest ∧
    Relation.ReflTransGen (AdvancesOver (.op .blockDeclarations :: rest)) opened made ∧
    made.state.control = .op .blockDeclarations :: rest ∧
    made.Advances after

namespace State

/-- The value stack while a block is open. -/
def saved (state : State) : ValueStack :=
  .mark state.closures.mark :: .region state.region :: .environment state.environment ::
    state.values

/-- The state in which the declarations of a block are run, `taken` steps after its node. -/
def declaring (state : State) (control : List Control) (taken : Nat) : State :=
  { state with
    control := control
    values := .declarations .empty :: state.saved
    region := .empty
    steps := state.steps + taken }

/-- The state in which the commands of a block are run, `made` being what its declarations
have made. -/
def commanding (state made : State) (control : List Control)
    (bindings : List (Name × Bindable)) : State :=
  { made with
    control := control
    values := state.saved
    environment := state.environment.extend (Environment.empty.bindAll bindings)
    steps := made.steps + 1 }

end State

namespace Setting

open Machine

variable {setting : Setting} {rest : List Control} {start : State}

/-- How many steps it takes to come from a block to its declarations. -/
def openingCost (parts : List Declaration) : Nat :=
  1 + sequenceCost parts.length

/-- The declarations of a block are run above the opcode that makes them visible. -/
theorem completes_block {parts : List Declaration} {declared : List NodeId} {declarations : NodeId}
    (laid : setting.draft.LaysDeclarations parts declared)
    (flat : setting.image.code.Flattens declarations declared)
    (distinct : Declaration.Distinct parts) (issued : (setting.reading start).Issued) :
    setting.Completes (∀ part ∈ parts, part.Succeeds (setting.reading start)) rest
      (start.declaring (.node declarations :: rest) 1)
      (setting.Declared (start.declaring (declared.map .node ++ rest) (openingCost parts)) .empty
        start.saved parts) := by
  have parted := laid.forall₂
  have reaches := reachesOver_flattens flat (rfl : (start.declaring _ 1).control = _ :: rest)
  have counted : (start.declaring (.node declarations :: rest) 1).steps +
      sequenceCost declared.length = start.steps + openingCost parts := by
    rw [openingCost, parted.length_eq]
    exact Nat.add_assoc _ _ _
  rw [counted] at reaches
  have issuedThen : (setting.reading
      (start.declaring (declared.map .node ++ rest) (openingCost parts))).Issued := issued
  exact .after_reaches reaches (completes_declarations parted distinct issuedThen rfl rfl)

/-- The machine gets past the declarations of a block if all of them succeed, and then it
is where they have made what they make. -/
theorem passesDeclarations {parts : List Declaration} {declared : List NodeId}
    {declarations commands id : NodeId} (laid : setting.draft.LaysDeclarations parts declared)
    (flat : setting.image.code.Flattens declarations declared)
    (fetched : setting.image.code.node? id = some (.block declarations commands))
    (distinct : Declaration.Distinct parts) (issued : (setting.reading start).Issued)
    (scheduled : start.control = .node id :: rest) :
    ((∃ after, (setting.machine start).PassesDeclarations after) ↔
      ∀ part ∈ parts, part.Succeeds (setting.reading start)) ∧
    ∀ after, (setting.machine start).PassesDeclarations after →
      ∃ control made,
        setting.Declared (start.declaring control (openingCost parts)) .empty start.saved parts
          made ∧
        after = setting.machine (start.commanding made
          (.node commands :: .op .blockCommands :: rest) (setting.bindings start parts)) := by
  let left : List Control := .node commands :: .op .blockCommands :: rest
  let opened := start.declaring (.node declarations :: .op .blockDeclarations :: left) 1
  have opens : (setting.machine start).Advances (setting.machine opened) :=
    advances_of_rule scheduled (.block fetched)
  -- Whatever a machine does to get past the declarations, this is how it begins.
  have begins (after : Machine) (passes : (setting.machine start).PassesDeclarations after) :
      ∃ made, Relation.ReflTransGen (AdvancesOver (.op .blockDeclarations :: left))
          (setting.machine opened) made ∧
        made.state.control = .op .blockDeclarations :: left ∧ made.Advances after := by
    rcases passes with ⟨opened, made, other, others, opensToo, control, reaches, finished, closes⟩
    cases opens.symm.trans opensToo
    cases control
    exact ⟨made, reaches, finished, closes⟩
  have completes : setting.Completes _ (.op .blockDeclarations :: left) _ _ :=
    completes_block laid flat distinct issued
  cases completes with
  | @done made succeed reaches finished declared =>
      have rule : Rule setting.image (.op .blockDeclarations) (begin made left) _ :=
        .blockDeclarations declared.values
      have environment : (begin made left).environment = start.environment := declared.environment
      rw [environment] at rule
      have closes := advances_of_rule finished rule
      have passes : (setting.machine start).PassesDeclarations _ :=
        ⟨_, _, _, _, opens, rfl, reaches, finished, closes⟩
      refine ⟨⟨fun _ => succeed, fun _ => ⟨_, passes⟩⟩, ?_⟩
      intro after passes
      rcases begins after passes with ⟨madeToo, reachesToo, finishedToo, closesToo⟩
      cases reachesOver_unique reaches reachesToo finished finishedToo
      cases closes.symm.trans closesToo
      exact ⟨_, made, declared, rfl⟩
  | failed impossible reaches scheduledLast fails =>
      have never (after : Machine) : ¬(setting.machine start).PassesDeclarations after := by
        intro passes
        rcases begins after passes with ⟨made, reachesMade, finished, _⟩
        exact not_finished_of_fails reachesMade reaches scheduledLast fails finished
      refine ⟨⟨?_, fun succeed => absurd succeed impossible⟩, ?_⟩
      · rintro ⟨after, passes⟩
        exact absurd passes (never after)
      · intro after passes
        exact absurd passes (never after)

end Setting

end BlockMachine
