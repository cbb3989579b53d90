import BlockMachine.Proofs.Correctness.Program
import BlockMachine.Proofs.Surface.Totality

namespace BlockMachine

/-! # Termination

A program that has neither loops nor recursive groups can go on for ever only by passing
functions. A function that captures nothing but tame ones is tame itself: called with
plain data, its body comes to an end. By induction on the program, a block comes to an
end in a scope where all functions are tame, and the functions that it declares are
tame; that they are called at any depth and under any name makes no difference. -/

/-! ## Programs without loops and recursive groups -/

mutual
def Block.isStraight : Block → Bool
  | .mk parts body => Declaration.areStraight parts && Command.areStraight body
termination_by structural block => block

def Function.isStraight : Function → Bool
  | .mk _ _ body => body.isStraight
termination_by structural function => function

def Declaration.isStraight : Declaration → Bool
  | .var _ _ | .const _ _ => true
  | .function declared => declared.isStraight
  | .recursive _ => false
termination_by structural declaration => declaration

def Declaration.areStraight : List Declaration → Bool
  | [] => true
  | first :: rest => first.isStraight && Declaration.areStraight rest
termination_by structural declarations => declarations

/-- Whether neither a loop nor a recursive group occurs in a command, at any depth. -/
def Command.isStraight : Command → Bool
  | .nop | .assign _ _ | .print _ | .call _ _ => true
  | .loop _ _ => false
  | .ifThen _ thenCommands => Command.areStraight thenCommands
  | .ifThenElse _ thenCommands elseCommands =>
    Command.areStraight thenCommands && Command.areStraight elseCommands
  | .block inner => inner.isStraight
termination_by structural command => command

def Command.areStraight : List Command → Bool
  | [] => true
  | first :: rest => first.isStraight && Command.areStraight rest
termination_by structural commands => commands
end

/-- Whether the next step is a call that gets a function as one of its actuals. -/
def Machine.PassesFunction (machine : Machine) : Prop :=
  ∃ callee count rest reference, machine.state.control = .op (.call callee count) :: rest ∧
    StackValue.closure reference ∈ machine.state.values.take count

namespace Setting

variable {setting : Setting}

/-! ## Coming to an end -/

/-- Whether a run comes to a step that fails or to a call that passes a function. -/
def Stops (setting : Setting) (start : State) : Prop :=
  ∃ last, setting.Reaches start last ∧
    ((∃ fault after, (setting.machine last).Fails fault (setting.machine after)) ∨
      (setting.machine last).PassesFunction)

/-- Whether a run that does not stop comes to a state of some kind. -/
def Concludes (setting : Setting) (start : State) (Done : State → Prop) : Prop :=
  setting.Stops start ∨ ∃ after, setting.Reaches start after ∧ Done after

namespace Concludes

variable {start next : State} {Done Result : State → Prop}

theorem of_fails {fault : Fault} {after : State}
    (fails : (setting.machine start).Fails fault (setting.machine after)) :
    setting.Concludes start Done :=
  .inl ⟨start, .refl, .inl ⟨fault, after, fails⟩⟩

theorem of_passes (passes : (setting.machine start).PassesFunction) :
    setting.Concludes start Done :=
  .inl ⟨start, .refl, .inr passes⟩

theorem of_done (done : Done start) : setting.Concludes start Done :=
  .inr ⟨start, .refl, done⟩

theorem after_reaches (reaches : setting.Reaches start next)
    (concludes : setting.Concludes next Done) : setting.Concludes start Done := by
  rcases concludes with ⟨last, reachesLast, stopped⟩ | ⟨after, reachesAfter, done⟩
  · exact .inl ⟨last, reaches.trans reachesLast, stopped⟩
  · exact .inr ⟨after, reaches.trans reachesAfter, done⟩

theorem bind (first : setting.Concludes start Done)
    (second : ∀ state, setting.Reaches start state → Done state → setting.Concludes state Result) :
    setting.Concludes start Result := by
  rcases first with stops | ⟨state, reaches, done⟩
  · exact .inl stops
  · exact after_reaches reaches (second state reaches done)

/-- A machine concludes where it follows an evaluation that needs no fuel. -/
theorem of_follows {Good : α → Prop} {Leaves : α → World → State → Prop}
    {action : Evaluation α} {world : World} (returns : action.Returns Good)
    (follows : setting.Follows 0 start Leaves (action world)) :
    setting.Concludes start fun after => ∃ value final, Good value ∧ Leaves value final after := by
  have returned := returns world
  cases evaluated : action world with
  | ok value final =>
      rw [evaluated] at follows returned
      rcases follows with ⟨after, reaches, leaves⟩
      exact .inr ⟨after, reaches, value, final, returned, leaves⟩
  | error reason final =>
      rw [evaluated] at follows returned
      cases reason with
      | outOfFuel => exact returned.elim
      | fault fault =>
          rcases follows with ⟨last, after, reaches, fails, _⟩
          exact .inl ⟨last, reaches, .inl ⟨fault, after, fails⟩⟩

end Concludes

/-! ## Entries that finish -/

/-- Whether entries on the control stack, wherever what is visible agrees with a scope,
come to an end and leave behind what a command may. -/
def Finishes (setting : Setting) (scope : Scope) (entries : List Control) : Prop :=
  ∀ ⦃start : State⦄ ⦃rest : List Control⦄ ⦃world : World⦄,
    setting.draft.AgreesOn start.closures scope start.environment →
    world.Agrees setting.printer start → start.control = entries ++ rest →
    setting.Concludes start fun after => ∃ final, setting.Restores start rest world final after

variable {scope : Scope}

namespace Finishes

theorem nil : setting.Finishes scope [] := by
  intro start rest world same agrees scheduled
  refine .of_done ⟨world, restores_of_agrees agrees rfl ?_⟩
  rw [← show start.control = rest from scheduled]

theorem append {front back : List Control} (first : setting.Finishes scope front)
    (second : setting.Finishes scope back) : setting.Finishes scope (front ++ back) := by
  intro start rest world same agrees scheduled
  have control : start.control = front ++ (back ++ rest) := by
    rw [scheduled, List.append_assoc]
  refine (first same agrees control).bind fun between _ restored => ?_
  rcases restored with ⟨middle, before⟩
  have sameBetween : setting.draft.AgreesOn between.closures scope between.environment := by
    rw [before.closures, before.environment]
    exact same
  refine (second sameBetween before.agrees before.control).bind fun state reaches restored => ?_
  rcases restored with ⟨final, others⟩
  exact .of_done ⟨final, before.trans others (Machine.Reaches.grows reaches)⟩

/-- Where only entries were scheduled, what they restore is what was there before. -/
theorem resume {entries : List Control} (finishes : setting.Finishes scope entries) {start : State}
    {rest : List Control} {world : World} {steps : Nat}
    (same : setting.draft.AgreesOn start.closures scope start.environment)
    (agrees : world.Agrees setting.printer start) :
    setting.Concludes { start with control := entries ++ rest, steps := steps }
      fun after => ∃ final, setting.Restores start rest world final after := by
  let next : State := { start with control := entries ++ rest, steps := steps }
  have sameNext : setting.draft.AgreesOn next.closures scope next.environment := same
  have agreesNext : world.Agrees setting.printer next := agrees.frame rfl rfl
  refine (finishes sameNext agreesNext rfl).bind fun state _ restored => ?_
  rcases restored with ⟨final, restores⟩
  exact .of_done ⟨final, restores.frame rfl rfl rfl rfl⟩

/-- A tree of sequences finishes if its nodes do. -/
theorem of_flattens {id : NodeId} {ids : List NodeId}
    (flat : setting.image.code.Flattens id ids) (finishes : setting.Finishes scope (ids.map .node)) :
    setting.Finishes scope [.node id] := by
  intro start rest world same agrees scheduled
  rcases reaches_flattens flat scheduled with ⟨steps, reached⟩
  exact .after_reaches reached (finishes.resume same agrees)

end Finishes

/-- A command in which no other is nested finishes. -/
theorem finishes_single {current : Command} {id : NodeId}
    (laid : setting.draft.LaysCommand current id)
    (returns : (Evaluation.command 1 scope current).Returns fun _ => True) :
    setting.Finishes scope [.node id] := by
  intro start rest world same agrees scheduled
  have follows := setting.runs_commands 1 laid same agrees scheduled
  refine (Concludes.of_follows returns follows.of_succ).bind fun state _ done => ?_
  rcases done with ⟨_, final, _, restores⟩
  exact .of_done ⟨final, restores⟩

/-- A conditional finishes if its branches do. -/
theorem finishes_conditional {test : Expr} {condition thenBranch id : NodeId}
    {elseBranch : Option NodeId} (laid : setting.draft.LaysExpr test condition)
    (fetched : setting.image.code.node? id =
      some (.conditional condition thenBranch elseBranch))
    (branches : ∀ holds, setting.Finishes scope (Node.branch holds thenBranch elseBranch)) :
    setting.Finishes scope [.node id] := by
  intro start rest world same agrees scheduled
  refine .after_reaches (reaches_of_rule scheduled (.agenda fetched rfl (by simp))) ?_
  let entered : State := { start with
    control := .node condition :: .op .cond :: rest
    values := .pending id :: start.values
    steps := start.steps + 1 }
  have sameEntered : setting.draft.AgreesOn entered.closures scope entered.environment := same
  have agreesEntered : world.Agrees setting.printer entered := agrees.frame rfl rfl
  refine (Concludes.of_follows (Evaluation.returns_condition scope test)
    (follows_condition rfl laid sameEntered agreesEntered rfl)).bind fun state _ decided => ?_
  rcases decided with ⟨holds, _, _, rfl, steps, rfl⟩
  refine .after_reaches (reaches_of_rule rfl (.cond rfl fetched)) ?_
  exact (branches holds).resume same agrees

/-- A block finishes if its commands do in the scope that its declarations make. -/
theorem finishes_block {parts : List Declaration} {body : List Command} {id : NodeId}
    {Good : Value → Prop} (laid : setting.draft.LaysBlock (.mk parts body) id)
    (returns : (Evaluation.declarations scope parts).Returns fun declared =>
      ∀ entry ∈ declared, Good entry.2)
    (finishes : ∀ (declared : Scope) ids, (∀ entry ∈ declared, Good entry.2) →
      setting.draft.LaysCommands body ids →
      setting.Finishes (declared.reverse ++ scope) (ids.map .node)) :
    setting.Finishes scope [.node id] := by
  intro start rest world same agrees scheduled
  cases laid with
  | @mk _ _ declared commanded declarations commands _ partsLaid declarationsFlat bodyLaid
      commandsFlat fetched =>
      refine .after_reaches (reaches_of_rule scheduled (.block fetched)) ?_
      refine (Concludes.of_follows returns (follows_opening partsLaid declarationsFlat commandsFlat
        same agrees)).bind fun between _ opens => ?_
      rcases opens with ⟨declared, middle, good, opened⟩
      refine (finishes declared commanded good bodyLaid opened.same opened.agrees
        opened.control).bind fun state _ restored => ?_
      rcases restored with ⟨after, restores⟩
      rcases opened.close restores with ⟨closed, reaches, left⟩
      exact .after_reaches reaches (.of_done ⟨_, left⟩)

/-! ## Tame functions -/

/-- Whether a value is plain data or a function whose body finishes whenever the
function is called with plain data. -/
def Tame (setting : Setting) : Value → Prop
  | .storable _ => True
  | .function formals body captured group =>
    group = [] ∧ ∀ (actuals : List Storable) (id : NodeId), setting.draft.LaysBlock body id →
      setting.Finishes
        (Evaluation.calleeScope formals captured [] (actuals.map .storable)) [.node id]

/-- Actuals pass a function, or they are plain data. -/
theorem exists_storables (values : List Value) :
    (∃ formals body captured group, .function formals body captured group ∈ values) ∨
      ∃ actuals : List Storable, values = actuals.map .storable := by
  induction values with
  | nil => exact .inr ⟨[], rfl⟩
  | cons value values induction =>
      cases value with
      | function formals body captured group =>
          exact .inl ⟨formals, body, captured, group, List.mem_cons_self⟩
      | storable value =>
          rcases induction with ⟨formals, body, captured, group, member⟩ | ⟨actuals, rfl⟩
          · exact .inl ⟨formals, body, captured, group, List.mem_cons_of_mem _ member⟩
          · exact .inr ⟨value :: actuals, rfl⟩

/-- A call that has a function among its actuals passes it. -/
theorem passesFunction {start : State} {table : ClosureTable} {name : Name} {rest : List Control}
    {values : List Value} {bounds : List Bindable} {below : ValueStack} {formals : List String}
    {body : Block} {captured : Scope} {group : List Function}
    (scheduled : start.control = .op (.call name bounds.length) :: rest)
    (taken : start.values = bounds.map .bindable ++ below)
    (agreed : List.Forall₂ (fun value bound =>
      setting.draft.Agrees table (some value) (some bound)) values bounds)
    (member : .function formals body captured group ∈ values) :
    (setting.machine start).PassesFunction := by
  rcases List.forall₂_iff_get.mp agreed with ⟨_, each⟩
  rcases List.get_of_mem member with ⟨⟨index, inside⟩, found⟩
  have insideBounds : index < bounds.length := agreed.length_eq ▸ inside
  have agrees := each index inside insideBounds
  rw [found] at agrees
  generalize same : bounds.get ⟨index, insideBounds⟩ = bound at agrees
  cases agrees with
  | @function _ _ _ _ reference =>
      refine ⟨name, bounds.length, rest, reference, scheduled, ?_⟩
      have isBound : .closure reference ∈ bounds := same ▸ List.get_mem _ _
      show .closure reference ∈ start.values.take bounds.length
      rw [taken, List.take_left' (List.length_map _)]
      exact List.mem_map_of_mem isBound

theorem exists_requireArity_eq {callee : String} {expected got : Nat} (differ : expected ≠ got)
    (before : State) : ∃ fault, Action.requireArity callee expected got before =
      .error fault before := by
  rcases Nat.lt_or_gt_of_ne differ with fewer | more
  · refine ⟨.excessParametersInCall callee expected got, ?_⟩
    rw [Action.requireArity, if_neg (Nat.lt_asymm fewer), if_pos fewer]
    rfl
  · refine ⟨.missingParametersInCall callee expected got, ?_⟩
    rw [Action.requireArity, if_pos more]
    rfl

/-- A call of plain data fails before it enters its callee, or the callee's body finishes. -/
theorem concludes_callee {start : State} {rest : List Control} {world : World} {text : String}
    {name : Name} {actuals : List Storable} {bounds : List Bindable} {below : ValueStack}
    {count : Nat} (tame : ∀ entry ∈ scope, setting.Tame entry.2)
    (named : setting.draft.Names text name)
    (same : setting.draft.AgreesOn start.closures scope start.environment)
    (agrees : world.Agrees setting.printer start)
    (scheduled : start.control = .op (.call name count) :: rest)
    (agreed : List.Forall₂ (fun value bound =>
      setting.draft.Agrees start.closures (some value) (some bound)) (actuals.map .storable) bounds)
    (taken : start.values = bounds.map .bindable ++ below) (supplied : actuals.length = count) :
    setting.Concludes start fun after =>
      ∃ final, setting.Restores { start with values := below } rest world final after := by
  have callee := same text name named
  generalize found : scope.lookup text = value at callee
  generalize bound : start.environment.lookup name = reference at callee
  cases callee with
  | unbound => exact .of_fails (fails_of_execute scheduled (apply_call_of_unbound bound))
  | storable value =>
      exact .of_fails (fails_of_execute scheduled (apply_call_of_storable bound))
  | @function formals body captured group reference closure closureFound closureLaid sameCaptured
      groupLaid =>
      have arity : formals.length = (setting.image.code.formals closure.formals).length :=
        closureLaid.formals.length_eq
      by_cases isMatch : formals.length = count
      · rcases List.lookup_eq_some_iff.mp found with ⟨front, back, rfl, _⟩
        rcases tame (text, .function formals body captured group) (by simp) with ⟨rfl, finishes⟩
        have values : (actuals.map Value.storable).length = count := by
          rw [List.length_map, supplied]
        rcases reaches_callee scheduled bound closureFound closureLaid sameCaptured groupLaid agreed
          taken isMatch values with ⟨environment, reached, sameInside⟩
        let inside : State := called start rest below closure.body environment
        have agreesInside : world.Agrees setting.printer inside := agrees.frame rfl rfl
        refine .after_reaches reached ((finishes actuals closure.body closureLaid.body sameInside
          agreesInside rfl).bind fun state _ restored => ?_)
        rcases restored with ⟨final, restores⟩
        rcases restores.leave with ⟨left, reaches, restored⟩
        exact .after_reaches reaches (.of_done ⟨final, restored⟩)
      · rw [arity] at isMatch
        rcases exists_requireArity_eq isMatch (Machine.begin start rest) with ⟨fault, raised⟩
        have begun : (Machine.begin start rest).environment.lookup name =
          some (.closure reference) := bound
        exact .of_fails (fails_of_execute scheduled
          (apply_call_of_arity begun closureFound raised))

/-- A call finishes in a scope where all functions are tame. -/
theorem finishes_call {text : String} {exprs : List Expr} {id : NodeId}
    (laid : setting.draft.LaysCommand (.call text exprs) id)
    (tame : ∀ entry ∈ scope, setting.Tame entry.2) : setting.Finishes scope [.node id] := by
  intro start rest world same agrees scheduled
  cases laid with
  | @call _ _ ids span name _ laid named listed fetched =>
      have listed : setting.image.code.actuals span = ids := listed
      refine .after_reaches (reaches_of_rule scheduled (.agenda fetched rfl (by simp))) ?_
      rw [listed, List.append_assoc]
      let entered : State := { start with
        control := ids.reverse.map .node ++ (.op (.call name ids.length) :: rest)
        steps := start.steps + 1 }
      have sameEntered : setting.draft.AgreesOn entered.closures scope entered.environment := same
      have agreesEntered : world.Agrees setting.printer entered := agrees.frame rfl rfl
      refine (Concludes.of_follows (Evaluation.returns_actuals (fun _ => trivial) tame exprs)
        (follows_actuals laid sameEntered agreesEntered rfl)).bind fun state _ evaluated => ?_
      rcases evaluated with ⟨values, _, _, rfl, length, bounds, steps, agreed, rfl⟩
      have supplied : bounds.length = ids.length := by
        rw [← agreed.length_eq, length, laid.length_eq]
      let calling : State := { start with
        control := .op (.call name ids.length) :: rest
        values := bounds.map .bindable ++ start.values
        steps := steps }
      show setting.Concludes calling _
      have scheduledCall : calling.control = .op (.call name ids.length) :: rest := rfl
      rcases exists_storables values with ⟨formals, body, captured, group, member⟩ | ⟨actuals, rfl⟩
      · rw [← supplied] at scheduledCall
        exact .of_passes (passesFunction scheduledCall rfl agreed member)
      · rw [List.length_map] at length
        have sameCalling : setting.draft.AgreesOn calling.closures scope calling.environment := same
        refine (concludes_callee tame named sameCalling (agrees.frame rfl rfl) scheduledCall agreed
          rfl (length.trans laid.length_eq)).bind fun state _ restored => ?_
        rcases restored with ⟨final, restores⟩
        exact .of_done ⟨final, restores.frame rfl rfl rfl rfl⟩

/-! ## Programs -/

/-- What a function of tame surroundings and plain data sees is tame. -/
theorem tame_calleeScope {formals : List String} {captured : Scope} {actuals : List Storable}
    (tame : ∀ entry ∈ captured, setting.Tame entry.2) :
    ∀ entry ∈ Evaluation.calleeScope formals captured [] (actuals.map .storable),
      setting.Tame entry.2 := by
  intro entry member
  simp only [Evaluation.calleeScope, List.map_nil, List.reverse_nil, List.nil_append,
    List.mem_append, List.mem_reverse] at member
  rcases member with formal | outer
  · rcases List.mem_map.mp (List.of_mem_zip formal).2 with ⟨value, _, same⟩
    rw [← same]
    trivial
  · exact tame entry outer

mutual
theorem finishes_of_block {scope : Scope} (tame : ∀ entry ∈ scope, setting.Tame entry.2) :
    (tree : Block) → tree.isStraight → {id : NodeId} → setting.draft.LaysBlock tree id →
    setting.Finishes scope [.node id]
  | .mk parts body, straight, id, laid => by
      have both := Bool.and_eq_true_iff.mp straight
      refine finishes_block laid (returns_declarations tame parts both.1) ?_
      intro declared ids tameDeclared bodyLaid
      refine finishes_of_commands ?_ body both.2 bodyLaid
      intro entry member
      rcases List.mem_append.mp member with new | outer
      · exact tameDeclared entry (List.mem_reverse.mp new)
      · exact tame entry outer
termination_by structural tree => tree

theorem tame_function {scope : Scope} (tame : ∀ entry ∈ scope, setting.Tame entry.2) :
    (tree : Function) → tree.isStraight → setting.Tame (tree.toValue scope [])
  | .mk _ _ body, straight =>
      ⟨rfl, fun _ _ laid => finishes_of_block (tame_calleeScope tame) body straight laid⟩
termination_by structural tree => tree

theorem returns_declarations {scope : Scope} (tame : ∀ entry ∈ scope, setting.Tame entry.2) :
    (trees : List Declaration) → Declaration.areStraight trees →
    (Evaluation.declarations scope trees).Returns fun declared =>
      ∀ entry ∈ declared, setting.Tame entry.2
  | [], _ => .pure (by simp)
  | first :: rest, straight => by
      have both := Bool.and_eq_true_iff.mp straight
      exact (returns_declaration tame first both.1).bind fun declared tameDeclared =>
        (returns_declarations tame rest both.2).bind fun others tameOthers =>
        .pure (List.forall_mem_append.mpr ⟨tameDeclared, tameOthers⟩)
termination_by structural trees => trees

theorem returns_declaration {scope : Scope} (tame : ∀ entry ∈ scope, setting.Tame entry.2) :
    (tree : Declaration) → tree.isStraight →
    (Evaluation.declaration scope tree).Returns fun declared =>
      ∀ entry ∈ declared, setting.Tame entry.2
  | .var text initial, _ =>
      (Evaluation.returns_any scope initial).bind fun value _ =>
        (Evaluation.returns_newCell value).bind fun address _ => .pure (by simp [Tame])
  | .const text expr, _ =>
      (Evaluation.returns_expression (fun _ => trivial) tame expr).bind fun value tameValue =>
        .pure (List.forall_mem_singleton.mpr tameValue)
  | .function declared, straight =>
      .pure (List.forall_mem_singleton.mpr (tame_function tame declared straight))
  | .recursive _, straight => nomatch straight
termination_by structural tree => tree

theorem finishes_of_command {scope : Scope} (tame : ∀ entry ∈ scope, setting.Tame entry.2) :
    (tree : Command) → tree.isStraight → {id : NodeId} → setting.draft.LaysCommand tree id →
    setting.Finishes scope [.node id]
  | .nop, _, _, laid => finishes_single laid (Evaluation.returns_command scope (.inl rfl))
  | .assign text expr, _, _, laid =>
      finishes_single laid (Evaluation.returns_command scope (.inr (.inl ⟨text, expr, rfl⟩)))
  | .print expr, _, _, laid =>
      finishes_single laid (Evaluation.returns_command scope (.inr (.inr ⟨expr, rfl⟩)))
  | .call _ _, _, _, laid => finishes_call laid tame
  | .block inner, straight, _, .block laid => finishes_of_block tame inner straight laid
  | .loop _ _, straight, _, _ => nomatch straight
  | .ifThen test thenCommands, straight, _, .ifThen testLaid thenLaid flat fetched => by
      have thenFinishes := finishes_of_commands tame thenCommands straight thenLaid
      refine finishes_conditional testLaid fetched fun holds => ?_
      cases holds with
      | false => exact .nil
      | true => exact .of_flattens flat thenFinishes
  | .ifThenElse test thenCommands elseCommands, straight, _,
      .ifThenElse testLaid thenLaid thenFlat elseLaid elseFlat fetched => by
      have both := Bool.and_eq_true_iff.mp straight
      have thenFinishes := finishes_of_commands tame thenCommands both.1 thenLaid
      have elseFinishes := finishes_of_commands tame elseCommands both.2 elseLaid
      refine finishes_conditional testLaid fetched fun holds => ?_
      cases holds with
      | false => exact .of_flattens elseFlat elseFinishes
      | true => exact .of_flattens thenFlat thenFinishes
termination_by structural tree => tree

theorem finishes_of_commands {scope : Scope} (tame : ∀ entry ∈ scope, setting.Tame entry.2) :
    (trees : List Command) → Command.areStraight trees → {ids : List NodeId} →
    setting.draft.LaysCommands trees ids → setting.Finishes scope (ids.map .node)
  | [], _, _, .nil => .nil
  | first :: rest, straight, _, .cons firstLaid restLaid => by
      have both := Bool.and_eq_true_iff.mp straight
      exact (finishes_of_command tame first both.1 firstLaid).append
        (finishes_of_commands tame rest both.2 restLaid)
termination_by structural trees => trees
end

end Setting

/-- A program that has neither loops nor recursive groups halts, fails or passes a
function, after finitely many steps, on a machine that has no step budget. -/
theorem halts_or_fails_or_passesFunction {names : NameTable} {body : List Command}
    {program : Program} {options : Options} (printer : Printer)
    (accepted : (translate names body).1 = .ok program) (straight : Command.areStraight body)
    (unlimited : options.maxSteps = none) :
    ∃ last, (Machine.load ⟨program, (translate names body).2⟩ options printer).Reaches last ∧
      (last.isHalted ∨ (∃ fault after, last.Fails fault after) ∨ last.PassesFunction) := by
  let setting : Setting := ⟨⟨program, (translate names body).2⟩, options, printer, unlimited⟩
  rcases exists_laid_of_translate accepted with ⟨ids, laid, flat⟩
  have laid : setting.draft.LaysCommands body ids := laid
  have flat : setting.image.code.Flattens program.root ids := flat
  have nothingTame : ∀ entry ∈ ([] : Scope), setting.Tame entry.2 := by simp
  have finishes := Setting.Finishes.of_flattens flat
    (setting.finishes_of_commands nothingTame body straight laid)
  have same : setting.draft.AgreesOn (State.start program.root printer).closures []
    (State.start program.root printer).environment := setting.draft.agreesOn_empty _
  rcases finishes same (World.agrees_empty program.root printer) rfl with
    ⟨last, reaches, fails | passes⟩ | ⟨after, reaches, final, restores⟩
  · rcases fails with ⟨fault, after, fails⟩
    exact ⟨_, reaches, .inr (.inl ⟨fault, _, fails⟩)⟩
  · exact ⟨_, reaches, .inr (.inr passes)⟩
  · exact ⟨_, reaches, .inl (List.isEmpty_iff.mpr restores.control)⟩

/-- A function that is called under another name, within a function that declares a third. -/
def delegating : List Command :=
  [.block (.mk
    [.function (.mk "show" ["value"] (.mk [] [.print (.ident "value")]))]
    [.block (.mk
      [.const "alias" (.ident "show"),
        .function (.mk "outer" ["flag"] (.mk
          [.function (.mk "inner" [] (.mk [] [.call "show" [.ident "flag"]]))]
          [.ifThen (.ident "flag") [.call "inner" []]]))]
      [.call "outer" [.bool true], .call "alias" [.bool false]])])]

theorem halts_or_fails_or_passesFunction_delegating : ∃ program,
    (translate .initial delegating).1 = .ok program ∧ ∃ last,
      (Machine.load ⟨program, (translate .initial delegating).2⟩ .unbounded
        (.buffer "")).Reaches last ∧
      (last.isHalted ∨ (∃ fault after, last.Fails fault after) ∨ last.PassesFunction) := by
  have accepted : (translate .initial delegating).1.isOk := by decide +kernel
  cases translated : (translate .initial delegating).1 with
  | error rejection => simp [translated, Except.isOk, Except.toBool] at accepted
  | ok program =>
      exact ⟨program, rfl, halts_or_fails_or_passesFunction (.buffer "") translated (by decide) rfl⟩

/-! ## Passing functions -/

/-- What a function does that calls its actual with the actual itself. -/
def selfCalling : Block :=
  .mk [] [.call "self" [.ident "self"]]

/-- A function that calls its actual with the actual itself, called with itself. -/
def selfPassing : List Command :=
  [.block (.mk [.function (.mk "start" ["self"] selfCalling)]
    [.call "start" [.ident "start"]])]

theorem Evaluation.selfCalling_outOfFuel (fuel : Nat) {scope captured : Scope} {text : String}
    (bound : scope.lookup text = some (.function ["self"] selfCalling captured [])) (world : World) :
    ∃ after, command fuel scope (.call text [.ident text]) world = .error .outOfFuel after := by
  induction fuel generalizing scope text world with
  | zero => exact ⟨world, rfl⟩
  | succ fuel induction =>
      let passed : Value := .function ["self"] selfCalling captured []
      let inside : Scope := calleeScope ["self"] captured [] [passed]
      have called : command (fuel + 1) scope (.call text [.ident text]) world =
          block (command fuel) inside selfCalling world := by
        simp only [command, call, actuals, expression, find, bound]
        rfl
      have boundInside : inside.lookup "self" = some passed := rfl
      rcases induction boundInside world with ⟨after, stopped⟩
      refine ⟨after, called.trans ?_⟩
      show ((command fuel inside (.call "self" [.ident "self"]) >>= fun _ => pure ()) >>= fun _ =>
        change (World.removeFrom world.next)) world = _
      simp only [Bind.bind, EStateM.bind, stopped]

theorem Evaluation.diverges_selfPassing : Diverges selfPassing := by
  intro fuel
  cases fuel with
  | zero => exact ⟨World.empty, rfl⟩
  | succ fuel =>
      let scope : Scope := [("start", .function ["self"] selfCalling [] [])]
      have bound : scope.lookup "start" = some (.function ["self"] selfCalling [] []) := rfl
      rcases selfCalling_outOfFuel fuel bound World.empty with ⟨after, stopped⟩
      refine ⟨after, ?_⟩
      show (((command fuel scope (.call "start" [.ident "start"]) >>= fun _ => pure ()) >>= fun _ =>
        change (World.removeFrom 0)) >>= fun _ => pure ()) World.empty = _
      simp only [Bind.bind, EStateM.bind, stopped]

/-- Neither a loop nor a recursive group is needed to go on for ever. -/
theorem selfPassing_diverges : Command.areStraight selfPassing ∧ ∃ program,
    (translate .initial selfPassing).1 = .ok program ∧
    (Machine.load ⟨program, (translate .initial selfPassing).2⟩ .unbounded
      (.buffer "")).Diverges := by
  have accepted : (translate .initial selfPassing).1.isOk := by decide +kernel
  refine ⟨by decide, ?_⟩
  cases translated : (translate .initial selfPassing).1 with
  | error rejection => simp [translated, Except.isOk, Except.toBool] at accepted
  | ok program =>
      let setting : Setting :=
        ⟨⟨program, (translate .initial selfPassing).2⟩, .unbounded, .buffer "", rfl⟩
      rcases exists_laid_of_translate translated with ⟨ids, laid, flat⟩
      have laid : setting.draft.LaysCommands selfPassing ids := laid
      exact ⟨program, rfl, setting.diverges_of_evaluation laid flat
        Evaluation.diverges_selfPassing⟩

end BlockMachine
