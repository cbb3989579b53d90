import BlockMachine.Proofs.Machine.Execution
import BlockMachine.Proofs.Machine.Horizon
import BlockMachine.Proofs.Machine.Markers
import BlockMachine.Proofs.Scoping.Bindings
import BlockMachine.Proofs.Translation.Occurrences

namespace BlockMachine

/-! # Frames

What is still to be done in one scope of a translated program: its expressions and
commands, and the opcodes that wait for the values of their operands. Each entry of
the control stack takes known slots of the value stack and leaves others to the
entries below it, so that a frame says what the value stack has to be. How a frame
begins and what it ends in is left open. -/

/-- What a place of the value stack is for: the value of an operand, the target of an
assignment or declaration, an unfinished conditional or loop, the closure of a function
that is being declared, the declarations of a block so far, and what a scope restores. -/
inductive Slot where
  | operand
  | target (text : String)
  | pending (site : NodeId)
  | member (group : List Function) (scope : List String)
  | declarations (names : List String)
  | mark
  | region
  | environment (scope : List String)

namespace Opcode

/-- How many operands an operator takes. -/
def operandCount? : Opcode → Option Nat
  | arith _ | logic _ => some 2
  | not => some 1
  | _ => none

theorem Combines.operandCount? {opcode : Opcode} {operands : List Storable} {result : Storable}
    (combines : Combines opcode operands result) :
    opcode.operandCount? = some operands.length := by
  cases combines <;> rfl

theorem not_opensScope_of_operandCount? {opcode : Opcode} {count : Nat} {code : Code}
    (takes : opcode.operandCount? = some count) : ¬(Control.op opcode).OpensScope code := by
  cases opcode with
  | call => cases takes
  | _ => exact id

end Opcode

/-- The work that is left in a scope and the slots that it takes, down to where `Base`
goes on. `scope` are the identifiers visible to it. -/
inductive Frame (image : Image) (body : List Command)
    (Base : List Control → List Slot → List String → Prop) :
    List Control → List Slot → List String → Prop where
  | base (reached : Base work slots scope) : Frame image body Base work slots scope
  | expression (occurs : image.program.Occurs body scope (.expression expr) site)
      (rest : Frame image body Base work (.operand :: slots) scope) :
      Frame image body Base (.node site :: work) slots scope
  | command (occurs : image.program.Occurs body scope phrase site) (isCommand : phrase.isCommand)
      (rest : Frame image body Base work slots scope) :
      Frame image body Base (.node site :: work) slots scope
  | operator (takes : opcode.operandCount? = some count)
      (rest : Frame image body Base work (.operand :: slots) scope) :
      Frame image body Base (.op opcode :: work) (List.replicate count .operand ++ slots) scope
  | assign (occurs : image.program.Occurs body scope (.command (.assign text value)) site)
      (rest : Frame image body Base work slots scope) :
      Frame image body Base (.op .assign :: work) (.operand :: .target text :: slots) scope
  | cond (fetched : image.code.node? site = some (.conditional condition thenBranch elseBranch))
      (branches : ∀ branch ∈ thenBranch :: elseBranch.toList, ∃ phrase : Phrase,
        phrase.isCommand ∧ image.program.Occurs body scope phrase branch)
      (rest : Frame image body Base work slots scope) :
      Frame image body Base (.op .cond :: work) (.operand :: .pending site :: slots) scope
  | loop (fetched : image.code.node? site = some (.loop condition repeated))
      (occurs : image.program.Occurs body scope (.command (.loop test commands)) site)
      (repeats : image.program.Occurs body scope (.ofCommands commands) repeated)
      (rest : Frame image body Base work slots scope) :
      Frame image body Base (.op .loop :: work) (.operand :: .pending site :: slots) scope
  | print (rest : Frame image body Base work slots scope) :
      Frame image body Base (.op .print :: work) (.operand :: slots) scope
  | call (occurs : image.program.Occurs body scope (.command (.call text actuals)) site)
      (named : image.draft.Names text callee) (rest : Frame image body Base work slots scope) :
      Frame image body Base (.op (.call callee count) :: work)
        (List.replicate count .operand ++ slots) scope

/-! ## Filling slots -/

/-- Whether an entry of the value stack fits a slot. `Good` are the values that an
operand may have, and `Made` says which closures are made of the functions of a group. -/
inductive Slot.Admits (draft : Draft) (Good : Bindable → Prop)
    (Made : List Function → List String → ClosureRef → Prop) : Slot → StackValue → Prop where
  | operand (good : Good value) : Admits draft Good Made .operand (.bindable value)
  | target (named : draft.Names text name) :
      Admits draft Good Made (.target text) (.identifier name)
  | pending (site : NodeId) : Admits draft Good Made (.pending site) (.pending site)
  | member (made : Made group scope reference) :
      Admits draft Good Made (.member group scope) (.closure reference)
  | declarations (binds : draft.BindsJust names collected) (holds : collected.Holds Good) :
      Admits draft Good Made (.declarations names) (.declarations collected)
  | mark (saved : Mark) : Admits draft Good Made .mark (.mark saved)
  | region (saved : Region) : Admits draft Good Made .region (.region saved)
  | environment (binds : draft.BindsJust scope saved) (holds : saved.Holds Good) :
      Admits draft Good Made (.environment scope) (.environment saved)

section

variable {draft : Draft} {Good : Bindable → Prop}
  {Made : List Function → List String → ClosureRef → Prop}

/-- Values that are taken off a stack leave what fills the slots below theirs. -/
theorem Slot.take {slot : Slot} {slots : List Slot} {count : Nat}
    {upper below rest : ValueStack} {values : List Bindable}
    (filled : List.Forall₂ (Admits draft Good Made) (List.replicate count slot ++ slots) upper)
    (counted : values.length = count) (taken : upper ++ below = values.map .bindable ++ rest) :
    ∃ left, rest = left ++ below ∧ List.Forall₂ (Admits draft Good Made) slots left ∧
      ∀ value ∈ values, Admits draft Good Made slot (.bindable value) := by
  induction values generalizing count upper with
  | nil =>
      cases counted
      exact ⟨upper, taken.symm, filled, by simp⟩
  | cons value values induction =>
      cases counted
      rw [List.length_cons, List.replicate_succ, List.cons_append] at filled
      rcases List.forall₂_cons_left_iff.mp filled with ⟨top, left, admits, others, rfl⟩
      rcases List.cons.inj taken with ⟨rfl, takenRest⟩
      rcases induction others rfl takenRest with ⟨last, rfl, filledLast, admitted⟩
      exact ⟨last, rfl, filledLast, List.forall_mem_cons.mpr ⟨admits, admitted⟩⟩

theorem Slot.Admits.good {value : Bindable}
    (admits : Slot.Admits draft Good Made .operand (.bindable value)) : Good value := by
  cases admits with
  | operand good => exact good

theorem Slot.Admits.made {group : List Function} {scope : List String} {reference : ClosureRef}
    (admits : Slot.Admits draft Good Made (.member group scope) (.closure reference)) :
    Made group scope reference := by
  cases admits with
  | member made => exact made

end

/-- Whether a step has left alone what belongs to the scope that is open. -/
structure State.SameScope (before after : State) : Prop where
  environment : after.environment = before.environment
  region : after.region = before.region
  closures : after.closures = before.closures
  live : ∀ address, after.store.isLive address ↔ before.store.isLive address

namespace State.SameScope

theorem refl (state : State) : state.SameScope state :=
  ⟨rfl, rfl, rfl, fun _ => Iff.rfl⟩

theorem trans {first second third : State} (left : first.SameScope second)
    (right : second.SameScope third) : first.SameScope third where
  environment := right.environment.trans left.environment
  region := right.region.trans left.region
  closures := right.closures.trans left.closures
  live := fun address => (right.live address).trans (left.live address)

end State.SameScope

/-- Whether a state has a frame to work on, whose slots the entries above `below`
fill. -/
def State.Framed (image : Image) (body : List Command)
    (Base : List Control → List Slot → List String → Prop) (Good : Bindable → Prop)
    (Made : List Function → List String → ClosureRef → Prop) (below : ValueStack)
    (scope : List String) (state : State) : Prop :=
  ∃ slots upper, Frame image body Base state.control slots scope ∧
    state.values = upper ++ below ∧ List.Forall₂ (Slot.Admits image.draft Good Made) slots upper

namespace Frame

variable {image : Image} {body : List Command}
  {Base : List Control → List Slot → List String → Prop} {Good : Bindable → Prop}
  {Made : List Function → List String → ClosureRef → Prop} {scope : List String}
  {control : List Control} {slots : List Slot} {upper below : ValueStack} {before after : State}

/-- Operands that are evaluated one after another fill as many slots. -/
theorem expressions {ids : List NodeId}
    (occur : ∀ id ∈ ids, ∃ expr, image.program.Occurs body scope (.expression expr) id)
    (rest : Frame image body Base control (List.replicate ids.length .operand ++ slots) scope) :
    Frame image body Base (ids.map .node ++ control) slots scope := by
  induction ids generalizing slots with
  | nil => exact rest
  | cons id ids induction =>
      rcases occur id List.mem_cons_self with ⟨expr, occurs⟩
      refine .expression occurs (induction (fun other member =>
        occur other (List.mem_cons_of_mem id member)) ?_)
      rw [List.length_cons, List.replicate_succ', List.append_assoc] at rest
      exact rest

/-- Entering an expression pushes its value or schedules its operands. -/
theorem enter_expression (of : image.IsOf body) {expr : Expr} {id : NodeId}
    (occurs : image.program.Occurs body scope (.expression expr) id)
    (rest : Frame image body Base before.control (.operand :: slots) scope)
    (rule : Rule image (.node id) before after) (visible : before.environment.Holds Good)
    (storables : ∀ value, Good (.storable value)) :
    (∃ value, Good value ∧ after = { before with values := .bindable value :: before.values }) ∨
      ∃ scheduled, after = { before with control := scheduled ++ before.control } ∧
        Frame image body Base (scheduled ++ before.control) slots scope := by
  cases occurs.lays of with
  | ident named fetched =>
      rcases Action.enterIdentifier_eq_ok_iff.mp (rule.enterNode_eq_ok fetched) with
        ⟨value, result, bound, held, rfl⟩
      refine .inl ⟨result, ?_, rfl⟩
      unfold Store.dereference? at held
      split at held
      · rcases Option.map_eq_some_iff.mp held with ⟨content, _, rfl⟩
        exact storables content
      · cases held
        exact visible.lookup bound
  | num fetched => exact .inl ⟨_, storables _, rule.unique (.literal fetched rfl)⟩
  | bool fetched => exact .inl ⟨_, storables _, rule.unique (.literal fetched rfl)⟩
  | addressOf named fetched =>
      have entered := rule.enterNode_eq_ok fetched
      simp only [Action.enterNode, Action.bind_eq_ok_iff, Action.locationOf_eq_ok_iff] at entered
      rcases entered with ⟨address, _, ⟨bound, rfl⟩, pushed⟩
      cases pushed
      exact .inl ⟨_, storables (.location address), rfl⟩
  | valueOf named fetched =>
      rcases Action.enterValueOf_eq_ok_iff.mp (rule.enterNode_eq_ok fetched) with
        ⟨address, target, value, bound, pointer, held, rfl⟩
      exact .inl ⟨_, storables value, rfl⟩
  | @binary lexeme op lhs rhs left right _ known lhsLaid rhsLaid fetched =>
      have parts := occurs.parts of fetched
      rw [Node.children_ofOperator] at parts
      rcases List.forall₂_cons.mp parts with ⟨lhsOccurs, others⟩
      have rhsOccurs := (List.forall₂_cons.mp others).1
      have takes : op.opcode.operandCount? = some 2 := by cases op <;> rfl
      have applied := operator takes rest
      have scheduled := Node.agenda?_ofOperator image.code id op left right
      exact .inr ⟨_, rule.unique (.agenda fetched scheduled (by simp)),
        .expression rhsOccurs (.expression lhsOccurs applied)⟩
  | @not operand inner _ laid fetched =>
      have innerOccurs := (List.forall₂_cons.mp (occurs.parts of fetched)).1
      have applied : Frame image body Base (.op .not :: before.control) (.operand :: slots) scope :=
        operator (show Opcode.operandCount? .not = some 1 from rfl) rest
      exact .inr ⟨_, rule.unique (.agenda fetched rfl (by simp)), .expression innerOccurs applied⟩

/-- Entering a command that is no block parks what its opcode needs and schedules its
parts. -/
theorem enter_command (of : image.IsOf body) {phrase : Phrase} {id : NodeId}
    (occurs : image.program.Occurs body scope phrase id) (isCommand : phrase.isCommand)
    (plain : ¬(Control.node id).OpensScope image.code)
    (rest : Frame image body Base before.control slots scope)
    (rule : Rule image (.node id) before after) :
    ∃ scheduled parked added, Frame image body Base (scheduled ++ before.control)
        (added ++ slots) scope ∧
      List.Forall₂ (Slot.Admits image.draft Good Made) added parked ∧
      after = { before with
        values := parked ++ before.values
        control := scheduled ++ before.control } := by
  cases phrase with
  | expression | cell | function | declaration | declarations => cases isCommand
  | commands commands =>
      rcases occurs.lays of with ⟨several, ids, laid, flat⟩
      rcases Draft.split_of_flattens laid flat with ⟨rfl, fetched⟩ | ⟨_, rfl, _⟩ | split
      · exact ⟨[], [], [], rest, .nil, rule.unique (.agenda fetched rfl (by simp))⟩
      · exact absurd rfl several
      · rcases split with ⟨front, last, first, second, _, rfl, _, fetched, _⟩
        have parts := occurs.parts of fetched
        rw [Phrase.parts, Phrase.splitLast_concat] at parts
        rcases List.forall₂_cons.mp parts with ⟨firstOccurs, others⟩
        have secondOccurs := (List.forall₂_cons.mp others).1
        exact ⟨[.node first, .node second], [], [],
          .command firstOccurs (Phrase.isCommand_ofCommands front) (.command secondOccurs rfl rest),
          .nil, rule.unique (.agenda fetched rfl (by simp))⟩
  | command current =>
      cases occurs.lays of with
      | nop fetched => exact ⟨[], [], [], rest, .nil, rule.unique (.agenda fetched rfl (by simp))⟩
      | assign laid named fetched =>
          have value := (List.forall₂_cons.mp (occurs.parts of fetched)).1
          exact ⟨_, _, [.target _], .expression value (.assign occurs rest),
            .cons (.target named) .nil, rule.unique (.agenda fetched rfl (by simp))⟩
      | loop testLaid bodyLaid flat fetched =>
          rcases List.forall₂_cons.mp (occurs.parts of fetched) with ⟨test, others⟩
          have inner := (List.forall₂_cons.mp others).1
          exact ⟨_, _, [.pending id], .expression test (.loop fetched occurs inner rest),
            .cons (.pending id) .nil, rule.unique (.agenda fetched rfl (by simp))⟩
      | ifThen testLaid bodyLaid flat fetched =>
          rcases List.forall₂_cons.mp (occurs.parts of fetched) with ⟨test, others⟩
          have inner := (List.forall₂_cons.mp others).1
          refine ⟨_, _, [.pending id], .expression test (.cond fetched ?_ rest),
            .cons (.pending id) .nil, rule.unique (.agenda fetched rfl (by simp))⟩
          exact List.forall_mem_singleton.mpr ⟨_, Phrase.isCommand_ofCommands _, inner⟩
      | ifThenElse testLaid thenLaid thenFlat elseLaid elseFlat fetched =>
          rcases List.forall₂_cons.mp (occurs.parts of fetched) with ⟨test, others⟩
          rcases List.forall₂_cons.mp others with ⟨thenOccurs, others⟩
          have elseOccurs := (List.forall₂_cons.mp others).1
          refine ⟨_, _, [.pending id], .expression test (.cond fetched ?_ rest),
            .cons (.pending id) .nil, rule.unique (.agenda fetched rfl (by simp))⟩
          exact List.forall_mem_cons.mpr ⟨⟨_, Phrase.isCommand_ofCommands _, thenOccurs⟩,
            List.forall_mem_singleton.mpr ⟨_, Phrase.isCommand_ofCommands _, elseOccurs⟩⟩
      | block laid =>
          cases laid with
          | mk _ _ _ _ fetched => exact absurd ⟨_, _, fetched⟩ plain
      | print laid fetched =>
          have value := (List.forall₂_cons.mp (occurs.parts of fetched)).1
          exact ⟨_, _, [], .expression value (.print rest), .nil,
            rule.unique (.agenda fetched rfl (by simp))⟩
      | @call text exprs ids span callee _ laid named listed fetched =>
          have parts := occurs.parts of fetched
          rw [Phrase.parts, List.forall₂_map_left_iff] at parts
          refine ⟨_, _, [], ?_, .nil, rule.unique (.agenda fetched rfl (by simp))⟩
          rw [List.append_assoc]
          refine expressions ?_ ?_
          · intro actual member
            rcases exists_of_mem_right parts (List.mem_reverse.mp member) with ⟨expr, _, inside⟩
            exact ⟨expr, inside⟩
          · rw [List.length_reverse]
            exact .call occurs named rest

/-- The branch that a condition selects is a command, if there is one. -/
theorem branch {thenBranch : NodeId} {elseBranch : Option NodeId}
    (branches : ∀ branch ∈ thenBranch :: elseBranch.toList, ∃ phrase : Phrase,
      phrase.isCommand ∧ image.program.Occurs body scope phrase branch)
    (rest : Frame image body Base control slots scope) (condition : Bool) :
    Frame image body Base (Node.branch condition thenBranch elseBranch ++ control) slots scope := by
  rcases List.forall_mem_cons.mp branches with ⟨⟨_, isThen, thenOccurs⟩, elseBranches⟩
  cases condition with
  | true => exact .command thenOccurs isThen rest
  | false =>
      cases elseBranch with
      | none => exact rest
      | some elseBranch =>
          rcases List.forall_mem_singleton.mp elseBranches with ⟨_, isElse, elseOccurs⟩
          exact .command elseOccurs isElse rest

/-- A step that opens no scope leaves the rest of a frame, and the scope as it was;
unless the frame has come to its end. -/
theorem rule (of : image.IsOf body) {entry : Control} {work : List Control}
    (frame : Frame image body Base (entry :: work) slots scope)
    (plain : ¬entry.OpensScope image.code)
    (rule : Rule image entry before after) (scheduled : before.control = work)
    (stacked : before.values = upper ++ below)
    (filled : List.Forall₂ (Slot.Admits image.draft Good Made) slots upper)
    (visible : before.environment.Holds Good) (storables : ∀ value, Good (.storable value)) :
    Base (entry :: work) slots scope ∨
      after.Framed image body Base Good Made below scope ∧ before.SameScope after := by
  subst scheduled
  cases frame with
  | base reached => exact .inl reached
  | expression occurs rest =>
      rcases enter_expression of occurs rest rule visible storables with
        ⟨value, good, rfl⟩ | ⟨scheduled, rfl, frame⟩
      · exact .inr ⟨⟨_, _ :: upper, rest, congrArg _ stacked, .cons (.operand good) filled⟩,
          ⟨rfl, rfl, rfl, fun _ => Iff.rfl⟩⟩
      · exact .inr ⟨⟨_, upper, frame, stacked, filled⟩, ⟨rfl, rfl, rfl, fun _ => Iff.rfl⟩⟩
  | command occurs isCommand rest =>
      have entered := @enter_command image body Base Good Made _ _ before after of _ _ occurs
        isCommand plain rest rule
      rcases entered with ⟨scheduled, parked, added, frame, admits, rfl⟩
      refine .inr ⟨⟨_, parked ++ upper, frame, ?_, List.rel_append admits filled⟩,
        ⟨rfl, rfl, rfl, fun _ => Iff.rfl⟩⟩
      rw [List.append_assoc, ← stacked]
  | operator takes rest =>
      cases rule with
      | operator combines taken =>
          have counted := Option.some.inj (combines.operandCount?.symm.trans takes)
          rw [stacked, StackValue.map_storable] at taken
          rcases Slot.take filled (by simpa using counted) taken with ⟨left, rfl, others, _⟩
          exact .inr ⟨⟨_, _ :: left, rest, rfl, .cons (.operand (storables _)) others⟩,
            ⟨rfl, rfl, rfl, fun _ => Iff.rfl⟩⟩
      | _ => cases takes
  | assign occurs rest =>
      cases rule with
      | operator combines => cases combines
      | assign taken bound written =>
          rcases List.forall₂_cons_left_iff.mp filled with ⟨_, _, _, others, rfl⟩
          rcases List.forall₂_cons_left_iff.mp others with ⟨_, left, _, last, rfl⟩
          rcases List.cons.inj (stacked.symm.trans taken) with ⟨_, takenTarget⟩
          rcases List.cons.inj takenTarget with ⟨_, takenRest⟩
          exact .inr ⟨⟨_, left, rest, takenRest.symm, last⟩,
            ⟨rfl, rfl, rfl, Store.isLive_of_write written⟩⟩
  | cond fetched branches rest =>
      cases rule with
      | operator combines => cases combines
      | @cond _ _ _ thenBranch elseBranch _ condition taken fetchedSite =>
          rcases List.forall₂_cons_left_iff.mp filled with ⟨_, _, _, others, rfl⟩
          rcases List.forall₂_cons_left_iff.mp others with ⟨_, left, pending, last, rfl⟩
          rcases List.cons.inj (stacked.symm.trans taken) with ⟨_, takenPending⟩
          rcases List.cons.inj takenPending with ⟨rfl, takenRest⟩
          cases pending
          cases fetched.symm.trans fetchedSite
          refine .inr ⟨⟨_, left, ?_, takenRest.symm, last⟩, ⟨rfl, rfl, rfl, fun _ => Iff.rfl⟩⟩
          exact branch branches rest condition
  | loop fetched occurs repeats rest =>
      cases rule with
      | operator combines => cases combines
      | @loop _ _ _ _ _ condition taken fetchedSite =>
          rcases List.forall₂_cons_left_iff.mp filled with ⟨_, _, _, others, rfl⟩
          rcases List.forall₂_cons_left_iff.mp others with ⟨_, left, pending, last, rfl⟩
          rcases List.cons.inj (stacked.symm.trans taken) with ⟨_, takenPending⟩
          rcases List.cons.inj takenPending with ⟨rfl, takenRest⟩
          cases pending
          cases fetched.symm.trans fetchedSite
          refine .inr ⟨⟨_, left, ?_, takenRest.symm, last⟩, ⟨rfl, rfl, rfl, fun _ => Iff.rfl⟩⟩
          cases condition with
          | false => exact rest
          | true =>
              exact .command repeats (Phrase.isCommand_ofCommands _) (.command occurs rfl rest)
  | print rest =>
      cases rule with
      | operator combines => cases combines
      | print taken =>
          rcases List.forall₂_cons_left_iff.mp filled with ⟨_, left, _, others, rfl⟩
          rcases List.cons.inj (stacked.symm.trans taken) with ⟨_, taken⟩
          exact .inr ⟨⟨_, _, rest, taken.symm, others⟩, ⟨rfl, rfl, rfl, fun _ => Iff.rfl⟩⟩
  | call => exact absurd trivial plain

theorem not_opensScope_of_expression (of : image.IsOf body) {expr : Expr} {id : NodeId}
    (occurs : image.program.Occurs body scope (.expression expr) id) :
    ¬(Control.node id).OpensScope image.code := by
  cases occurs.lays of with
  | @binary lexeme op lhs rhs left right _ known lhsLaid rhsLaid fetched =>
      refine Control.not_opensScope_of_fetched fetched ?_
      intro declarations commands
      cases op <;> simp [Node.ofOperator]
  | ident _ fetched | num fetched | bool fetched | addressOf _ fetched | valueOf _ fetched
  | not _ fetched => exact Control.not_opensScope_of_fetched fetched (by simp)

/-- An entry that opens a scope is a command or a call. It takes its actuals and leaves
the rest of a frame for the end of the scope. -/
theorem opener (of : image.IsOf body) {entry : Control} {work : List Control}
    (frame : Frame image body Base (entry :: work) slots scope)
    (opener : entry.OpensScope image.code)
    {actuals : List Bindable} {kept : ValueStack} (counted : actuals.length = entry.actualCount)
    (taken : upper ++ below = actuals.map .bindable ++ kept)
    (filled : List.Forall₂ (Slot.Admits image.draft Good Made) slots upper) :
    Base (entry :: work) slots scope ∨
      ((∀ site, entry = .node site → ∃ phrase : Phrase, phrase.isCommand ∧
        image.program.Occurs body scope phrase site) ∧ ∀ actual ∈ actuals, Good actual) ∧
      ∃ slots left, Frame image body Base work slots scope ∧ kept = left ++ below ∧
        List.Forall₂ (Slot.Admits image.draft Good Made) slots left := by
  cases frame with
  | base reached => exact .inl reached
  | expression occurs rest => exact absurd opener (not_opensScope_of_expression of occurs)
  | command occurs isCommand rest =>
      cases List.length_eq_zero_iff.mp counted
      refine .inr ⟨⟨?_, by simp⟩, _, upper, rest, taken.symm, filled⟩
      rintro _ ⟨rfl⟩
      exact ⟨_, isCommand, occurs⟩
  | call occurs named rest =>
      rcases Slot.take filled counted taken with ⟨left, same, others, admitted⟩
      exact .inr ⟨⟨nofun, fun actual member => (admitted actual member).good⟩,
        _, left, rest, same, others⟩
  | operator takes rest => exact absurd opener (Opcode.not_opensScope_of_operandCount? takes)
  | assign | cond | loop | print => exact opener.elim

end Frame

end BlockMachine
