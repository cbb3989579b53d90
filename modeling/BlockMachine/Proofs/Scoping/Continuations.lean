import BlockMachine.Proofs.Scoping.Closures
import BlockMachine.Proofs.Scoping.Frames

namespace BlockMachine

/-! # Continuations

The frames of all open scopes, one over the other down to the end of the program.
Between them stand the declarations of blocks and the ends of scopes, which collect,
add and restore what is bound. In every reached state the environment binds just the
identifiers that are visible to what is done next. -/

/-- The work that is left below a frame and the slots that it takes. `scope` are the
identifiers visible to it. -/
inductive Fits (image : Image) (body : List Command) :
    List Control → List Slot → List String → Prop where
  | halted : Fits image body [] [] []
  | declares (occurs : image.program.Occurs body scope phrase site)
      (declared : phrase.declared? = some names)
      (together : ∀ text, text ∈ all ↔ text ∈ names ∨ text ∈ known)
      (rest : Fits image body work (.declarations all :: slots) scope) :
      Fits image body (.node site :: work) (.declarations known :: slots) scope
  | cell (occurs : image.program.Occurs body scope (.cell initial) site)
      (rest : Fits image body work (.operand :: slots) scope) :
      Fits image body (.node site :: work) slots scope
  | ref (rest : Fits image body work (.operand :: slots) scope) :
      Fits image body (.op .ref :: work) (.operand :: slots) scope
  | function (occurs : image.program.Occurs body scope (.function [] declared) site)
      (rest : Fits image body work (.operand :: slots) scope) :
      Fits image body (.node site :: work) slots scope
  | member (occurs : image.program.Occurs body scope (.function group declared) site)
      (rest : Fits image body work (.member group scope :: slots) scope) :
      Fits image body (.node site :: work) slots scope
  | bind (together : ∀ other, other ∈ all ↔ other = text ∨ other ∈ known)
      (rest : Fits image body work (.declarations all :: slots) scope) :
      Fits image body (.op .bind :: work)
        (.operand :: .target text :: .declarations known :: slots) scope
  | recBind (fetched : image.code.node? site = some (.recBind span))
      (named : List.Forall₂ (fun function binding => image.draft.Names function.name binding.1)
        group (image.code.group span))
      (together : ∀ text, text ∈ all ↔ text ∈ group.map Function.name ∨ text ∈ known)
      (rest : Fits image body work (.declarations all :: slots) scope) :
      Fits image body (.op (.recBind site) :: work)
        (List.replicate group.length (.member group scope) ++ .declarations known :: slots) scope
  | blockDeclarations (occurs : image.program.Occurs body (names ++ scope) phrase commands)
      (isCommand : phrase.isCommand) (rest : Frame image body (Fits image body) work slots scope) :
      Fits image body (.op .blockDeclarations :: .node commands :: .op .blockCommands :: work)
        (.declarations names :: .mark :: .region :: .environment scope :: slots) scope
  | blockCommands (rest : Frame image body (Fits image body) work slots outer) :
      Fits image body (.op .blockCommands :: work)
        (.mark :: .region :: .environment outer :: slots) scope

namespace State

/-- Whether just the identifiers of a scope are bound, and all closures are sound. -/
structure Sees (image : Image) (body : List Command) (scope : List String) (state : State) :
    Prop where
  binds : image.draft.BindsJust scope state.environment
  visible : state.environment.Holds (image.Sound body state.closures)
  tables : image.SoundTable body state.closures

theorem Sees.frame {image : Image} {body : List Command} {scope : List String}
    {before after : State} (sees : before.Sees image body scope)
    (environment : after.environment = before.environment)
    (closures : after.closures = before.closures) : after.Sees image body scope where
  binds := environment ▸ sees.binds
  visible := by
    rw [environment, closures]
    exact sees.visible
  tables := closures ▸ sees.tables

/-- Whether entries of a value stack fill slots, with references to closure tables. -/
def Fills (image : Image) (body : List Command) (table : ClosureTable) :
    List Slot → ValueStack → Prop :=
  List.Forall₂ (Slot.Admits image.draft (image.Sound body table) (image.Makes body table))

/-- Whether a state sees just the scope that its continuation is to be run in. -/
structure Scoped (image : Image) (body : List Command) (scope : List String) (state : State) :
    Prop extends state.Sees image body scope where
  continues : ∃ slots, Frame image body (Fits image body) state.control slots scope ∧
    Fills image body state.closures slots state.values

end State

/-! ## Tables that change -/

section

variable {image : Image} {body : List Command} {before after : ClosureTable}

theorem Slot.Admits.keep (keeps : before.Keeps after) {slot : Slot} {entry : StackValue}
    (covers : entry.Holds after.mark.Covers)
    (admits : slot.Admits image.draft (image.Sound body before) (image.Makes body before) entry) :
    slot.Admits image.draft (image.Sound body after) (image.Makes body after) entry := by
  cases admits with
  | operand good => exact .operand (good.keep keeps covers)
  | target named => exact .target named
  | pending site => exact .pending site
  | member made => exact .member (made.keep keeps covers)
  | declarations binds holds => exact .declarations binds (Image.holds_keep keeps covers holds)
  | mark saved => exact .mark saved
  | region saved => exact .region saved
  | environment binds holds => exact .environment binds (Image.holds_keep keeps covers holds)

theorem State.Fills.keep (keeps : before.Keeps after) {slots : List Slot} {values : ValueStack}
    (covers : ∀ entry ∈ values, entry.Holds after.mark.Covers)
    (fills : State.Fills image body before slots values) :
    State.Fills image body after slots values := by
  induction fills with
  | nil => exact .nil
  | cons admits _ induction =>
      rcases List.forall_mem_cons.mp covers with ⟨coversHead, coversRest⟩
      exact .cons (admits.keep keeps coversHead) (induction coversRest)

/-- Only which identifiers have been declared matters. -/
theorem State.Fills.congr {known all : List String} {slots : List Slot} {values : ValueStack}
    (same : ∀ text, text ∈ known ↔ text ∈ all)
    (fills : State.Fills image body before (.declarations known :: slots) values) :
    State.Fills image body before (.declarations all :: slots) values := by
  rcases List.forall₂_cons_left_iff.mp fills with ⟨top, left, admits, others, rfl⟩
  cases admits with
  | declarations binds holds => exact .cons (.declarations (binds.congr same) holds) others

end

namespace Fits

variable {image : Image} {body : List Command} {scope names all known : List String}
  {phrase : Phrase} {id : NodeId} {control work : List Control} {slots : List Slot}
  {before after : State}

/-- Functions that are declared one after another fill as many slots. -/
theorem members {group : List Function} {ids : List NodeId}
    (occur : ∀ id ∈ ids, ∃ declared, image.program.Occurs body scope (.function group declared) id)
    (rest : Fits image body work (List.replicate ids.length (.member group scope) ++ slots) scope) :
    Fits image body (ids.map .node ++ work) slots scope := by
  induction ids generalizing slots with
  | nil => exact rest
  | cons id ids induction =>
      rcases occur id List.mem_cons_self with ⟨declared, occurs⟩
      refine .member occurs (induction (fun other member =>
        occur other (List.mem_cons_of_mem id member)) ?_)
      rw [List.length_cons, List.replicate_succ', List.append_assoc] at rest
      exact rest

/-- Entering declarations parks their names and schedules what is bound to them. -/
theorem enter_declares (of : image.IsOf body) {Good : Bindable → Prop}
    {Made : List Function → List String → ClosureRef → Prop}
    (occurs : image.program.Occurs body scope phrase id) (declared : phrase.declared? = some names)
    (together : ∀ text, text ∈ all ↔ text ∈ names ∨ text ∈ known)
    (rest : Fits image body before.control (.declarations all :: slots) scope)
    (rule : Rule image (.node id) before after) :
    ∃ scheduled parked added now, (∀ text, text ∈ known ↔ text ∈ now) ∧
      Frame image body (Fits image body) (scheduled ++ before.control)
        (added ++ .declarations now :: slots) scope ∧
      List.Forall₂ (Slot.Admits image.draft Good Made) added parked ∧
      after = { before with
        values := parked ++ before.values
        control := scheduled ++ before.control } := by
  cases phrase with
  | expression | cell | function | command | commands => cases declared
  | declarations parts =>
      cases declared
      rcases occurs.lays of with ⟨several, ids, laid, flat⟩
      rcases Draft.split_of_flattens laid flat with ⟨rfl, fetched⟩ | ⟨_, rfl, _⟩ | split
      · refine ⟨[], [], [], all, ?_, .base rest, .nil, rule.unique (.agenda fetched rfl (by simp))⟩
        simpa using fun text => (together text).symm
      · exact absurd rfl several
      · rcases split with ⟨front, last, first, second, _, rfl, _, fetched, _⟩
        have parts := occurs.parts of fetched
        rw [Phrase.parts, Phrase.splitLast_concat] at parts
        rcases List.forall₂_cons.mp parts with ⟨firstOccurs, others⟩
        have secondOccurs := (List.forall₂_cons.mp others).1
        refine ⟨[.node first, .node second], [], [], known, fun _ => Iff.rfl, .base ?_, .nil,
          rule.unique (.agenda fetched rfl (by simp))⟩
        refine .declares firstOccurs (Phrase.declared?_ofDeclarations front)
          (fun text => List.mem_append) (.declares secondOccurs rfl ?_ rest)
        intro text
        rw [together, List.flatMap_append, List.mem_append, List.mem_append]
        simp [or_assoc, or_left_comm]
  | declaration current =>
      cases declared
      cases occurs.lays of with
      | var laid allocates named fetched =>
          have cell := (List.forall₂_cons.mp (occurs.parts of fetched)).1
          exact ⟨_, _, [.target _], known, fun _ => Iff.rfl,
            .base (.cell cell (.bind (by simpa [Declaration.names] using together) rest)),
            .cons (.target named) .nil, rule.unique (.agenda fetched rfl (by simp))⟩
      | const laid named fetched =>
          have value := (List.forall₂_cons.mp (occurs.parts of fetched)).1
          exact ⟨_, _, [.target _], known, fun _ => Iff.rfl,
            .expression value (.base (.bind (by simpa [Declaration.names] using together) rest)),
            .cons (.target named) .nil, rule.unique (.agenda fetched rfl (by simp))⟩
      | function laid fetched =>
          have inner := (List.forall₂_cons.mp (occurs.parts of fetched)).1
          cases laid with
          | mk _ _ _ _ named =>
              exact ⟨_, _, [.target _], known, fun _ => Iff.rfl,
                .base (.function inner (.bind
                  (by simpa [Declaration.names, Function.name] using together) rest)),
                .cons (.target named) .nil, rule.unique (.agenda fetched rfl (by simp))⟩
      | @recursive group bindings span _ laid listed fetched =>
          have entered := rule.enterNode_eq_ok fetched
          simp only [Action.enterNode, Action.bind_eq_ok_iff,
            Action.requireFunctions_eq_ok_iff] at entered
          rcases entered with ⟨_, _, ⟨functions, rfl⟩, _⟩
          have named : List.Forall₂ (fun function binding =>
              image.draft.Names function.name binding.1) group (image.code.group span) := by
            rw [show image.code.group span = bindings from listed]
            refine laid.forall₂.imp fun function binding laid => ?_
            cases laid with
            | mk _ _ _ _ named => exact named
          have parts := occurs.parts of fetched
          rw [Phrase.parts, List.forall₂_map_left_iff, Node.children] at parts
          have inside : ∀ id ∈ ((image.code.group span).map Prod.snd).reverse,
              ∃ declared, image.program.Occurs body scope (.function group declared) id := by
            intro id member
            rcases exists_of_mem_right parts (List.mem_reverse.mp member) with ⟨declared, _, inside⟩
            exact ⟨declared, inside⟩
          refine ⟨_, _, [], known, fun _ => Iff.rfl, .base ?_, .nil,
            rule.unique (.agenda fetched rfl ?_)⟩
          · rw [List.append_assoc]
            refine members inside ?_
            rw [List.length_reverse, ← parts.length_eq]
            exact .recBind fetched named together rest
          · rintro _ ⟨rfl⟩
            exact functions

/-- Entering a function makes a sound closure of it and captures the scope. -/
theorem abstraction (of : image.IsOf body) {group : List Function} {declared : Function}
    (occurs : image.program.Occurs body scope (.function group declared) id)
    (rule : Rule image (.node id) before after) (sees : before.Sees image body scope)
    (fills : State.Fills image body before.closures slots before.values)
    (covered : after.Covered) :
    ∃ reference values, image.Makes body after.closures group scope (.plain reference) ∧
      after.control = before.control ∧ after.values = .closure (.plain reference) :: values ∧
      after.Sees image body scope ∧ State.Fills image body after.closures slots values := by
  rcases occurs.lays of with ⟨name, laid⟩
  cases laid with
  | @mk _ _ _ _ span bodyId _ _ _ _ _ fetched =>
      have grows := ClosureTable.grows_insert before.closures ⟨span, bodyId, before.environment⟩
      have same := rule.unique (.abstraction fetched)
      subst same
      rcases Image.exists_closes of occurs fetched sees.binds with ⟨formals, closes⟩
      have visible := Image.holds_keep grows.keeps covered.environment sees.visible
      refine ⟨_, before.values,
        .plain (by rw [ClosureTable.closure?_insert]; exact if_pos rfl) closes, rfl, rfl,
        ⟨sees.binds, visible, sees.tables.insert rfl covered visible⟩, ?_⟩
      exact fills.keep grows.keeps fun entry member =>
        covered.values entry (List.mem_cons_of_mem _ member)

/-- Declaring a group adds its functions to the declarations of the block. -/
theorem declare_group {group : List Function} {span : Span Binding}
    (fetched : image.code.node? id = some (.recBind span))
    (named : List.Forall₂ (fun function binding => image.draft.Names function.name binding.1)
      group (image.code.group span))
    (rule : Rule image (.op (.recBind id)) before after) (sees : before.Sees image body scope)
    (fills : State.Fills image body before.closures
      (List.replicate group.length (.member group scope) ++ .declarations known :: slots)
      before.values) (covered : after.Covered) :
    after.control = before.control ∧ after.Sees image body scope ∧
      State.Fills image body after.closures
        (.declarations (group.map Function.name ++ known) :: slots) after.values := by
  cases rule with
  | operator combines => cases combines
  | @recBind _ _ _ _ references _ fetchedRule counted taken =>
      cases fetched.symm.trans fetchedRule
      have asMany : (references.map Bindable.closure).length = group.length := by
        rw [List.length_map, counted, named.length_eq]
      rw [StackValue.map_closure, ← List.append_nil before.values] at taken
      rcases Slot.take fills asMany taken with ⟨left, stacked, others, admitted⟩
      rw [List.append_nil] at stacked
      subst stacked
      have made (reference : ClosureRef) (member : reference ∈ references) :
          image.Makes body before.closures group scope reference :=
        (admitted (.closure reference) (List.mem_map_of_mem member)).made
      rcases Image.sound_addGroup named counted made with ⟨listed, sound⟩
      have grows := ClosureTable.grows_addGroup before.closures
        (Binding.members (image.code.group span) references)
      have visible := Image.holds_keep grows.keeps covered.environment sees.visible
      refine ⟨rfl, ⟨sees.binds, visible, sees.tables.addGroup rfl covered sound⟩, ?_⟩
      rcases List.forall₂_cons.mp others with ⟨admits, others⟩
      cases admits with
      | declarations binds holds =>
          refine .cons (.declarations (binds.bindAll (Image.forall₂_memberBindings listed)) ?_)
            (State.Fills.keep grows.keeps (fun entry member =>
              covered.values entry (List.mem_cons_of_mem _ member)) others)
          refine Environment.Holds.bindAll (holds.imp fun _ => Image.Sound.grow grows) ?_
          intro entry member
          rcases List.mem_map.mp member with ⟨listedMember, isMember, rfl⟩
          exact sound listedMember isMember

/-- A step of a continuation leaves one that sees its scope. -/
theorem rule (of : image.IsOf body) {entry : Control}
    (fits : Fits image body (entry :: before.control) slots scope)
    (rule : Rule image entry before after) (sees : before.Sees image body scope)
    (fills : State.Fills image body before.closures slots before.values)
    (covered : after.Covered) : ∃ inner, after.Scoped image body inner := by
  generalize working : entry :: before.control = control at fits
  cases fits with
  | halted => cases working
  | declares occurs declared together rest =>
      cases working
      rcases List.forall₂_cons_left_iff.mp fills with ⟨top, left, admits, others, stacked⟩
      cases admits with
      | declarations binds holds =>
          rcases enter_declares of occurs declared together rest rule with
            ⟨scheduled, parked, added, now, same, frame, parks, rfl⟩
          refine ⟨scope, sees.frame rfl rfl, _, frame, ?_⟩
          rw [stacked]
          exact List.rel_append parks (.cons (.declarations (binds.congr same) holds) others)
  | cell occurs rest =>
      cases working
      rcases occurs.lays of with ⟨value, laid, fetched⟩
      have inner := (List.forall₂_cons.mp (occurs.parts of fetched)).1
      have same := rule.unique (.agenda fetched rfl (by simp))
      subst same
      exact ⟨scope, sees.frame rfl rfl, _,
        .expression inner (.base (.ref rest)), fills⟩
  | ref rest =>
      cases working
      cases rule with
      | operator combines => cases combines
      | ref taken =>
          rw [taken] at fills
          exact ⟨scope, sees.frame rfl rfl, _, .base rest,
            .cons (.operand (.storable _)) (List.forall₂_cons.mp fills).2⟩
  | function occurs rest =>
      cases working
      rcases abstraction of occurs rule sees fills covered with
        ⟨reference, values, makes, control, stack, seen, filled⟩
      refine ⟨scope, seen, _, .base (control ▸ rest), ?_⟩
      rw [stack]
      cases makes with
      | plain found closes => exact .cons (.operand (.closure found closes .alone)) filled
  | member occurs rest =>
      cases working
      rcases abstraction of occurs rule sees fills covered with
        ⟨reference, values, makes, control, stack, seen, filled⟩
      refine ⟨scope, seen, _, .base (control ▸ rest), ?_⟩
      rw [stack]
      exact .cons (.member makes) filled
  | bind together rest =>
      cases working
      cases rule with
      | operator combines => cases combines
      | bind taken =>
          rw [taken] at fills
          rcases List.forall₂_cons.mp fills with ⟨value, fills⟩
          rcases List.forall₂_cons.mp fills with ⟨target, fills⟩
          rcases List.forall₂_cons.mp fills with ⟨declared, others⟩
          cases target with
          | target named =>
              cases declared with
              | declarations binds holds =>
                  refine ⟨scope, sees.frame rfl rfl, _, .base rest,
                    .cons (.declarations ((binds.bind named _).congr ?_) ?_) others⟩
                  · simpa using fun other => (together other).symm
                  · exact holds.bind _ value.good
  | recBind fetched named together rest =>
      cases working
      rcases declare_group fetched named rule sees fills covered with ⟨control, seen, filled⟩
      refine ⟨scope, seen, _, .base (control ▸ rest), filled.congr ?_⟩
      intro text
      rw [together, List.mem_append]
  | blockDeclarations occurs isCommand rest =>
      rcases List.cons.inj working with ⟨rfl, scheduled⟩
      cases rule with
      | operator combines => cases combines
      | blockDeclarations taken =>
          rw [taken] at fills
          rcases List.forall₂_cons.mp fills with ⟨declared, others⟩
          cases declared with
          | declarations binds holds =>
              refine ⟨_, ⟨sees.binds.extend binds, sees.visible.extend holds, sees.tables⟩, _, ?_,
                others⟩
              rw [scheduled]
              exact .command occurs isCommand (.base (.blockCommands rest))
  | blockCommands rest =>
      cases working
      cases rule with
      | operator combines => cases combines
      | blockCommands taken =>
          rw [taken] at fills
          rcases List.forall₂_cons.mp fills with ⟨_, fills⟩
          rcases List.forall₂_cons.mp fills with ⟨_, fills⟩
          rcases List.forall₂_cons.mp fills with ⟨saved, others⟩
          cases saved with
          | environment binds holds =>
              have keeps := ClosureTable.keeps_truncate
              have visible := Image.holds_keep (keeps _ _) covered.environment holds
              exact ⟨_, ⟨binds, visible, sees.tables.truncate rfl covered⟩, _, rest,
                State.Fills.keep (keeps _ _) covered.values others⟩

end Fits

/-! ## Steps and runs -/

namespace Frame

variable {image : Image} {body : List Command} {scope : List String}

/-- The declarations and commands of a block see what they should. -/
theorem exists_parts_of_block (of : image.IsOf body) {phrase : Phrase} {id : NodeId}
    (occurs : image.program.Occurs body scope phrase id) (isCommand : phrase.isCommand)
    {declarations commands : NodeId}
    (fetched : image.code.node? id = some (.block declarations commands)) :
    ∃ parts inner, image.program.Occurs body scope (.ofDeclarations parts) declarations ∧
      image.program.Occurs body (parts.flatMap Declaration.names ++ scope) (.ofCommands inner)
        commands := by
  have parts := occurs.parts of fetched
  cases phrase with
  | expression | cell | function | declaration | declarations => cases isCommand
  | commands several =>
      rcases occurs.lays of with ⟨several, ids, laid, flat⟩
      rcases Draft.split_of_flattens laid flat with ⟨rfl, other⟩ | ⟨_, rfl, _⟩ | split
      · cases fetched.symm.trans other
      · exact absurd rfl several
      · rcases split with ⟨_, _, _, _, _, _, _, other, _⟩
        cases fetched.symm.trans other
  | command current =>
      cases occurs.lays of with
      | block laid =>
          cases laid with
          | mk _ _ _ _ other =>
              cases fetched.symm.trans other
              rcases List.forall₂_cons.mp parts with ⟨first, others⟩
              exact ⟨_, _, first, (List.forall₂_cons.mp others).1⟩
      | nop other | assign _ _ other | loop _ _ _ other | ifThen _ _ _ other
      | ifThenElse _ _ _ _ _ other | print _ other | call _ _ _ other =>
          cases fetched.symm.trans other

end Frame

namespace State

variable {image : Image} {body : List Command} {scope : List String} {before after : State}

/-- The opening of a block sees the scope of its declarations. -/
theorem Sees.enter_block (sees : before.Sees image body scope) (of : image.IsOf body)
    {id declarations commands : NodeId} {slots : List Slot}
    (frame : Frame image body (Fits image body) (.node id :: before.control) slots scope)
    (fetched : image.code.node? id = some (.block declarations commands))
    (rule : Rule image (.node id) before after)
    (fills : Fills image body before.closures slots before.values) :
    Fits image body (.node id :: before.control) slots scope ∨
      after.Scoped image body scope := by
  have same := rule.unique (.block fetched)
  subst same
  have counted : ([] : List Bindable).length = (Control.node id).actualCount := rfl
  have taken : before.values ++ [] = ([] : List Bindable).map .bindable ++ before.values :=
    List.append_nil before.values
  rcases frame.opener of ⟨_, _, fetched⟩ counted taken fills with
    fits | ⟨⟨occurs, _⟩, slots, left, frame, kept, filled⟩
  · exact .inl fits
  · rcases occurs id rfl with ⟨phrase, isCommand, occurs⟩
    rcases Frame.exists_parts_of_block of occurs isCommand fetched with
      ⟨parts, inner, declared, commanded⟩
    have rest := Fits.blockDeclarations commanded (Phrase.isCommand_ofCommands inner) frame
    have together (text : String) : text ∈ parts.flatMap Declaration.names ↔
        text ∈ parts.flatMap Declaration.names ∨ text ∈ ([] : List String) := by simp
    refine .inr ⟨sees.frame rfl rfl, _,
      .base (.declares declared (Phrase.declared?_ofDeclarations parts) together rest), ?_⟩
    rw [kept, List.append_nil]
    exact .cons (.declarations .empty Environment.holds_empty) (.cons (.mark _)
      (.cons (.region _) (.cons (.environment sees.binds sees.visible) filled)))

/-- The opening of a call sees the scope of the callee's body. -/
theorem Sees.enter_call (sees : before.Sees image body scope) (of : image.IsOf body)
    {callee : Name} {count : Nat} {slots : List Slot}
    (frame : Frame image body (Fits image body) (.op (.call callee count) :: before.control) slots
      scope)
    (rule : Rule image (.op (.call callee count)) before after)
    (fills : Fills image body before.closures slots before.values) :
    Fits image body (.op (.call callee count) :: before.control) slots scope ∨
      ∃ inner, after.Scoped image body inner := by
  cases rule with
  | operator combines => cases combines
  | call bound found arity matched taken entered =>
      rcases frame.opener of trivial (matched.trans arity) ((List.append_nil _).trans taken) fills
        with fits | ⟨⟨_, good⟩, slots, left, frame, kept, filled⟩
      · exact .inl fits
      · rcases (sees.visible.lookup bound).home sees.tables found entered with
          ⟨group, formals, outer, closes, binds, visible⟩
        rcases closes.occurs with ⟨inner, occurs⟩
        have names := List.map_fst_zip (Nat.le_of_eq matched.symm)
        rw [List.append_nil] at kept
        subst kept
        refine .inr ⟨_,
          ⟨binds.bindAll (names.symm ▸ closes.named), visible.bindAll ?_, sees.tables⟩, _,
          .command (List.append_assoc _ _ _ ▸ occurs) rfl (.base (.blockCommands frame)),
          .cons (.mark _) (.cons (.region _) (.cons (.environment sees.binds sees.visible) filled))⟩
        exact fun entry member => good entry.2 (List.of_mem_zip member).2

/-- What a frame's step leaves sees its scope, be it the same one or another. -/
theorem Sees.rule (sees : before.Sees image body scope) (of : image.IsOf body) {entry : Control}
    {slots : List Slot}
    (frame : Frame image body (Fits image body) (entry :: before.control) slots scope)
    (rule : Rule image entry before after)
    (fills : Fills image body before.closures slots before.values) (covered : after.Covered) :
    ∃ inner, after.Scoped image body inner := by
  have stepped : Fits image body (entry :: before.control) slots scope ∨
      ∃ inner, after.Scoped image body inner := by
    by_cases opener : entry.OpensScope image.code
    · cases entry with
      | node id =>
          rcases opener with ⟨_, _, fetched⟩
          exact (sees.enter_block of frame fetched rule fills).imp_right fun seen => ⟨scope, seen⟩
      | op opcode =>
          cases opcode with
          | call => exact sees.enter_call of frame rule fills
          | _ => exact opener.elim
    · rcases frame.rule of opener rule rfl (List.append_nil _).symm fills sees.visible .storable
        with fits | ⟨⟨slots, upper, frame, stacked, filled⟩, same⟩
      · exact .inl fits
      · rw [List.append_nil] at stacked
        refine .inr ⟨scope, sees.frame same.environment same.closures, slots, frame, ?_⟩
        rw [same.closures, stacked]
        exact filled
  rcases stepped with fits | seen
  · exact fits.rule of rule sees fills covered
  · exact seen

theorem scoped_start (printer : Printer) :
    (start image.program.root printer).Scoped image body [] where
  binds := .empty
  visible := Environment.holds_empty
  tables := by
    constructor
    · intro id closure found
      cases found
    · intro id members found
      cases found
  continues := ⟨[], .command .whole (Phrase.isCommand_ofCommands body) (.base .halted), .nil⟩

end State

namespace Machine

theorem Reaches.exists_scope {image : Image} {body : List Command} {options : Options}
    {printer : Printer} {machine : Machine} (of : image.IsOf body)
    (reaches : (load image options printer).Reaches machine) :
    ∃ scope, machine.state.Scoped image body scope := by
  induction reaches with
  | refl => exact ⟨[], State.scoped_start printer⟩
  | @tail before after reaches last induction =>
      rcases induction with ⟨scope, seen⟩
      rcases seen.continues with ⟨slots, frame, fills⟩
      rcases last.rule with ⟨entry, rest, scheduled, rule⟩
      have same : before.image = image := Reaches.image_eq reaches
      have settled := Reaches.settled_covers (reaches.tail last) (State.owns_start _ _)
        (State.settled_start _ _)
      rw [scheduled] at frame
      rw [same] at rule
      have begun : (begin before.state rest).Sees image body scope := seen.toSees.frame rfl rfl
      exact begun.rule of frame rule fills settled.2.covered

end Machine

end BlockMachine
