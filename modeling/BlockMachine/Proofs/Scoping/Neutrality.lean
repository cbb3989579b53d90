import BlockMachine.Proofs.Machine.Endings
import BlockMachine.Proofs.Machine.Strides
import BlockMachine.Proofs.Scoping.Frames

namespace BlockMachine

/-! # Neutral commands

A command of a translated program leaves what it has found: whatever it calls and
however often it repeats, only the contents of cells, the output and the counters of
cells and steps show that it has run. -/

/-- Whether two states have the same values on their stacks and the same scope. -/
structure State.Neutral (before after : State) : Prop extends before.SameScope after where
  values : after.values = before.values

/-! ## Frames down to the entries below a command -/

/-- Where the frame of a command ends that was entered over `rest`. -/
def Finished (rest : List Control) (control : List Control) (slots : List Slot)
    (_scope : List String) : Prop :=
  control = rest ∧ slots = []

namespace Frame

variable {image : Image} {body : List Command} {rest control : List Control} {slots : List Slot}
  {scope : List String}

theorem length_le (frame : Frame image body (Finished rest) control slots scope) :
    rest.length ≤ control.length := by
  induction frame with
  | base finished => exact Nat.le_of_eq (congrArg List.length finished.1.symm)
  | _ => exact Nat.le_succ_of_le ‹_›

theorem not_finished {entry : Control} {front : List Control} :
    ¬Finished rest (entry :: (front ++ rest)) slots scope := by
  intro finished
  have lengths := congrArg List.length finished.1
  simp at lengths
  omega

/-- Nothing is awaited once the command is finished. -/
theorem slots_eq_nil (frame : Frame image body (Finished rest) rest slots scope) : slots = [] := by
  cases frame with
  | base finished => exact finished.2
  | _ => exact absurd (length_le ‹_›) (Nat.not_succ_le_self _)

end Frame

namespace Machine

variable {image : Image} {body : List Command} {scope : List String} {phrase : Phrase} {id : NodeId}
  {rest : List Control} {start before after machine outer inner closed : Machine}

/-- Whether all that is left of a command entered at `start` lies above `rest`, in the
scope that was open there. -/
structure IsLevel (image : Image) (body : List Command) (scope : List String)
    (rest : List Control) (start machine : Machine) : Prop where
  runs : machine.image = image
  framed : machine.state.Framed image body (Finished rest) (fun _ => True) (fun _ _ _ => True)
    start.state.values scope
  same : start.state.SameScope machine.state

/-- A whole scope is level where its opening is. -/
theorem IsLevel.after_scope (level : IsLevel image body scope rest start outer)
    (of : image.IsOf body) (balanced : outer.Balanced) (owns : outer.state.Owns) {entry : Control}
    {front : List Control} (scheduled : outer.state.control = entry :: (front ++ rest))
    (encloses : Encloses (front ++ rest) outer inner) (closes : inner.Advances closed) :
    IsLevel image body scope rest start closed := by
  rcases level.framed with ⟨slots, upper, frame, stacked, filled⟩
  rcases encloses.restores scheduled closes with
    ⟨⟨actuals, counted, taken⟩, environment, region, closures⟩
  rcases encloses.closed_eq closes balanced owns with ⟨control, live⟩
  rcases encloses.opener with ⟨opening, scheduledOpening, opener⟩
  rcases List.cons.inj (scheduled.symm.trans scheduledOpening) with ⟨rfl, _⟩
  rw [scheduled] at frame
  rw [level.runs] at opener
  rcases frame.opener of opener counted (stacked.symm.trans taken) filled with
    finished | ⟨_, slots, left, frame, kept, filled⟩
  · exact absurd finished Frame.not_finished
  refine ⟨(Reaches.image_eq (encloses.reaches.tail closes)).trans level.runs,
    ⟨slots, left, ?_, kept, filled⟩, level.same.trans ⟨environment, region, closures, live⟩⟩
  rw [control]
  exact frame

theorem Strides.isLevel (strides : Strides rest before after) (of : image.IsOf body)
    (balanced : before.Balanced) (owns : before.state.Owns)
    (level : IsLevel image body scope rest start before) :
    IsLevel image body scope rest start after := by
  cases strides with
  | scope scheduled encloses closes =>
      exact level.after_scope of balanced owns scheduled encloses closes
  | step advances scheduled plain =>
      rcases level.framed with ⟨slots, upper, frame, stacked, filled⟩
      rcases advances.rule with ⟨entry, left, scheduledTop, rule⟩
      rcases List.cons.inj (scheduledTop.symm.trans scheduled) with ⟨rfl, rfl⟩
      rw [scheduled] at frame
      rw [level.runs] at rule plain
      rcases frame.rule of plain rule rfl stacked filled (fun _ _ => trivial)
        (fun _ => trivial) with finished | ⟨framed, same⟩
      · exact absurd finished Frame.not_finished
      have kept : before.state.SameScope after.state :=
        ⟨same.environment, same.region, same.closures, same.live⟩
      exact ⟨advances.image_eq.trans level.runs, framed, level.same.trans kept⟩

/-- A command that is entered is level after any number of strides. -/
theorem isLevel_of_strides (runs : start.image = image) (of : image.IsOf body)
    (balanced : start.Balanced) (owns : start.state.Owns)
    (occurs : image.program.Occurs body scope phrase id) (isCommand : phrase.isCommand)
    (scheduled : start.state.control = .node id :: rest)
    (strides : Relation.ReflTransGen (Strides rest) start machine) :
    IsLevel image body scope rest start machine := by
  have reached : start.Reaches machine ∧ IsLevel image body scope rest start machine := by
    induction strides with
    | refl =>
        refine ⟨.refl, runs, ⟨[], [], ?_, rfl, .nil⟩, .refl _⟩
        rw [scheduled]
        exact .command occurs isCommand (.base ⟨rfl, rfl⟩)
    | tail _ last induction =>
        rcases induction with ⟨reaches, level⟩
        exact ⟨reaches.trans last.reaches,
          last.isLevel of (reaches.balanced balanced) (reaches.owns owns) level⟩
  exact reached.2

theorem IsLevel.neutral (level : IsLevel image body scope rest start machine)
    (finished : machine.state.control = rest) : start.state.Neutral machine.state := by
  rcases level.framed with ⟨slots, upper, frame, stacked, filled⟩
  rw [finished] at frame
  cases frame.slots_eq_nil
  cases filled
  exact ⟨level.same, stacked⟩

/-- A command that is to be entered once more finds what it has found at first. -/
theorem IsLevel.neutral_of_again (level : IsLevel image body scope rest start machine)
    (of : image.IsOf body) (occurs : image.program.Occurs body scope phrase id)
    (isCommand : phrase.isCommand) (again : machine.state.control = .node id :: rest) :
    start.state.Neutral machine.state := by
  rcases level.framed with ⟨slots, upper, frame, stacked, filled⟩
  rw [again] at frame
  cases frame with
  | base finished =>
      have above : ¬Finished rest (.node id :: ([] ++ rest)) slots scope := Frame.not_finished
      exact absurd finished above
  | expression other =>
      cases (occurs.unique of other).2
      cases isCommand
  | command _ _ frame =>
      cases frame.slots_eq_nil
      cases filled
      exact ⟨level.same, stacked⟩

/-- In every run of a translated program, a command that comes to its end has changed
no stack, no environment, no region and no table, and cells are live that were; so it
is with a loop each time it is entered again, and nothing is left in the end. -/
theorem commands_neutral {names : NameTable} {body : List Command} {program : Program}
    {options : Options} {printer : Printer}
    (accepted : (translate names body).1 = .ok program) :
    let start := load ⟨program, (translate names body).2⟩ options printer
    (∀ scope phrase id rest before after, program.Occurs body scope phrase id →
      phrase.isCommand → start.Reaches before → before.state.control = .node id :: rest →
      Relation.ReflTransGen (AdvancesOver rest) before after → after.state.control = rest →
      before.state.Neutral after.state) ∧
    (∀ scope test commands id rest before again,
      program.Occurs body scope (.command (.loop test commands)) id →
      start.Reaches before → before.state.control = .node id :: rest →
      Relation.ReflTransGen (AdvancesOver rest) before again →
      again.state.control = .node id :: rest → before.state.Neutral again.state) ∧
    ∀ fuel outcome final, start.runFor fuel = (some (.ok outcome), final) →
      outcome.result = none ∧ final.state.values = [] ∧ final.state.environment = .empty ∧
      final.state.store.live = [] ∧ final.state.region = .empty ∧
      final.state.closures = .empty := by
  intro start
  have of := isOf_of_translate accepted
  have level {scope phrase id rest before machine} (reaches : start.Reaches before)
      (occurs : program.Occurs body scope phrase id) (isCommand : phrase.isCommand)
      (scheduled : before.state.control = .node id :: rest)
      (strides : Relation.ReflTransGen (Strides rest) before machine) :
      IsLevel start.image body scope rest before machine :=
    isLevel_of_strides reaches.image_eq of (reaches.balanced rfl)
      (reaches.owns (State.owns_start _ _)) occurs isCommand scheduled strides
  refine ⟨?_, ?_, ?_⟩
  · intro scope phrase id rest before after occurs isCommand reaches scheduled run finished
    have strides := strides_of_finished run finished
    exact (level reaches occurs isCommand scheduled strides).neutral finished
  · intro scope test commands id rest before again occurs reaches scheduled run entered
    have strides := strides_of_again run entered
    exact (level reaches occurs rfl scheduled strides).neutral_of_again of occurs rfl entered
  · intro fuel outcome final ran
    rcases reaches_of_halted ran with ⟨reaches, finished, rfl⟩
    have strides := strides_of_finished (reachesOver_nil reaches) finished
    have ended := level .refl .whole (Phrase.isCommand_ofCommands body) rfl strides
    have left := ended.neutral finished
    have values : final.state.values = [] := left.values
    have dead : final.state.store.live = [] := by
      refine List.eq_nil_iff_forall_not_mem.mpr ?_
      rintro ⟨address, value⟩ member
      have live : final.state.store.isLive address := by
        simp [Store.isLive, Store.mem_live_iff.mp member]
      have started := (left.live address).mp live
      simp [start, load, State.start, Store.isLive, Store.get?, Store.empty] at started
    refine ⟨?_, values, left.environment, dead, left.region, left.closures⟩
    simp [outcome, values]

/-- A block with a loop that ends once a function has set the loop's variable. -/
def draining : List Command :=
  [.block (.mk [.var "more" (.bool true)]
    [.block (.mk [.function (.mk "set" ["value"] (.mk [] [.assign "more" (.ident "value")]))]
      [.loop (.ident "more") [.call "set" [.bool false]]])])]

/-- The call within the loop leaves all but the variable as the loop has found it. -/
theorem commands_neutral_draining :
    let start := load ⟨.ofBody draining, (translate .initial draining).2⟩ .unbounded .silent
    let before := (start.runFor 12).2
    let again := (start.runFor 26).2
    let after := (start.runFor 29).2
    let final := (start.runFor 31).2
    (translate .initial draining).1 = .ok (.ofBody draining) ∧
      start.Reaches before ∧ before.state.control = .node ⟨12⟩ :: after.state.control ∧
      Relation.ReflTransGen (AdvancesOver after.state.control) before again ∧
      Relation.ReflTransGen (AdvancesOver after.state.control) again after ∧
      before.state.Neutral again.state ∧ before.state.Neutral after.state ∧
      ∃ fuel outcome, start.runFor fuel = (some (.ok outcome), final) ∧
        final.state.store.live = [] := by
  intro start before again after final
  have accepted := @translate_eq_ok draining (by decide +kernel)
  have reaches : start.Reaches before := reaches_runFor (by decide +kernel)
  have rest : after.state.control = [.op .blockCommands, .op .blockCommands] := by decide +kernel
  have steps : ∀ made < 29, 12 ≤ made → (start.runFor (made + 1)).1 = none ∧
      (start.runFor made).2.state.control ≠ [] ∧
      [.op .blockCommands, .op .blockCommands] <:+ (start.runFor made).2.state.control.tail := by
    decide +kernel
  have step (made : Nat) (below : made < 29) (atLeast : 12 ≤ made) :
      AdvancesOver after.state.control (start.runFor made).2 (start.runFor (made + 1)).2 := by
    rcases steps made below atLeast with ⟨unfinished, notEmpty, front, tail⟩
    rcases List.exists_cons_of_ne_nil notEmpty with ⟨entry, left, control⟩
    rw [control, List.tail_cons] at tail
    exact ⟨advances_runFor unfinished, entry, front, by rw [control, rest, tail]⟩
  have overAgain : Relation.ReflTransGen (AdvancesOver after.state.control) before again :=
    reflTransGen_runFor (by decide) fun made below => step made (by omega)
  have overAfter : Relation.ReflTransGen (AdvancesOver after.state.control) again after :=
    reflTransGen_runFor (by decide) fun made below atLeast => step made below (by omega)
  have inner : (Program.ofBody draining).Occurs draining ["more"] _ ⟨13⟩ :=
    Program.Occurs.whole.part_at 1 rfl (by decide +kernel)
  have occurs : (Program.ofBody draining).Occurs draining ["set", "more"]
      (.command (.loop (.ident "more") [.call "set" [.bool false]])) ⟨12⟩ :=
    inner.part_at 1 rfl (by decide +kernel)
  have scheduled : before.state.control = .node ⟨12⟩ :: after.state.control := by decide +kernel
  rcases commands_neutral accepted with ⟨neutral, neutralAgain, emptied⟩
  have reachesFinal : start.Reaches final := reaches_runFor (by decide +kernel)
  rcases reachesFinal.halts (by decide +kernel) with ⟨ran⟩
  refine ⟨accepted, reaches, scheduled, overAgain, overAfter, ?_, ?_, _, _, ran, ?_⟩
  · exact neutralAgain _ _ _ _ _ _ _ occurs reaches scheduled overAgain (by decide +kernel)
  · exact neutral _ _ _ _ _ _ occurs rfl reaches scheduled (overAgain.trans overAfter) rfl
  · exact (emptied _ _ _ ran).2.2.2.1

end Machine

end BlockMachine
