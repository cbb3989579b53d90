import BlockMachine.Proofs.Correctness.Commands

namespace BlockMachine

/-! # Programs

Translation followed by the machine does what evaluation does: a translated
program ends as the surface program does, and goes on for ever if that does. -/

theorem World.agrees_empty (root : NodeId) (printer : Printer) :
    World.empty.Agrees printer (.start root printer) where
  cells := by
    intro address
    simp [State.start, Store.get?, Store.empty, World.empty]
  next := rfl
  printer := rfl

theorem Draft.agreesOn_empty (draft : Draft) (table : ClosureTable) :
    draft.AgreesOn table [] .empty := by
  intro text name named
  rw [Environment.lookup_empty]
  exact .unbound

/-- Whether nothing is left of a program but what it printed. -/
structure State.IsSpent (state : State) : Prop where
  control : state.control = []
  values : state.values = []
  environment : state.environment = .empty
  region : state.region = .empty
  closures : state.closures = .empty
  store : ∀ address, state.store.get? address = none

theorem Evaluation.diverges_or_ends (body : List Command) :
    Evaluation.Diverges body ∨ ∃ ending world, Evaluation.Ends body ending world := by
  by_cases ends : ∃ ending world, Evaluation.Ends body ending world
  · exact .inr ends
  · left
    intro fuel
    cases evaluated : Evaluation.program fuel body with
    | ok value world => exact absurd ⟨_, _, .halted evaluated⟩ ends
    | error reason world =>
        cases reason with
        | outOfFuel => exact ⟨world, rfl⟩
        | fault fault => exact absurd ⟨_, _, .failed evaluated⟩ ends

namespace Setting

variable {setting : Setting} {body : List Command} {root : NodeId} {ids : List NodeId}

theorem Restores.isSpent {world : World} {state : State}
    (restores : setting.Restores (.start root setting.printer) [] World.empty world state) :
    state.IsSpent where
  control := restores.control
  values := restores.values
  environment := restores.environment
  region := restores.region
  closures := restores.closures
  store := fun address => restores.gone address (Nat.zero_le _)

theorem follows_program (laid : setting.draft.LaysCommands body ids)
    (flat : setting.image.code.Flattens root ids) (fuel : Nat) :
    setting.Follows fuel (.start root setting.printer)
      (fun _ => setting.Restores (.start root setting.printer) [] World.empty)
      (Evaluation.program fuel body) :=
  follows_body (setting.runs_commands fuel) laid flat (setting.draft.agreesOn_empty _)
    (World.agrees_empty root setting.printer)

theorem exists_final (laid : setting.draft.LaysCommands body ids)
    (flat : setting.image.code.Flattens root ids) {ending : Except Fault Unit} {world : World}
    (ends : Evaluation.Ends body ending world) :
    ∃ final, (setting.machine (.start root setting.printer)).Ends ending final ∧
      world.Agrees setting.printer final.state ∧ (ending = .ok () → final.state.IsSpent) := by
  cases ends with
  | @halted fuel _ evaluated =>
      have follows := setting.follows_program laid flat fuel
      rw [evaluated] at follows
      rcases follows with ⟨final, reaches, restores⟩
      exact ⟨_, reaches.halts restores.control, restores.agrees, fun _ => restores.isSpent⟩
  | @failed fuel fault _ evaluated =>
      have follows := setting.follows_program laid flat fuel
      rw [evaluated] at follows
      rcases follows with ⟨last, final, reaches, fails, agrees⟩
      exact ⟨_, reaches.fails fails, agrees, by simp⟩

/-- Where an evaluation runs out of fuel the machine makes as many steps. -/
theorem runFor_eq_none_of_outOfFuel (laid : setting.draft.LaysCommands body ids)
    (flat : setting.image.code.Flattens root ids) {fuel : Nat} {world : World}
    (evaluated : Evaluation.program fuel body = .error .outOfFuel world) :
    ((setting.machine (.start root setting.printer)).runFor fuel).1 = none := by
  have follows := setting.follows_program laid flat fuel
  rw [evaluated] at follows
  rcases follows with ⟨last, reaches, enough⟩
  exact reaches.runFor_eq_none enough

theorem diverges_of_evaluation (laid : setting.draft.LaysCommands body ids)
    (flat : setting.image.code.Flattens root ids) (diverges : Evaluation.Diverges body) :
    (setting.machine (.start root setting.printer)).Diverges := by
  intro fuel
  rcases diverges fuel with ⟨world, evaluated⟩
  exact setting.runFor_eq_none_of_outOfFuel laid flat evaluated

/-- If the machine ends, the evaluation does too, as a machine comes to one end only. -/
theorem exists_evaluation (laid : setting.draft.LaysCommands body ids)
    (flat : setting.image.code.Flattens root ids) {ending : Except Fault Unit} {final : Machine}
    (ended : (setting.machine (.start root setting.printer)).Ends ending final) :
    ∃ world, Evaluation.Ends body ending world ∧ world.Agrees setting.printer final.state ∧
      (ending = .ok () → final.state.IsSpent) := by
  rcases Evaluation.diverges_or_ends body with forever | ⟨expected, world, ends⟩
  · exact absurd (diverges_of_evaluation laid flat forever) ended.not_diverges
  · rcases setting.exists_final laid flat ends with ⟨other, endedOther, left⟩
    rcases ended.unique endedOther with ⟨rfl, rfl⟩
    exact ⟨world, ends, left⟩

end Setting

namespace Machine

/-- Whether a machine ends as a program does when it is evaluated: with the same
fault or none, with the cells of that world, and with its lines printed. If it
halts, it has cleaned up. -/
structure Realizes (start : Machine) (body : List Command) : Prop where
  complete : ∀ ending world, Evaluation.Ends body ending world →
    ∃ final, start.Ends ending final ∧ world.Agrees start.state.printer final.state
  sound : ∀ ending final, start.Ends ending final →
    ∃ world, Evaluation.Ends body ending world ∧ world.Agrees start.state.printer final.state
  diverges : start.Diverges ↔ Evaluation.Diverges body
  spent : ∀ final, start.Ends (.ok ()) final → final.state.IsSpent

end Machine

/-- A translated program does on a machine without a step budget what the surface
program is evaluated to. -/
theorem realizes_of_translate {names : NameTable} {body : List Command} {program : Program}
    {options : Options} (printer : Printer) (accepted : (translate names body).1 = .ok program)
    (unlimited : options.maxSteps = none) :
    (Machine.load ⟨program, (translate names body).2⟩ options printer).Realizes body := by
  let setting : Setting := ⟨⟨program, (translate names body).2⟩, options, printer, unlimited⟩
  rcases exists_laid_of_translate accepted with ⟨ids, laid, flat⟩
  have laid : setting.draft.LaysCommands body ids := laid
  constructor
  case complete =>
    intro ending world ends
    rcases setting.exists_final laid flat ends with ⟨machine, ended, agrees, _⟩
    exact ⟨machine, ended, agrees⟩
  case sound =>
    intro ending machine ended
    rcases setting.exists_evaluation laid flat ended with ⟨world, ends, agrees, _⟩
    exact ⟨world, ends, agrees⟩
  case diverges =>
    refine ⟨?_, setting.diverges_of_evaluation laid flat⟩
    intro forever
    rcases Evaluation.diverges_or_ends body with evaluates | ⟨ending, world, ends⟩
    · exact evaluates
    · rcases setting.exists_final laid flat ends with ⟨machine, ended, _⟩
      exact absurd forever ended.not_diverges
  case spent =>
    intro machine ended
    rcases setting.exists_evaluation laid flat ended with ⟨_, _, _, spent⟩
    exact spent rfl

/-- A function that takes an amount from the cell whose address it is given, called until
nothing is left in the cell. -/
def clearing : List Command :=
  [.block (.mk
    [.var "left" (.num 2),
      .function (.mk "take" ["cell", "amount"] (.mk []
        [.assign "cell" (.binary "-" (.ident "cell") (.ident "amount"))]))]
    [.loop (.binary ">" (.ident "left") (.num 0))
        [.print (.ident "left"), .call "take" [.addressOf "left", .num 1]],
      .print (.ident "left")])]

theorem realizes_of_translate_clearing : ∃ program,
    (translate .initial clearing).1 = .ok program ∧ ∃ final,
      (Machine.load ⟨program, (translate .initial clearing).2⟩ .unbounded (.buffer "")).Ends
        (.ok ()) final ∧
      final.state.printer = .buffer "2\n1\n0\n" ∧ final.state.store.get? ⟨0⟩ = none := by
  have accepted : (translate .initial clearing).1.isOk := by decide +kernel
  cases translated : (translate .initial clearing).1 with
  | error rejection => simp [translated, Except.isOk, Except.toBool] at accepted
  | ok program =>
      have realizes := realizes_of_translate (.buffer "") translated
        (show Options.unbounded.maxSteps = none from rfl)
      have ends : Evaluation.Ends clearing (.ok ()) _ := @Evaluation.Ends.halted _ 7 _ rfl
      rcases realizes.complete _ _ ends with ⟨final, ended, agrees⟩
      exact ⟨program, rfl, final, ended, agrees.printer, agrees.cells ⟨0⟩⟩

end BlockMachine
