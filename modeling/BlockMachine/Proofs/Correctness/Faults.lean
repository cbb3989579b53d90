import BlockMachine.Proofs.Correctness.Program
import BlockMachine.Proofs.Machine.Budget
import BlockMachine.Proofs.Surface.Faults
import BlockMachine.Proofs.Translation.Occurrences

namespace BlockMachine

/-! # Faults of translated programs

A translated program fails with the faults of its surface program, or because its
step budget is used up. The machine never finds its own stacks, tables or code other
than it needs them. -/

theorem Image.IsOf.knowsOperators {image : Image} {body : List Command} (of : image.IsOf body) :
    KnowsOperators body := by
  intro scope lexeme lhs rhs contains
  rcases Program.Occurs.exists_of_contains of contains with ⟨id, occurs⟩
  cases occurs.lays of with
  | binary known => exact ⟨_, known⟩

namespace Machine

/-- Whatever its budget, a translated program fails with a fault of its surface
program. -/
theorem fault_ofProgram {names : NameTable} {body : List Command} {program : Program}
    {options : Options} {printer : Printer} {machine after : Machine} {failure : Failure}
    (accepted : (translate names body).1 = .ok program)
    (reaches : (load ⟨program, (translate names body).2⟩ options printer).Reaches machine)
    (failed : machine.step = (.failed failure, after)) : failure.fault.OfProgram body := by
  rcases fails_unlimited failed with ⟨limit, exceeded⟩ | fails
  · rw [exceeded]
    exact .stepBudgetExceeded limit
  · let setting : Setting :=
      ⟨⟨program, (translate names body).2⟩, { options with maxSteps := none }, printer, rfl⟩
    rcases exists_laid_of_translate accepted with ⟨ids, laid, flat⟩
    have laid : setting.draft.LaysCommands body ids := laid
    have ended : (setting.machine (.start program.root printer)).Ends (.error failure.fault) _ :=
      reaches.unlimited.fails fails
    rcases setting.exists_evaluation laid flat ended with ⟨world, ends, _⟩
    exact ends.ofProgram (isOf_of_translate accepted).knowsOperators

/-- A block that assigns a function to a variable. -/
def storingFunction : List Command :=
  [.block (.mk [.var "cell" (.num 0), .function (.mk "keep" [] (.mk [] []))]
    [.assign "cell" (.ident "keep")])]

/-- A function cannot be stored in a cell. -/
theorem fault_ofProgram_storingFunction :
    let start := load ⟨.ofBody storingFunction, (translate .initial storingFunction).2⟩
      .unbounded .silent
    let machine := (start.runFor 13).2
    (translate .initial storingFunction).1 = .ok (.ofBody storingFunction) ∧
      start.Reaches machine ∧ ∃ failure after, machine.step = (.failed failure, after) ∧
        failure.fault = .expectedValue "storable value" "closure" ∧
        failure.fault.OfProgram storingFunction := by
  intro start machine
  have accepted := @translate_eq_ok storingFunction (by decide +kernel)
  have reaches : start.Reaches machine := reaches_runFor (by decide +kernel)
  rcases exists_failed_of_fault? (show machine.step.1.fault? =
    some (.expectedValue "storable value" "closure") by decide +kernel) with
    ⟨failure, after, failed, fault⟩
  exact ⟨accepted, reaches, failure, after, failed, fault,
    fault_ofProgram accepted reaches failed⟩

end Machine

end BlockMachine
