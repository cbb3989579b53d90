import BlockMachine.Proofs.Translation.Naming

namespace BlockMachine

/-! # Acceptance

Translation accepts just the well-shaped programs, whatever names are in use before. A
program that is not well shaped is rejected for the violation that comes first in the
order of reading. -/

namespace Build

/-- Whether an outcome is a rejection for the first of some violations, or there are
none and the result is as it should be. -/
def Reports (violations : List Rejection) (Result : α → Prop) :
    EStateM.Result Rejection Draft α → Prop
  | .ok value _ => violations = [] ∧ Result value
  | .error rejection _ => violations.head? = some rejection

/-- Whether an action reports the first of some violations, from any draft on. -/
def Checks (violations : List Rejection) (Result : α → Prop) (action : Build α) : Prop :=
  ∀ draft, Reports violations Result (action draft)

theorem FollowsFrom.reports {findings : List Finding} {names : NameTable} {Result : α → Prop}
    {outcome : EStateM.Result Rejection Draft α}
    (follows : FollowsFrom findings names Result outcome) :
    Reports (Finding.violations findings) Result outcome := by
  cases outcome with
  | ok value after =>
      rcases follows with ⟨holds, texts, rfl, _⟩
      exact ⟨Finding.violations_map_identifier texts, holds⟩
  | error rejection after =>
      rcases follows with ⟨texts, unread, rfl, _⟩
      simp [Reports]

theorem checks_program (body : List Command) :
    Checks (Command.allViolations body) (fun _ => True) (program body) := by
  rw [← violations_commands]
  exact fun draft => (reads_program body draft).reports

end Build

/-- Translation accepts just the well-shaped programs. Any other one it rejects for the
first of the violations in it, which are those of its phrases in the order of reading. -/
theorem accepts_just_wellShaped (names : NameTable) (body : List Command) :
    ((∃ program, (translate names body).1 = .ok program) ↔ WellShaped body) ∧
    (∀ rejection, (translate names body).1 = .error rejection ↔
      (Command.allViolations body).head? = some rejection) ∧
    ∀ rejection, rejection ∈ Command.allViolations body ↔
      ∃ scope phrase, Contains body scope phrase ∧ rejection ∈ phrase.violations := by
  have reports := Build.checks_program body ⟨names, .empty⟩
  refine ⟨?_, ?_, fun rejection => mem_allViolations_iff⟩
  · rw [wellShaped_iff, translate]
    cases built : Build.program body ⟨names, .empty⟩ with
    | ok root draft =>
        rw [built] at reports
        simp [reports.1]
    | error rejection draft =>
        rw [built] at reports
        have reports : (Command.allViolations body).head? = some rejection := reports
        have violated : Command.allViolations body ≠ [] := fun none => by simp [none] at reports
        simp [violated]
  · intro rejection
    rw [translate]
    cases built : Build.program body ⟨names, .empty⟩ with
    | ok root draft =>
        rw [built] at reports
        simp [reports.1]
    | error found draft =>
        rw [built] at reports
        have reports : (Command.allViolations body).head? = some found := reports
        simp [reports]

end BlockMachine
