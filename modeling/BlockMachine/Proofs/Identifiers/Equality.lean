import BlockMachine.Proofs.Identifiers.Lockstep
import BlockMachine.Proofs.Identifiers.Translation
import BlockMachine.Proofs.Machine.Endings
import BlockMachine.Proofs.Machine.Faults

namespace BlockMachine

/-! # Identifiers matter by equality alone

A program and a renamed one, translated from whatever tables, run in lockstep: after each
step they are in the same state but for names, and they end in the same way. -/

section

variable (Same : Name → Name → Prop) (change : String → String)

/-- Failures after the same number of steps, equal but for the identifiers of the fault and
the names in the snapshot, if there is one. -/
structure Failure.Matches (failure other : Failure) : Prop where
  fault : other.fault = failure.fault.rename change
  step : other.step = failure.step
  snapshot : Option.Rel (Snapshot.Matches Same) failure.snapshot other.snapshot

/-- Whether two steps, or what came of them, are the same but for names. -/
inductive Progress.Matches : Progress → Progress → Prop where
  | halted : Matches .halted .halted
  | advanced : Matches .advanced .advanced
  | failed {failure other : Failure} (same : failure.Matches Same change other) :
      Matches (.failed failure) (.failed other)

/-- Whether two runs have come equally far: neither has ended, or both have ended, with the
same outcome or with failures that match. -/
inductive Machine.EndingsMatch :
    Option (Except Failure Outcome) → Option (Except Failure Outcome) → Prop where
  | running : EndingsMatch none none
  | halted (outcome : Outcome) : EndingsMatch (some (.ok outcome)) (some (.ok outcome))
  | failed {failure other : Failure} (same : failure.Matches Same change other) :
      EndingsMatch (some (.error failure)) (some (.error other))

/-- Machines with the same options, in states that match. -/
structure Machine.Matches (machine other : Machine) : Prop where
  image : machine.image.Matches Same change other.image
  options : other.options = machine.options
  state : machine.state.Matches Same other.state

end

variable {Same : Name → Name → Prop} {change : String → String}

theorem State.Matches.failureOf {state other : State} (same : state.Matches Same other)
    (options : Options) (fault : Fault) :
    (Machine.failureOf options state fault).Matches Same change
      (Machine.failureOf options other (fault.rename change)) where
  fault := rfl
  step := congrArg some same.steps
  snapshot := by
    simp only [Machine.failureOf]
    split
    · exact .some same.snapshot
    · exact .none

namespace Machine.Matches

variable {machine other : Machine} (unique : Relator.BiUnique Same)

theorem outcome_eq (same : machine.Matches Same change other) :
    other.outcome = machine.outcome := by
  have entries := same.state.values
  simp only [outcome, same.state.steps, Outcome.mk.injEq, and_true]
  generalize machine.state.values = values at entries
  generalize other.state.values = others at entries
  cases entries with
  | nil => rfl
  | cons top _ => cases top <;> rfl

include unique

/-- Machines that match halt together, advance together, or fail alike. -/
theorem step (same : machine.Matches Same change other) :
    machine.step.1.Matches Same change other.step.1 ∧
      machine.step.2.Matches Same change other.step.2 := by
  rcases machine with ⟨image, options, state⟩
  rcases other with ⟨otherImage, otherOptions, otherState⟩
  rcases same with ⟨images, sameOptions, states⟩
  simp only at images sameOptions states
  subst sameOptions
  have entries := states.control
  cases scheduled : state.control with
  | nil =>
      rw [scheduled] at entries
      rw [step_of_empty scheduled, step_of_empty (List.forall₂_nil_left_iff.mp entries)]
      exact ⟨.halted, images, rfl, states⟩
  | cons entry rest =>
      rw [scheduled] at entries
      rcases List.forall₂_cons_left_iff.mp entries with
        ⟨known, otherRest, head, below, otherScheduled⟩
      cases exceeded : otherOptions.exceeded? state.steps with
      | some limit =>
          simp only [Machine.step, scheduled, otherScheduled, states.steps, exceeded]
          exact ⟨.failed (states.failureOf _ _), images, rfl, states⟩
      | none =>
          have begun : (begin state rest).Matches Same (begin otherState otherRest) :=
            { states with control := below, steps := congrArg (· + 1) states.steps }
          have executed := Parallels.execute images unique head _ _ begun
          rw [step_of_scheduled image scheduled exceeded,
            step_of_scheduled otherImage otherScheduled (states.steps.symm ▸ exceeded)]
          generalize entry.execute image (begin state rest) = result at executed
          generalize known.execute otherImage (begin otherState otherRest) = otherResult
            at executed
          cases executed with
          | ok _ after => exact ⟨.advanced, images, rfl, after⟩
          | error after => exact ⟨.failed (after.failureOf _ _), images, rfl, after⟩

theorem runFor (same : machine.Matches Same change other) (fuel : Nat) :
    EndingsMatch Same change (machine.runFor fuel).1 (other.runFor fuel).1 ∧
      (machine.runFor fuel).2.Matches Same change (other.runFor fuel).2 := by
  induction fuel generalizing machine other with
  | zero => exact ⟨.running, same⟩
  | succ fuel induction =>
      have stepped := same.step unique
      simp only [Machine.runFor]
      generalize machine.step = made at stepped
      generalize other.step = otherMade at stepped
      rcases made with ⟨progress, after⟩
      rcases otherMade with ⟨otherProgress, otherAfter⟩
      rcases stepped with ⟨sameProgress, sameAfter⟩
      simp only at sameProgress sameAfter
      cases sameProgress with
      | halted =>
          simp only [sameAfter.outcome_eq]
          exact ⟨.halted _, sameAfter⟩
      | advanced => exact induction sameAfter
      | failed failures => exact ⟨.failed failures, sameAfter⟩

end Machine.Matches

/-- Machines that start with programs that match. -/
theorem Machine.matches_load {program renamed : Program} {names others : NameTable}
    (same : program.Matches (Name.Corresponds change names others) renamed) (options : Options)
    (printer : Printer) :
    (load ⟨program, names⟩ options printer).Matches (Name.Corresponds change names others) change
      (load ⟨renamed, others⟩ options printer) where
  image := ⟨same, fun _ _ => Name.Corresponds.text_eq⟩
  options := rfl
  state := by
    simp only [load, same.root]
    exact State.matches_start program.root printer

/-- The translations of a program and of a renamed one are both rejections, the same but for
identifiers; or both programs, with the same code under names that correspond one to one,
whose runs are in states that match after every step and end in the same way. -/
inductive BehaveAlike (change : String → String) :
    Except Rejection Program × NameTable → Except Rejection Program × NameTable → Prop where
  | accepted {program renamed : Program} {names others : NameTable}
      (unique : Relator.BiUnique (Name.Corresponds change names others))
      (programs : program.Matches (Name.Corresponds change names others) renamed)
      (runs : ∀ options printer fuel,
        let run := (Machine.load ⟨program, names⟩ options printer).runFor fuel
        let other := (Machine.load ⟨renamed, others⟩ options printer).runFor fuel
        Machine.EndingsMatch (Name.Corresponds change names others) change run.1 other.1 ∧
          run.2.Matches (Name.Corresponds change names others) change other.2) :
      BehaveAlike change (.ok program, names) (.ok renamed, others)
  | rejected {rejection : Rejection} {names others : NameTable} :
      BehaveAlike change (.error rejection, names)
        (.error (rejection.rename change), others)

/-- A program and a renamed one behave alike, whatever names the two tables had before, and
whatever the identifiers are changed to, as long as different ones stay different. -/
theorem behave_alike_renamed (injective : Function.Injective change)
    (names others : NameTable) (body : List Command) :
    BehaveAlike change (translate names body)
      (translate others (Command.renameAll change body)) := by
  -- Translation starts with no names that have to go on corresponding.
  have nothing : Subrelation (fun _ _ => False) (Name.Corresponds change names others) :=
    fun impossible => impossible.elim
  have tracked := Build.tracks_program injective body ⟨names, .empty⟩ ⟨others, .empty⟩
    Code.Matches.empty nothing
  simp only [translate]
  generalize Build.program body ⟨names, .empty⟩ = result at tracked
  generalize Build.program (Command.renameAll change body) ⟨others, .empty⟩ = other at tracked
  cases tracked with
  | error => exact .rejected
  | @ok root otherRoot draft otherDraft drafts _ roots =>
      have unique := Name.biUnique_corresponds injective draft.names otherDraft.names
      have programs : Program.Matches (Name.Corresponds change draft.names otherDraft.names)
        ⟨draft.code, root⟩ ⟨otherDraft.code, otherRoot⟩ := ⟨drafts, roots.symm⟩
      -- A run adds no names, so the same ones correspond all along.
      exact .accepted unique programs fun options printer fuel =>
        (Machine.matches_load programs options printer).runFor unique fuel

/-- A block that declares a variable and prints another one. -/
def misspelling : List Command :=
  [.block (.mk [.var "count" (.bool true)] [.print (.ident "count"), .print (.ident "cuont")])]

/-- In a table with earlier names the renamed program is numbered differently, and fails where
the other one does, with its own text. -/
theorem behave_alike_renamed_misspelling :
    let underscored := fun text : String => text ++ "_"
    let earlier := (NameTable.initial.intern "cuont_").2
    let start := Machine.load ⟨.ofBody misspelling, (translate .initial misspelling).2⟩
      .unbounded .silent
    Function.Injective underscored ∧
      ∃ renamed table final otherFinal,
        translate earlier (Command.renameAll underscored misspelling) = (.ok renamed, table) ∧
        start.Ends (.error (.undefinedVariable "cuont")) final ∧
        (Machine.load ⟨renamed, table⟩ .unbounded .silent).Ends
          (.error (.undefinedVariable "cuont_")) otherFinal := by
  intro underscored earlier start
  have injective : Function.Injective underscored :=
    fun _ _ same => (String.append_left_inj "_").mp same
  have accepted := @translate_eq_ok misspelling (by decide +kernel)
  have reaches : start.Reaches (start.runFor 12).2 := Machine.reaches_runFor (by decide +kernel)
  rcases Machine.exists_failed_of_fault? (show (start.runFor 12).2.step.1.fault? =
    some (.undefinedVariable "cuont") by decide +kernel) with ⟨failure, final, failed, fault⟩
  have ends : start.Ends (.error (.undefinedVariable "cuont")) final :=
    reaches.fails ⟨failure, failed, fault⟩
  rcases ends.exists_runFor with ⟨fuel, failure | outcome, ran, raised⟩
  case ok => cases raised
  have matched := behave_alike_renamed injective .initial earlier misspelling
  rw [← Prod.eta (translate .initial misspelling), accepted] at matched
  rcases translated : translate earlier (Command.renameAll underscored misspelling) with
    ⟨result, table⟩
  rw [translated] at matched
  cases matched with
  | @accepted _ renamed _ _ _ _ runs =>
      let other := Machine.load ⟨renamed, table⟩ .unbounded .silent
      have endings := (runs .unbounded .silent fuel).1
      rcases ranOther : other.runFor fuel with ⟨ending, otherFinal⟩
      simp only [start, other] at ran ranOther
      simp only [ran, ranOther] at endings
      cases endings with
      | @failed _ otherFailure same =>
          have renamedFault : otherFailure.fault = .undefinedVariable "cuont_" := by
            rw [same.fault, ← Except.error.inj raised]
            rfl
          exact ⟨injective, renamed, table, final, otherFinal, rfl, ends,
            renamedFault ▸ .failed ranOther⟩

end BlockMachine
