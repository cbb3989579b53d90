import BlockMachine.Proofs.Machine.Persistence
import BlockMachine.Proofs.Output.Display
import Mathlib.Data.List.Forall2

namespace BlockMachine

/-! # What a run prints

Only a `PRINT` prints, and only if it succeeds. It takes one value off the stack and prints
one line, so the lines of a buffer are the values that the run has printed. -/

theorem Rule.printer {image : Image} {entry : Control} {before after : State}
    (rule : Rule image entry before after) (other : entry ≠ .op .print) :
    after.printer = before.printer := by
  cases rule with
  | print taken => exact absurd rfl other
  | _ => rfl

namespace Machine

/-- Whether the next step is a `PRINT` that succeeds. -/
def printsNext (machine : Machine) : Bool :=
  match machine.step.1, machine.state.control with
  | .advanced, .op .print :: _ => true
  | _, _ => false

/-- The machines, among those that have made less than `calls` calls for a step, that go on
with a successful `PRINT`. -/
def printSteps (machine : Machine) (calls : Nat) : List Machine :=
  ((List.range calls).map machine.afterCalls).filter printsNext

/-- Whether the next step takes a value off the stack. -/
def Takes (machine : Machine) (value : Bindable) : Prop :=
  machine.state.values = .bindable value :: machine.step.2.state.values

variable {machine : Machine}

theorem printsNext_iff :
    machine.printsNext ↔
      machine.Advances machine.step.2 ∧ ∃ rest, machine.state.control = .op .print :: rest := by
  have advances : machine.Advances machine.step.2 ↔ machine.step.1 = .advanced :=
    ⟨congrArg Prod.fst, fun ended => Prod.ext ended rfl⟩
  rw [printsNext, advances]
  split
  next ended scheduled => simp [ended, scheduled]
  next none =>
    refine iff_of_false (by simp) ?_
    rintro ⟨ended, rest, scheduled⟩
    exact none rest ended scheduled

/-- A successful `PRINT` prints the value that it takes off the stack. -/
theorem exists_takes_of_printsNext (prints : machine.printsNext) :
    ∃ value, machine.Takes value ∧
      machine.step.2.state.printer = machine.state.printer.println value.text := by
  rcases printsNext_iff.mp prints with ⟨advances, rest, scheduled⟩
  rcases advances.rule with ⟨entry, below, same, rule⟩
  cases scheduled.symm.trans same
  unfold Takes
  generalize machine.step.2.state = after at rule ⊢
  cases rule with
  | operator combines taken => cases combines
  | print taken => exact ⟨_, taken, rfl⟩

/-- No other step prints, whether it succeeds or not. -/
theorem printer_of_not_printsNext (silent : ¬machine.printsNext) :
    machine.step.2.state.printer = machine.state.printer := by
  by_cases ended : machine.step.1 = .advanced
  · have advances : machine.Advances machine.step.2 := Prod.ext ended rfl
    rcases advances.rule with ⟨entry, rest, scheduled, rule⟩
    refine rule.printer fun print => silent (printsNext_iff.mpr ⟨advances, rest, ?_⟩)
    rw [scheduled, print]
  · exact (store_and_printer_of_not_advanced ended).2

theorem printSteps_succ (machine : Machine) (calls : Nat) :
    machine.printSteps (calls + 1) =
      machine.printSteps calls ++ [machine.afterCalls calls].filter printsNext := by
  rw [printSteps, List.range_succ, List.map_append, List.filter_append]
  rfl

/-- However a machine is used, it has printed the values that its successful `PRINT` steps
took off the stack, in order. -/
theorem exists_values_printed (machine : Machine) (calls : Nat) :
    ∃ values : List Bindable, List.Forall₂ Takes (machine.printSteps calls) values ∧
      (machine.afterCalls calls).state.printer =
        machine.state.printer.performAll ((values.map Bindable.text).map .println) := by
  induction calls with
  | zero => exact ⟨[], .nil, rfl⟩
  | succ calls induction =>
      rcases induction with ⟨values, taken, printed⟩
      rw [printSteps_succ, afterCalls_succ]
      by_cases prints : (machine.afterCalls calls).printsNext
      · rcases exists_takes_of_printsNext prints with ⟨value, takes, moved⟩
        refine ⟨values ++ [value], ?_, ?_⟩
        · rw [List.filter_cons_of_pos prints]
          exact List.rel_append taken (.cons takes .nil)
        · rw [moved, printed, List.map_append, List.map_append, List.map_singleton,
            List.map_singleton, Printer.performAll_concat, Printer.perform]
      · refine ⟨values, ?_, ?_⟩
        · rw [List.filter_cons_of_neg prints, List.filter_nil, List.append_nil]
          exact taken
        · rw [printer_of_not_printsNext prints, printed]

/-- What was captured is read back as the lines that were printed. A buffer holds the lines
printed since it was cleared last, with a line feed after each. It gives back these lines if
none of them has a line feed or ends in a carriage return, and in general the pieces between
line feeds, each without the carriage return that may end it. So after a run that was given
an empty buffer, also after one that failed, there is one line for each `PRINT` that
succeeded, in the order of the steps: the text of the value that the step took off the
stack. -/
theorem captured_lines_decode (calls : List Printer.Call) (image : Image) (options : Options) :
    (let capture := (Printer.buffer "").performAll calls
     let printed := Printer.printed calls
     capture.output = String.join (printed.map (· ++ "\n")) ∧
     ((∀ line ∈ printed, '\n' ∉ line.toList ∧ line.toList.getLast? ≠ some '\r') →
       capture.lines = printed) ∧
     capture.lines = printed.flatMap Text.pieces) ∧
    let start := load image options (.buffer "")
    (∀ count, List.Forall₂ (fun before line => ∃ value, before.Takes value ∧ line = value.text)
      (start.printSteps count) (start.afterCalls count).state.printer.lines) ∧
    ∀ fuel, ∃ count, start.afterCalls count = (start.runFor fuel).2 := by
  refine ⟨⟨Printer.output_performAll calls, Printer.lines_performAll_of_isLine,
    Printer.lines_performAll calls⟩, ?run, exists_afterCalls_eq_runFor _⟩
  case run =>
    intro count
    rcases exists_values_printed (load image options (.buffer "")) count with
      ⟨values, taken, printed⟩
    have areLines : ∀ line ∈ values.map Bindable.text, Text.IsLine line :=
      List.forall_mem_map.mpr fun value _ => value.isUnbroken_text.isLine
    have texts := Printer.printed_map_println (values.map Bindable.text)
    rw [← texts] at areLines
    have lines := (Printer.lines_performAll_of_isLine areLines).trans texts
    rw [printed, load, State.start, lines, List.forall₂_map_right_iff]
    exact taken.imp fun before value takes => ⟨value, takes, rfl⟩

end Machine

end BlockMachine
