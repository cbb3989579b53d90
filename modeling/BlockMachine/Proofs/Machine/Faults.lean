import BlockMachine.Proofs.Machine.Reachability

namespace BlockMachine

/-! # Faults

Which faults an action can raise in a given state, told from what it is made of. A
step that fails has used up its budget or has carried out an entry that raised a
fault. -/

namespace Action

theorem bind_eq_error_iff {action : Action α} {next : α → Action β} {before after : State}
    {fault : Fault} :
    (action >>= next) before = .error fault after ↔
      action before = .error fault after ∨
        ∃ value middle, action before = .ok value middle ∧
          next value middle = .error fault after := by
  simp only [bind, EStateM.bind]
  cases action before <;> simp [and_assoc]

/-- Whether an action that fails in a state does so with one of the allowed
faults. -/
def RaisesOnly (Allowed : Fault → Prop) (action : Action α) (before : State) : Prop :=
  ∀ fault after, action before = .error fault after → Allowed fault

namespace RaisesOnly

variable {Allowed : Fault → Prop} {image : Image} {before : State}

theorem bind {action : Action α} {next : α → Action β} (first : RaisesOnly Allowed action before)
    (second : ∀ value middle, action before = .ok value middle →
      RaisesOnly Allowed (next value) middle) : RaisesOnly Allowed (action >>= next) before := by
  intro fault after failed
  rcases bind_eq_error_iff.mp failed with raised | ⟨value, middle, succeeded, raised⟩
  · exact first fault after raised
  · exact second value middle succeeded fault after raised

theorem of_ok {action : Action α} {value : α} {after : State}
    (succeeded : action before = .ok value after) : RaisesOnly Allowed action before := by
  intro fault last failed
  cases succeeded.symm.trans failed

theorem fail {fault : Fault} (allowed : Allowed fault) :
    RaisesOnly Allowed (fail fault : Action α) before := by
  intro _ after failed
  cases failed
  exact allowed

/-- A pop fails on an empty stack, or on a top entry of another kind. -/
theorem popAs {expected : String} {view : StackValue → Option α}
    (empty : before.values = [] → Allowed (.emptyValueStack expected))
    (other : ∀ top rest, before.values = top :: rest → view top = none →
      Allowed (.expectedValue expected top.typeName)) :
    RaisesOnly Allowed (onValues (ValueStack.popAs expected view)) before := by
  intro fault after failed
  simp only [onValues] at failed
  cases stack : before.values with
  | nil =>
      simp only [stack, ValueStack.popAs, EStateM.Result.error.injEq] at failed
      exact failed.1 ▸ empty stack
  | cons top rest =>
      cases viewed : view top with
      | none =>
          simp only [stack, ValueStack.popAs, viewed, EStateM.Result.error.injEq] at failed
          exact failed.1 ▸ other top rest stack viewed
      | some value => simp [stack, ValueStack.popAs, viewed] at failed

theorem fetch {site : NodeId} {node : Node} (fetched : image.code.node? site = some node) :
    RaisesOnly Allowed (fetch image site) before :=
  of_ok (fetch_eq_ok_iff.mpr ⟨fetched, rfl⟩)

end RaisesOnly

end Action

/-- The fault of a step, if it failed. -/
def Progress.fault? : Progress → Option Fault
  | halted | advanced => none
  | failed failure => some failure.fault

namespace Machine

theorem exists_failed_of_fault? {machine : Machine} {fault : Fault}
    (raised : machine.step.1.fault? = some fault) :
    ∃ failure after, machine.step = (.failed failure, after) ∧ failure.fault = fault := by
  rcases stepped : machine.step with ⟨progress, after⟩
  rw [stepped] at raised
  cases progress with
  | halted | advanced => cases raised
  | failed failure => exact ⟨failure, after, rfl, Option.some.inj raised⟩

theorem step_eq_failed {machine after : Machine} {failure : Failure}
    (failed : machine.step = (.failed failure, after)) :
    ∃ entry rest, machine.state.control = entry :: rest ∧
      ((∃ limit, failure.fault = .stepBudgetExceeded limit) ∨
        entry.execute machine.image (begin machine.state rest) =
          .error failure.fault after.state) := by
  rcases machine with ⟨image, options, state⟩
  simp only [step] at failed
  split at failed
  next => simp at failed
  next entry rest scheduled =>
    refine ⟨entry, rest, scheduled, ?_⟩
    split at failed
    next limit _ =>
      simp only [Prod.mk.injEq, Progress.failed.injEq] at failed
      exact .inl ⟨limit, failed.1 ▸ rfl⟩
    next =>
      split at failed
      next => simp at failed
      next fault next raised =>
        simp only [Prod.mk.injEq, Progress.failed.injEq] at failed
        rcases failed with ⟨rfl, rfl⟩
        exact .inr raised

end Machine

end BlockMachine
