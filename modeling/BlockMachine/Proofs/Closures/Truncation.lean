import BlockMachine.Proofs.Closures.Lockstep

namespace BlockMachine

/-! # Cutting back closure tables

When a scope ends the closure tables are cut back, and their numbers are given
out again. No run can tell: beside a machine that keeps all entries a machine
makes the same steps, and at every point a renaming carries its references to
those of the other, where a number always stands for the function it was given
to. -/

/-- Close a scope, but keep the closure tables as they are. -/
def Action.closeScopeKeeping : Action Unit := do
  let _ ← onValues ValueStack.popMark
  let region ← onValues ValueStack.popRegion
  let environment ← onValues ValueStack.popEnvironment
  fun state => .ok () { state with
    store := state.region.release state.store
    region := region
    environment := environment }

/-- Carry out an entry of the control stack without cutting back tables. -/
def Control.executeKeeping (image : Image) : Control → Action Unit
  | .op .blockCommands => Action.closeScopeKeeping
  | entry => entry.execute image

/-- Tables that are not cut back only grow. -/
theorem Control.grows_of_executeKeeping {image : Image} (entry : Control) {before after : State}
    (executed : entry.executeKeeping image before = .ok () after) :
    before.closures.Grows after.closures := by
  by_cases closer : entry = .op .blockCommands
  · subst closer
    rcases Action.bind_eq_ok_iff.mp executed with ⟨mark, _, poppedMark, executed⟩
    rcases Action.popAs_eq_ok_iff.mp poppedMark with ⟨_, _, _, _, rfl⟩
    rcases Action.bind_eq_ok_iff.mp executed with ⟨region, _, poppedRegion, executed⟩
    rcases Action.popAs_eq_ok_iff.mp poppedRegion with ⟨_, _, _, _, rfl⟩
    rcases Action.bind_eq_ok_iff.mp executed with ⟨outer, _, poppedOuter, executed⟩
    rcases Action.popAs_eq_ok_iff.mp poppedOuter with ⟨_, _, _, _, rfl⟩
    cases executed
    exact .refl _
  · have same : entry.executeKeeping image = entry.execute image := by
      unfold executeKeeping
      split
      · exact absurd rfl closer
      · rfl
    rw [same] at executed
    cases Rule.of_execute executed with
    | abstraction fetched => exact ClosureTable.grows_insert _ _
    | recBind fetched members taken => exact ClosureTable.grows_addGroup _ _
    | blockCommands taken => exact absurd rfl closer
    | _ => exact .refl _

namespace Machine

/-- A step that does not cut back tables. -/
def stepKeeping : Machine → Progress × Machine
  | ⟨image, options, state⟩ =>
    match state.control with
    | [] => (.halted, ⟨image, options, state⟩)
    | entry :: rest =>
      match options.exceeded? state.steps with
      | some limit =>
        (.failed (failureOf options state (.stepBudgetExceeded limit)), ⟨image, options, state⟩)
      | none =>
        match entry.executeKeeping image
            { state with control := rest, steps := state.steps + 1 } with
        | .ok () next => (.advanced, ⟨image, options, next⟩)
        | .error fault next => (.failed (failureOf options next fault), ⟨image, options, next⟩)

theorem stepKeeping_of_scheduled (image : Image) {options : Options} {state : State}
    {entry : Control} {rest : List Control} (scheduled : state.control = entry :: rest)
    (within : options.exceeded? state.steps = none) :
    stepKeeping ⟨image, options, state⟩ =
      match entry.executeKeeping image (begin state rest) with
      | .ok () next => (.advanced, ⟨image, options, next⟩)
      | .error fault next => (.failed (failureOf options next fault), ⟨image, options, next⟩) := by
  simp only [stepKeeping, scheduled, within]
  rfl

/-- Make steps that do not cut back tables until the machine halts or fails, but at
most `fuel` of them. -/
def runKeepingFor : (fuel : Nat) → Machine → Option (Except Failure Outcome) × Machine
  | 0, machine => (none, machine)
  | fuel + 1, machine =>
    match machine.stepKeeping with
    | (.halted, machine) => (some (.ok machine.outcome), machine)
    | (.advanced, machine) => machine.runKeepingFor fuel
    | (.failed failure, machine) => (some (.error failure), machine)

end Machine

variable {rename : Renaming} {state kept : State}

namespace Renaming

theorem Alike.relates {table keptTable : ClosureTable} (alike : rename.Alike table keptTable state kept)
    (links : rename.Links table keptTable) : rename.Relates state kept where
  alike := { alike with closures := rfl, keptClosures := rfl }
  links := by
    rw [alike.closures, alike.keptClosures]
    exact links

end Renaming

theorem Commutes.sameResult {action keptAction : Action Unit}
    (commutes : Commutes rename state.closures kept.closures Eq action keptAction)
    (relates : rename.Relates state kept) :
    SameResult id Eq rename.Relates (action state) (keptAction kept) :=
  (commutes state kept relates.alike).mono fun _ _ alike => alike.relates relates.links

namespace Renaming.Relates

variable (image : Image)

theorem enterAbstraction (relates : rename.Relates state kept)
    (continues : rename.Continues state.closures kept.closures) (site : NodeId)
    (formals : Span Name) (body : NodeId) :
    SameResult id Eq rename.Relates (Action.enterNode image site (.abstraction formals body) state)
      (Action.enterNode image site (.abstraction formals body) kept) := by
  have links := relates.links.insert continues ⟨formals, body, state.environment⟩
  have entries : rename.Entry (.closure (.plain ⟨state.closures.size⟩))
      (.closure (.plain ⟨kept.closures.size⟩)) := by
    rw [← continues.closure]
    exact .bindable (.closure (.plain ⟨state.closures.size⟩))
  have captured : rename.closureEntry ⟨formals, body, state.environment⟩ =
      ⟨formals, body, kept.environment⟩ := by
    rw [relates.alike.environment, closureEntry]
  rw [captured] at links
  exact .ok rfl ⟨{ relates.alike.push entries with closures := rfl, keptClosures := rfl }, links⟩

theorem applyRecBind (relates : rename.Relates state kept)
    (continues : rename.Continues state.closures kept.closures) (site : NodeId) :
    SameResult id Eq rename.Relates (Action.applyRecBind image site state)
      (Action.applyRecBind image site kept) := by
  have weaken (other keptOther : State)
      (alike : rename.Alike state.closures kept.closures other keptOther) :
      rename.Relates other keptOther := alike.relates relates.links
  apply (Commutes.fetch image site state kept relates.alike).bind weaken
  intro node _ middle keptMiddle same alike
  subst same
  cases node with
  | recBind span =>
      apply (Commutes.popMembers _ middle keptMiddle alike).bind weaken
      intro members _ last keptLast same alikeLast
      subst same
      have continuesLast : rename.Continues last.closures keptLast.closures := by
        rw [alikeLast.closures, alikeLast.keptClosures]
        exact continues
      have links := ((weaken _ _ alikeLast).links).addGroup continuesLast members
      have alikeGrown : rename.Alike _ _
          { last with closures := (last.closures.addGroup members).2 }
          { keptLast with closures := (keptLast.closures.addGroup (members.map rename.member)).2 } :=
        { alikeLast with closures := rfl, keptClosures := rfl }
      have declared := Commutes.declare
        (ClosureTable.memberBindings ⟨last.closures.groupCount⟩ members) _ _ alikeGrown
      rw [map_memberBindings, continuesLast.group, ← Action.changeDeclarations_bindMembers,
        ← Action.changeDeclarations_bindMembers] at declared
      exact declared.mono fun _ _ alike => alike.relates links
  | _ => exact .error (weaken _ _ alike)

theorem closeScope (relates : rename.Relates state kept) :
    SameResult id Eq rename.Relates (Action.closeScope state) (Action.closeScopeKeeping kept) := by
  have weaken (other keptOther : State)
      (alike : rename.Alike state.closures kept.closures other keptOther) :
      rename.Relates other keptOther := alike.relates relates.links
  apply (Commutes.popMark state kept relates.alike).bind weaken
  intro mark _ first keptFirst _ alike
  apply (Renaming.shares.popRegion first keptFirst alike).bind weaken
  intro region _ second keptSecond same alike
  subst same
  apply (Commutes.popEnvironment second keptSecond alike).bind weaken
  intro environment _ third keptThird same alike
  subst same
  have links := ((weaken _ _ alike).links).truncate mark
  have released : keptThird.region.release keptThird.store = third.region.release third.store := by
    rw [alike.region, alike.store]
  exact .ok rfl ⟨{ alike with
    store := released
    environment := rfl
    region := rfl
    closures := rfl
    keptClosures := rfl }, links⟩

theorem execute (relates : rename.Relates state kept)
    (continues : rename.Continues state.closures kept.closures)
    (covered : state.environment.Holds state.closures.mark.Covers) (entry : Control) :
    SameResult id Eq rename.Relates (entry.execute image state) (entry.executeKeeping image kept) := by
  cases entry with
  | node site =>
      refine (Commutes.fetch image site state kept relates.alike).bind
        (fun _ _ alike => alike.relates relates.links) ?_
      intro node _ middle keptMiddle same alike
      subst same
      by_cases abstracts : ∃ formals body, node = .abstraction formals body
      · rcases abstracts with ⟨formals, body, rfl⟩
        apply (alike.relates relates.links).enterAbstraction image
        rw [alike.closures, alike.keptClosures]
        exact continues
      · have commutes : Commutes rename state.closures kept.closures Eq
            (Action.enterNode image site node) (Action.enterNode image site node) :=
          Commutes.enterNode image fun formals body equal => abstracts ⟨formals, body, equal⟩
        exact (commutes middle keptMiddle alike).mono fun _ _ alike => alike.relates relates.links
  | op opcode =>
      cases opcode with
      | recBind site => exact relates.applyRecBind image continues site
      | blockCommands => exact relates.closeScope
      | call callee arity =>
          exact (Commutes.applyCall image relates.links callee arity relates.alike covered).mono
            fun _ _ alike => alike.relates relates.links
      | arith op => exact Commutes.sameResult (Renaming.shares.applyArith op) relates
      | logic op => exact Commutes.sameResult (Renaming.shares.applyLogic op) relates
      | not => exact Commutes.sameResult Renaming.shares.applyNot relates
      | assign => exact (Commutes.applyAssign image).sameResult relates
      | bind => exact Commutes.applyBind.sameResult relates
      | ref => exact Commutes.sameResult Renaming.shares.applyRef relates
      | blockDeclarations => exact Commutes.applyBlockDeclarations.sameResult relates
      | cond => exact (Commutes.applyCond image).sameResult relates
      | loop => exact (Commutes.applyLoop image).sameResult relates
      | print => exact Commutes.applyPrint.sameResult relates

end Renaming.Relates

/-! ## Runs in lockstep -/

namespace Renaming

/-- A renaming that agrees with another one on all entries of the tables. -/
structure Agrees (other : Renaming) (rename : Renaming) (table : ClosureTable) : Prop where
  closure : ∀ id : ClosureId, id.index < table.size → other.closure id = rename.closure id
  group : ∀ id : GroupId, id.index < table.groupCount → other.group id = rename.group id

variable {other : Renaming} {table : ClosureTable}

theorem Agrees.value (agrees : other.Agrees rename table) {value : Bindable}
    (covers : table.mark.Covers value) : other.value value = rename.value value := by
  cases value with
  | storable value => rfl
  | closure reference =>
      rcases reference with ⟨closure, group⟩
      have sameGroup : group.map other.group = group.map rename.group :=
        Option.map_congr fun id isGroup => agrees.group id (covers.2 id isGroup)
      simp only [Renaming.value, Renaming.reference, agrees.closure closure covers.1, sameGroup]

theorem Agrees.environment (agrees : other.Agrees rename table) {environment : Environment}
    (covers : environment.Holds table.mark.Covers) :
    other.environment environment = rename.environment environment :=
  Environment.map_congr (covers.imp fun _ => agrees.value)

theorem Agrees.entry (agrees : other.Agrees rename table) {entry keptEntry : StackValue}
    (same : rename.Entry entry keptEntry) (covers : entry.Holds table.mark.Covers) :
    other.Entry entry keptEntry := by
  cases same with
  | bindable value => exact agrees.value covers ▸ .bindable value
  | environment saved => exact agrees.environment covers ▸ .environment saved
  | declarations collected => exact agrees.environment covers ▸ .declarations collected
  | identifier name => exact .identifier name
  | pending node => exact .pending node
  | region saved => exact .region saved
  | mark saved kept => exact .mark saved kept

theorem Agrees.relates (agrees : other.Agrees rename state.closures)
    (relates : rename.Relates state kept) (covered : state.Covered) : other.Relates state kept where
  alike := { relates.alike with
    values := by
      have same := relates.alike.values
      have covers := covered.values
      generalize state.values = values at same covers
      generalize kept.values = keptValues at same
      induction same with
      | nil => exact .nil
      | cons head _ induction =>
          refine .cons (agrees.entry head (covers _ List.mem_cons_self)) (induction ?_)
          intro entry member
          exact covers entry (List.mem_cons_of_mem _ member)
    environment := by
      rw [relates.alike.environment, agrees.environment covered.environment] }
  links := by
    constructor
    · intro id closure found
      have captured := agrees.environment (covered.captured id closure found)
      rw [agrees.closure id (ClosureTable.index_lt_of_closure? found),
        relates.links.closures id closure found, closureEntry, closureEntry, captured]
    · intro id members found
      have sameMembers : members.map other.member = members.map rename.member := by
        apply List.map_congr_left
        intro member isMember
        simp only [Renaming.member,
          agrees.closure member.2 (covered.members id members found member isMember)]
      rw [agrees.group id (ClosureTable.index_lt_of_members? found),
        relates.links.groups id members found, sameMembers]
    · intro first second firstKnown secondKnown equal
      rw [agrees.closure first firstKnown, agrees.closure second secondKnown] at equal
      exact relates.links.closures_injective first second firstKnown secondKnown equal
    · intro first second firstKnown secondKnown equal
      rw [agrees.group first firstKnown, agrees.group second secondKnown] at equal
      exact relates.links.groups_injective first second firstKnown secondKnown equal

/-- The same renaming, except that the next entries correspond. -/
def continuing (rename : Renaming) (table kept : ClosureTable) : Renaming where
  closure := Function.update rename.closure ⟨table.size⟩ ⟨kept.size⟩
  group := Function.update rename.group ⟨table.groupCount⟩ ⟨kept.groupCount⟩

theorem continues_continuing (rename : Renaming) (table kept : ClosureTable) :
    (rename.continuing table kept).Continues table kept where
  closure := by simp [continuing]
  group := by simp [continuing]

theorem agrees_continuing (rename : Renaming) (table kept : ClosureTable) :
    (rename.continuing table kept).Agrees rename table where
  closure := by
    intro id known
    apply Function.update_of_ne
    intro equal
    exact Nat.lt_irrefl _ (equal ▸ known)
  group := by
    intro id known
    apply Function.update_of_ne
    intro equal
    exact Nat.lt_irrefl _ (equal ▸ known)

end Renaming

namespace Machine

/-- Whether two runs have come equally far: neither has ended, or both have come to
an end with the same result, or both have failed with the same fault after as
many steps. -/
inductive SameEnding (rename : Renaming) :
    Option (Except Failure Outcome) → Option (Except Failure Outcome) → Prop where
  | running : SameEnding rename none none
  | halted (result : Option Bindable) (steps : Nat) :
      SameEnding rename (some (.ok ⟨result, steps⟩))
        (some (.ok ⟨result.map rename.value, steps⟩))
  | failed (fault : Fault) (steps : Option Nat) (snapshot keptSnapshot : Option Snapshot) :
      SameEnding rename (some (.error ⟨fault, steps, snapshot⟩))
        (some (.error ⟨fault, steps, keptSnapshot⟩))

/-- Two machines in lockstep: one renames the references of the other, and those
of the first are all in its tables. -/
structure Lockstep (machine keptMachine : Machine) : Prop where
  image : keptMachine.image = machine.image
  options : keptMachine.options = machine.options
  relates : ∃ rename : Renaming, rename.Relates machine.state keptMachine.state
  owns : machine.state.Owns
  settled : machine.state.Settled fun horizon => horizon.mark.Covers

variable {machine keptMachine : Machine}

theorem outcome_of_relates
    (relates : rename.Relates machine.state keptMachine.state) :
    keptMachine.outcome = ⟨machine.outcome.result.map rename.value, machine.outcome.steps⟩ := by
  have sameSteps := relates.alike.steps
  have same := relates.alike.values
  simp only [outcome, sameSteps, Outcome.mk.injEq, and_true]
  generalize machine.state.values = values at same
  generalize keptMachine.state.values = keptValues at same
  cases same with
  | nil => rfl
  | cons top below => cases top <;> rfl

/-- Machines in lockstep halt together, advance together, or fail together. -/
theorem Lockstep.step (lockstep : Lockstep machine keptMachine) :
    (machine.step = (.halted, machine) ∧ keptMachine.stepKeeping = (.halted, keptMachine)) ∨
    (∃ after keptAfter, machine.step = (.advanced, after) ∧
      keptMachine.stepKeeping = (.advanced, keptAfter) ∧ Lockstep after keptAfter) ∨
    ∃ fault steps snapshot keptSnapshot after keptAfter,
      machine.step = (.failed ⟨fault, steps, snapshot⟩, after) ∧
      keptMachine.stepKeeping = (.failed ⟨fault, steps, keptSnapshot⟩, keptAfter) ∧
      ∃ rename : Renaming, rename.Relates after.state keptAfter.state := by
  rcases machine with ⟨image, options, state⟩
  rcases keptMachine with ⟨keptImage, keptOptions, kept⟩
  rcases lockstep with ⟨sameImage, sameOptions, ⟨old, related⟩, owns, settled⟩
  simp only at sameImage sameOptions related owns settled
  subst sameImage
  subst sameOptions
  have covered := settled.covered
  -- From here on new entries get the numbers that they have in the longer tables.
  have relates := (old.agrees_continuing state.closures kept.closures).relates related covered
  have continues := old.continues_continuing state.closures kept.closures
  generalize old.continuing state.closures kept.closures = rename at relates continues
  have sameControl := relates.alike.control
  have sameSteps := relates.alike.steps
  cases scheduled : state.control with
  | nil =>
      rw [scheduled] at sameControl
      exact .inl ⟨step_of_empty scheduled, by simp [stepKeeping, sameControl]⟩
  | cons entry rest =>
      rw [scheduled] at sameControl
      cases exceeded : keptOptions.exceeded? state.steps with
      | some limit =>
          right
          right
          let failure := failureOf keptOptions state (.stepBudgetExceeded limit)
          let keptFailure := failureOf keptOptions kept (.stepBudgetExceeded limit)
          refine ⟨.stepBudgetExceeded limit, some state.steps, failure.snapshot,
            keptFailure.snapshot, ⟨keptImage, keptOptions, state⟩,
            ⟨keptImage, keptOptions, kept⟩, ?_, ?_, rename, relates⟩
          · simp only [Machine.step, scheduled, exceeded]
            rfl
          · simp only [stepKeeping, sameControl, sameSteps, exceeded, keptFailure, failureOf]
      | none =>
          have begun : rename.Relates (begin state rest) (begin kept rest) :=
            { alike := { relates.alike with
                control := rfl
                steps := congrArg (· + 1) sameSteps }
              links := relates.links }
          have executed := begun.execute keptImage continues covered.environment entry
          have stepped := step_of_scheduled keptImage scheduled exceeded
          have keptStepped := stepKeeping_of_scheduled keptImage sameControl
            (sameSteps.symm ▸ exceeded)
          generalize entry.execute keptImage (begin state rest) = result at executed stepped
          generalize entry.executeKeeping keptImage (begin kept rest) = keptResult
            at executed keptStepped
          cases executed with
          | @ok _ _ next keptNext _ related =>
              refine .inr (.inl ⟨_, _, stepped, keptStepped, ⟨rfl, rfl, ⟨rename, related⟩, ?_, ?_⟩⟩)
              · exact (Advances.owns stepped owns)
              · exact Advances.settled_covers stepped owns settled
          | @error fault next keptNext related =>
              have steps : keptNext.steps = next.steps := related.alike.steps
              refine .inr (.inr ⟨fault, some next.steps, (failureOf keptOptions next fault).snapshot,
                (failureOf keptOptions keptNext fault).snapshot, ⟨keptImage, keptOptions, next⟩,
                ⟨keptImage, keptOptions, keptNext⟩, stepped, ?_, rename, related⟩)
              simp only [keptStepped, failureOf, steps, id_eq]

/-- Machines in lockstep come equally far. -/
theorem Lockstep.runFor (lockstep : Lockstep machine keptMachine) (fuel : Nat) :
    ∃ rename : Renaming,
      rename.Relates (machine.runFor fuel).2.state (keptMachine.runKeepingFor fuel).2.state ∧
      SameEnding rename (machine.runFor fuel).1 (keptMachine.runKeepingFor fuel).1 := by
  induction fuel generalizing machine keptMachine with
  | zero =>
      rcases lockstep.relates with ⟨rename, related⟩
      exact ⟨rename, related, .running⟩
  | succ fuel induction =>
      simp only [Machine.runFor, runKeepingFor]
      rcases lockstep.step with ⟨halted, keptHalted⟩ |
        ⟨after, keptAfter, advanced, keptAdvanced, next⟩ |
        ⟨fault, steps, snapshot, keptSnapshot, after, keptAfter, failed, keptFailed, rename, related⟩
      · rw [halted, keptHalted]
        rcases lockstep.relates with ⟨rename, related⟩
        refine ⟨rename, related, ?_⟩
        show SameEnding rename (some (.ok machine.outcome)) (some (.ok keptMachine.outcome))
        rw [outcome_of_relates related]
        exact .halted _ _
      · rw [advanced, keptAdvanced]
        exact induction next
      · rw [failed, keptFailed]
        exact ⟨rename, related, .failed fault steps snapshot keptSnapshot⟩

theorem lockstep_load (image : Image) (options : Options) (printer : Printer) :
    Lockstep (load image options printer) (load image options printer) where
  image := rfl
  options := rfl
  relates := ⟨⟨id, id⟩, {
    alike := ⟨rfl, .nil, rfl, rfl, rfl, rfl, rfl, rfl, rfl⟩
    links := .empty }⟩
  owns := State.owns_start _ _
  settled := State.settled_start _ _

theorem grows_of_stepKeeping {before after : Machine}
    (advanced : before.stepKeeping = (.advanced, after)) :
    before.state.closures.Grows after.state.closures := by
  rcases before with ⟨image, options, state⟩
  simp only [stepKeeping] at advanced
  split at advanced
  next => simp at advanced
  next entry rest _ =>
    split at advanced
    next => simp at advanced
    next =>
      split at advanced
      next executed =>
        simp only [Prod.mk.injEq, true_and] at advanced
        subst advanced
        have grows := entry.grows_of_executeKeeping executed
        exact grows
      next => simp at advanced

/-- Cutting back the closure tables cannot be observed. Beside a machine that never
does so a machine makes the same steps up to its end or its first fault, in states
that agree but for a renaming of closures and groups; its references are always to
entries of its tables, while those of the other machine never change what they
stand for. -/
theorem truncation_unobservable (image : Image) (options : Options) (printer : Printer) :
    let start := load image options printer
    (∀ fuel, ∃ rename : Renaming,
      rename.Relates (start.runFor fuel).2.state (start.runKeepingFor fuel).2.state ∧
      SameEnding rename (start.runFor fuel).1 (start.runKeepingFor fuel).1) ∧
    (∀ machine, start.Reaches machine → machine.state.Covered) ∧
    ∀ before after : Machine, before.stepKeeping = (.advanced, after) →
      before.state.closures.Grows after.state.closures := by
  intro start
  refine ⟨(lockstep_load image options printer).runFor, ?_, fun _ _ => grows_of_stepKeeping⟩
  intro machine reaches
  exact (reaches.settled_covers (State.owns_start _ _) (State.settled_start _ _)).2.covered

end Machine

end BlockMachine
