import BlockMachine.Proofs.Correctness.Agreement
import BlockMachine.Proofs.Machine.Lookups
import BlockMachine.Proofs.Scoping.Continuations

namespace BlockMachine

/-! # Lexical scoping

What is bound when a phrase is run are the identifiers visible at its place in the
program, whichever blocks are open and whoever has called. An identifier is therefore
found unbound only where the text of the program does not declare it. -/

/-- Whether carrying out an entry looks up the identifier that a phrase uses: at the
phrase's own node, or once its operands have been evaluated. -/
inductive Control.Serves : Control → Phrase → NodeId → Prop where
  | expression (expr : Expr) (id : NodeId) : Serves (.node id) (.expression expr) id
  | assign (text : String) (value : Expr) (id : NodeId) :
      Serves (.op .assign) (.command (.assign text value)) id
  | call (text : String) (actuals : List Expr) (id : NodeId) (callee : Name) (count : Nat) :
      Serves (.op (.call callee count)) (.command (.call text actuals)) id

namespace Draft.BindsJust

variable {draft : Draft} {scope : List String} {environment : Environment}

/-- An identifier that is not bound is not visible. -/
theorem not_mem (binds : draft.BindsJust scope environment) {text : String} {name : Name}
    (named : draft.Names text name) (unbound : environment.lookup name = none) : text ∉ scope := by
  intro member
  rcases binds.bound text member with ⟨other, namedOther, contained⟩
  rw [named.eq namedOther, ← Option.not_isSome_iff_eq_none] at unbound
  exact unbound contained

end Draft.BindsJust

namespace Frame

variable {image : Image} {body : List Command} {scope : List String} {work : List Control}
  {slots : List Slot} {id : NodeId}

/-- A node that is to be entered is that of a phrase which sees the scope. -/
theorem exists_occurs (frame : Frame image body (Fits image body) (.node id :: work) slots scope) :
    ∃ phrase, image.program.Occurs body scope phrase id := by
  cases frame with
  | expression occurs | command occurs => exact ⟨_, occurs⟩
  | base fits =>
      cases fits with
      | declares occurs | cell occurs | function occurs | member occurs => exact ⟨_, occurs⟩

end Frame

/-- A node that looks a name up is that of an expression which uses it. -/
theorem Program.Occurs.exists_used {image : Image} {body : List Command} {scope : List String}
    {phrase : Phrase} {id : NodeId} (of : image.IsOf body)
    (occurs : image.program.Occurs body scope phrase id) {node : Node} {name : Name}
    (fetched : image.code.node? id = some node) (looked : node.lookedUp? = some name) :
    ∃ expr text, phrase = .expression expr ∧ phrase.used? = some text ∧
      image.draft.Names text name := by
  have notOther {other : Node} (known : image.code.node? id = some other)
      (inert : other.lookedUp? = none) : False := by
    cases fetched.symm.trans known
    cases looked.symm.trans inert
  have laid := occurs.lays of
  cases phrase with
  | expression expr =>
      cases laid with
      | ident named known | addressOf named known | valueOf named known =>
          cases fetched.symm.trans known
          cases looked
          exact ⟨_, _, rfl, rfl, named⟩
      | num known | bool known | not _ known => exact (notOther known rfl).elim
      | @binary _ op _ _ _ _ _ _ _ _ known => cases op <;> exact (notOther known rfl).elim
  | cell =>
      rcases laid with ⟨_, _, known⟩
      exact (notOther known rfl).elim
  | function =>
      rcases laid with ⟨_, laid⟩
      cases laid with
      | mk _ _ _ known => exact (notOther known rfl).elim
  | declaration =>
      cases laid with
      | var _ _ _ known | const _ _ known | function _ known | recursive _ _ known =>
          exact (notOther known rfl).elim
  | command =>
      cases laid with
      | block laid =>
          cases laid with
          | mk _ _ _ _ known => exact (notOther known rfl).elim
      | nop known | assign _ _ known | loop _ _ _ known | ifThen _ _ _ known
      | ifThenElse _ _ _ _ _ known | print _ known | call _ _ _ known =>
          exact (notOther known rfl).elim
  | declarations | commands =>
      rcases laid with ⟨several, ids, laid, flat⟩
      rcases Draft.split_of_flattens laid flat with ⟨_, known⟩ | ⟨_, rfl, _⟩ | split
      · exact (notOther known rfl).elim
      · exact absurd rfl several
      · rcases split with ⟨_, _, _, _, _, _, _, known, _⟩
        exact (notOther known rfl).elim

namespace State

variable {image : Image} {body : List Command} {scope : List String} {state : State}

/-- A name that is looked up is used by a phrase that sees the scope. -/
theorem exists_phrase_of_looksUp (of : image.IsOf body) {entry : Control} {work : List Control}
    {slots : List Slot} {name : Name}
    (frame : Frame image body (Fits image body) (entry :: work) slots scope)
    (fills : Fills image body state.closures slots state.values)
    (looksUp : entry.LooksUp image.code state.values name) :
    ∃ phrase id text, image.program.Occurs body scope phrase id ∧ entry.Serves phrase id ∧
      phrase.used? = some text ∧ image.draft.Names text name := by
  cases looksUp with
  | node fetched looked =>
      rcases frame.exists_occurs with ⟨phrase, occurs⟩
      rcases occurs.exists_used of fetched looked with ⟨expr, text, rfl, used, named⟩
      exact ⟨_, _, text, occurs, .expression _ _, used, named⟩
  | assign taken =>
      rw [taken] at fills
      cases frame with
      | base fits => cases fits
      | operator takes => cases takes
      | assign occurs =>
          cases (List.forall₂_cons.mp (List.forall₂_cons.mp fills).2).1 with
          | target named => exact ⟨_, _, _, occurs, .assign _ _ _, rfl, named⟩
  | call =>
      generalize same : Control.op (.call name _) = entry at frame
      cases frame with
      | call occurs named =>
          cases same
          exact ⟨_, _, _, occurs, .call _ _ _ _ _, rfl, named⟩
      | base fits => cases fits <;> cases same
      | operator takes =>
          cases same
          cases takes
      | _ => cases same

end State

namespace Machine

variable {image : Image} {body : List Command} {options : Options} {printer : Printer}
  {machine after : Machine}

/-- An identifier that is found unbound is used where it is not visible. -/
theorem Reaches.exists_used_of_unbound (of : image.IsOf body)
    (reaches : (load image options printer).Reaches machine) {failure : Failure} {text : String}
    (failed : machine.step = (.failed failure, after))
    (unbound : failure.fault = .undefinedVariable text) :
    ∃ scope phrase id entry rest, machine.state.control = entry :: rest ∧
      image.program.Occurs body scope phrase id ∧ entry.Serves phrase id ∧
      phrase.used? = some text ∧ image.draft.BindsJust scope machine.state.environment ∧
      text ∉ scope := by
  rcases step_eq_failed failed with ⟨entry, rest, scheduled, ⟨limit, exceeded⟩ | raised⟩
  · cases unbound.symm.trans exceeded
  · have same : machine.image = image := reaches.image_eq
    rw [unbound, same] at raised
    rcases Control.looksUp_of_unbound raised with ⟨name, looksUp, notBound, named⟩
    rcases reaches.exists_scope of with ⟨scope, seen⟩
    rcases seen.continues with ⟨slots, frame, fills⟩
    rw [scheduled] at frame
    rcases State.exists_phrase_of_looksUp of frame fills looksUp with
      ⟨phrase, id, used, occurs, serves, uses, namedUsed⟩
    have texts : used = text := by
      rw [← named]
      exact (NameTable.text_of_find? namedUsed).symm
    subst texts
    exact ⟨scope, phrase, id, entry, rest, scheduled, occurs, serves, uses, seen.binds,
      seen.binds.not_mem namedUsed notBound⟩

/-- Where a phrase of a translated program is run, just the identifiers visible at its
place are bound. Hence an identifier is found unbound only by a phrase that uses it
where it is not visible, and never in a program that uses none so. -/
theorem binds_visible_names {names : NameTable} {program : Program}
    (accepted : (translate names body).1 = .ok program) :
    let image : Image := ⟨program, (translate names body).2⟩
    (∀ machine id rest, (load image options printer).Reaches machine →
      machine.state.control = .node id :: rest →
      (∃ scope phrase, program.Occurs body scope phrase id) ∧
      ∀ scope phrase, program.Occurs body scope phrase id →
        image.draft.BindsJust scope machine.state.environment) ∧
    (∀ machine after failure text, (load image options printer).Reaches machine →
      machine.step = (.failed failure, after) → failure.fault = .undefinedVariable text →
      ∃ scope phrase id entry rest, machine.state.control = entry :: rest ∧
        program.Occurs body scope phrase id ∧ entry.Serves phrase id ∧
        phrase.used? = some text ∧ image.draft.BindsJust scope machine.state.environment ∧
        text ∉ scope) ∧
    ((∀ scope phrase text, Contains body scope phrase → phrase.used? = some text → text ∈ scope) →
      ∀ machine after failure text, (load image options printer).Reaches machine →
        machine.step = (.failed failure, after) → failure.fault ≠ .undefinedVariable text) := by
  intro image
  have of : image.IsOf body := isOf_of_translate accepted
  refine ⟨?_, ?_, ?_⟩
  · intro machine id rest reaches scheduled
    rcases reaches.exists_scope of with ⟨scope, seen⟩
    rcases seen.continues with ⟨slots, frame, _⟩
    rw [scheduled] at frame
    rcases frame.exists_occurs with ⟨phrase, occurs⟩
    refine ⟨⟨scope, phrase, occurs⟩, ?_⟩
    intro other piece others
    rw [← (Program.Occurs.unique of occurs others).1]
    exact seen.binds
  · intro machine after failure text reaches failed unbound
    exact reaches.exists_used_of_unbound of failed unbound
  · intro visible machine after failure text reaches failed unbound
    rcases reaches.exists_used_of_unbound of failed unbound with
      ⟨scope, phrase, _, _, _, _, occurs, _, uses, _, hidden⟩
    exact hidden (visible scope phrase text occurs.contains uses)

/-- A block that calls a function which uses a constant of the block, but is declared
outside of it. -/
def borrowing : List Command :=
  [.block (.mk [.function (.mk "show" ["value"] (.mk [] [.print (.ident "mine")]))]
    [.block (.mk [.const "mine" (.bool true)] [.call "show" [.ident "mine"]])])]

/-- The function sees its formal, and not the constant that its caller sees. -/
theorem binds_visible_names_borrowing :
    let image : Image := ⟨.ofBody borrowing, (translate .initial borrowing).2⟩
    let start := load image .unbounded .silent
    let caller := (start.runFor 11).2
    let callee := (start.runFor 17).2
    (translate .initial borrowing).1 = .ok (.ofBody borrowing) ∧
      start.Reaches caller ∧ start.Reaches callee ∧
      image.draft.BindsJust ["mine", "show"] caller.state.environment ∧
      image.draft.BindsJust ["value"] callee.state.environment ∧
      ∃ failure after, callee.step = (.failed failure, after) ∧
        failure.fault = .undefinedVariable "mine" ∧
        ∃ scope phrase, Contains borrowing scope phrase ∧ phrase.used? = some "mine" ∧
          "mine" ∉ scope := by
  intro image start caller callee
  have accepted := @translate_eq_ok borrowing (by decide +kernel)
  have reachesCaller : start.Reaches caller := reaches_runFor (by decide +kernel)
  have reachesCallee : start.Reaches callee := reaches_runFor (by decide +kernel)
  have outer : (Program.ofBody borrowing).Occurs borrowing ["show"] _ ⟨10⟩ :=
    Program.Occurs.whole.part_at 1 rfl (by decide +kernel)
  have calling : (Program.ofBody borrowing).Occurs borrowing ["mine", "show"] _ ⟨9⟩ :=
    outer.part_at 1 rfl (by decide +kernel)
  have actual : (Program.ofBody borrowing).Occurs borrowing ["mine", "show"] _ ⟨8⟩ :=
    calling.part_at 0 rfl (by decide +kernel)
  have declared : (Program.ofBody borrowing).Occurs borrowing [] _ ⟨5⟩ :=
    Program.Occurs.whole.part_at 0 rfl (by decide +kernel)
  have function : (Program.ofBody borrowing).Occurs borrowing [] _ ⟨4⟩ :=
    declared.part_at 0 rfl (by decide +kernel)
  have block : (Program.ofBody borrowing).Occurs borrowing ["value"] _ ⟨3⟩ :=
    function.part_at 0 rfl (by decide +kernel)
  have printing : (Program.ofBody borrowing).Occurs borrowing ["value"] _ ⟨2⟩ :=
    block.part_at 1 rfl (by decide +kernel)
  have mine : (Program.ofBody borrowing).Occurs borrowing ["value"] _ ⟨1⟩ :=
    printing.part_at 0 rfl (by decide +kernel)
  rcases @binds_visible_names borrowing .unbounded .silent .initial _ accepted with
    ⟨binds, unbound, _⟩
  have atCaller : caller.state.control.head? = some (.node ⟨8⟩) := by decide +kernel
  have atCallee : callee.state.control.head? = some (.node ⟨1⟩) := by decide +kernel
  rcases List.head?_eq_some_iff.mp atCaller with ⟨_, scheduledCaller⟩
  rcases List.head?_eq_some_iff.mp atCallee with ⟨_, scheduledCallee⟩
  rcases exists_failed_of_fault? (show callee.step.1.fault? = some (.undefinedVariable "mine") by
    decide +kernel) with ⟨failure, after, failed, fault⟩
  rcases unbound _ _ _ _ reachesCallee failed fault with
    ⟨scope, phrase, _, _, _, _, occurs, _, uses, _, hidden⟩
  exact ⟨accepted, reachesCaller, reachesCallee,
    (binds _ _ _ reachesCaller scheduledCaller).2 _ _ actual,
    (binds _ _ _ reachesCallee scheduledCallee).2 _ _ mine,
    failure, after, failed, fault, scope, phrase, occurs.contains, uses, hidden⟩

end Machine

end BlockMachine
