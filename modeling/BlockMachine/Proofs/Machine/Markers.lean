import BlockMachine.Proofs.Closures.Growth
import BlockMachine.Proofs.Machine.Faults
import BlockMachine.Proofs.Memory.Ownership

namespace BlockMachine

/-! # Markers

A construct that is not finished has parked on the value stack what it will need,
and the opcode that is to take it waits on the control stack. Parked entries and
waiting opcodes follow one another in the same order, and between the parked
entries there is nothing but values of operands. An opcode therefore never takes
what another construct has parked, and the end of a block or a call finds what its
start left there. -/

namespace Opcode

/-- Whether the opcode takes what its construct has parked, once it has the values
of its operands. -/
def isWaiting : Opcode → Bool
  | assign | bind | blockDeclarations | blockCommands | cond | loop => true
  | arith _ | logic _ | not | recBind _ | ref | print | call _ _ => false

end Opcode

namespace Control

/-- The opcode of an entry that waits for parked entries. -/
def waiting? : Control → Option Opcode
  | node _ => none
  | op opcode => if opcode.isWaiting then some opcode else none

/-- The opcodes of a control stack that wait for parked entries. -/
def waiting (control : List Control) : List Opcode :=
  control.filterMap waiting?

/-- How many actuals an entry takes off the value stack for the scope that it
opens. -/
def actualCount : Control → Nat
  | op (.call _ count) => count
  | _ => 0

end Control

namespace ValueStack

/-- Whether the parked entries of a value stack are those that opcodes wait for,
each opcode in its turn. -/
inductive Parks (code : Code) : List Opcode → ValueStack → Prop
  | nil : Parks code [] []
  | value (value : Bindable) : Parks code waiting rest →
      Parks code waiting (.bindable value :: rest)
  | assign (target : Name) : Parks code waiting rest →
      Parks code (.assign :: waiting) (.identifier target :: rest)
  | bind (name : Name) : Parks code waiting rest →
      Parks code (.bind :: waiting) (.identifier name :: rest)
  | cond (fetched : code.node? site = some (.conditional test thenBranch elseBranch)) :
      Parks code waiting rest → Parks code (.cond :: waiting) (.pending site :: rest)
  | loop (fetched : code.node? site = some (.loop test body)) :
      Parks code waiting rest → Parks code (.loop :: waiting) (.pending site :: rest)
  | blockDeclarations (collected : Environment) : Parks code waiting rest →
      Parks code (.blockDeclarations :: waiting) (.declarations collected :: rest)
  | blockCommands (mark : Mark) (region : Region) (outer : Environment) :
      Parks code waiting rest → Parks code (.blockCommands :: waiting)
        (.mark mark :: .region region :: .environment outer :: rest)

/-- Whether a stack is empty or has the mark of an open scope on top, which no
operand and no declaration can reach past. -/
def IsSealed : ValueStack → Prop
  | [] | .mark _ :: _ => True
  | _ => False

variable {code : Code} {waiting : List Opcode} {upper below rest : ValueStack}

theorem Parks.ne_nil {opcode : Opcode} (parks : Parks code (opcode :: waiting) upper) :
    upper ≠ [] := by
  intro empty
  subst empty
  cases parks

/-- An entry of an upper part that is not empty. -/
theorem exists_upper_of_cons {top : StackValue} (notEmpty : upper ≠ [])
    (taken : upper ++ below = top :: rest) :
    ∃ left, upper = top :: left ∧ rest = left ++ below := by
  cases upper with
  | nil => exact absurd rfl notEmpty
  | cons head left =>
      rcases List.cons.inj taken with ⟨rfl, same⟩
      exact ⟨left, rfl, same.symm⟩

/-- A value that is taken off a stack whose lower part is sealed is one of the upper
part. -/
theorem Parks.take_value (parks : Parks code waiting upper) (sealed : below.IsSealed)
    {value : Bindable} (taken : upper ++ below = .bindable value :: rest) :
    ∃ left, upper = .bindable value :: left ∧ rest = left ++ below ∧ Parks code waiting left := by
  have notEmpty : upper ≠ [] := by
    intro empty
    rw [empty, List.nil_append] at taken
    rw [taken] at sealed
    exact sealed
  rcases exists_upper_of_cons notEmpty taken with ⟨left, rfl, same⟩
  cases parks with
  | value _ parks => exact ⟨left, rfl, same, parks⟩

theorem Parks.take_values (parks : Parks code waiting upper) (sealed : below.IsSealed)
    {values : List Bindable} (taken : upper ++ below = values.map .bindable ++ rest) :
    ∃ left, upper = values.map .bindable ++ left ∧ rest = left ++ below ∧
      Parks code waiting left := by
  induction values generalizing upper with
  | nil => exact ⟨upper, rfl, taken.symm, parks⟩
  | cons value values induction =>
      rcases parks.take_value sealed taken with ⟨left, rfl, same, parksLeft⟩
      rcases induction parksLeft same.symm with ⟨last, rfl, rest, parksLast⟩
      exact ⟨last, rfl, rest, parksLast⟩

/-- Declarations on top of a stack may be added to. -/
theorem Parks.take_declarations (parks : Parks code waiting upper) (sealed : below.IsSealed)
    {collected : Environment} (taken : upper ++ below = .declarations collected :: rest) :
    ∃ left, upper = .declarations collected :: left ∧ rest = left ++ below ∧
      ∀ added, Parks code waiting (.declarations added :: left) := by
  have notEmpty : upper ≠ [] := by
    intro empty
    rw [empty, List.nil_append] at taken
    rw [taken] at sealed
    exact sealed
  rcases exists_upper_of_cons notEmpty taken with ⟨left, rfl, same⟩
  cases parks with
  | blockDeclarations _ parks =>
      exact ⟨left, rfl, same, fun added => .blockDeclarations added parks⟩

end ValueStack

/-- Whether an entry is no mark, or a mark that closure tables lie below. -/
def ClosureTable.Precedes (table : ClosureTable) : StackValue → Prop
  | .mark mark => table.mark.Below mark
  | _ => True

/-- Whether both stacks of a state are in step above a boundary, and the closure
tables have kept what they held at the boundary. -/
structure State.Above (code : Code) (rest : List Control) (below : ValueStack)
    (table : ClosureTable) (front : List Control) (upper : ValueStack) (state : State) : Prop where
  control : state.control = front ++ rest
  values : state.values = upper ++ below
  parks : ValueStack.Parks code (Control.waiting front) upper
  marks : ∀ entry ∈ upper, table.Precedes entry
  grows : table.Grows state.closures

namespace Control

theorem waiting_append (front rest : List Control) :
    waiting (front ++ rest) = waiting front ++ waiting rest :=
  List.filterMap_append

theorem waiting_nodes (ids : List NodeId) : waiting (ids.map .node) = [] := by
  induction ids with
  | nil => rfl
  | cons id ids induction => exact induction

theorem waiting_branch (condition : Bool) (thenBranch : NodeId) (elseBranch : Option NodeId) :
    waiting (Node.branch condition thenBranch elseBranch) = [] := by
  cases condition with
  | true => rfl
  | false => cases elseBranch <;> rfl

theorem waiting_round (condition : Bool) (body site : NodeId) :
    waiting (if condition then [.node body, .node site] else []) = [] := by
  cases condition <;> rfl

end Control

/-- Entering a node parks what the opcodes that it schedules wait for. -/
theorem Node.parks_of_agenda? {code : Code} {site : NodeId} {node : Node}
    {parked upper : ValueStack} {scheduled front : List Control}
    (fetched : code.node? site = some node)
    (agenda : node.agenda? code site = some (parked, scheduled))
    (parks : ValueStack.Parks code (Control.waiting front) upper) :
    ValueStack.Parks code (Control.waiting (scheduled ++ front)) (parked ++ upper) := by
  cases node with
  | assign target value => cases agenda; exact .assign target parks
  | bind name value => cases agenda; exact .bind name parks
  | conditional condition thenBranch elseBranch => cases agenda; exact .cond fetched parks
  | loop condition body => cases agenda; exact .loop fetched parks
  | call callee actuals =>
      cases agenda
      rw [Control.waiting_append, Control.waiting_append, Control.waiting_nodes]
      exact parks
  | recBind span =>
      cases agenda
      rw [Control.waiting_append, Control.waiting_append, Control.waiting_nodes]
      exact parks
  | noOp | sequence | not | allocateReference | print | arith | logic =>
      cases agenda
      exact parks
  | _ => cases agenda

theorem Node.precedes_of_agenda? {code : Code} {site : NodeId} {node : Node} {parked : ValueStack}
    {scheduled : List Control} (agenda : node.agenda? code site = some (parked, scheduled))
    (table : ClosureTable) : ∀ entry ∈ parked, table.Precedes entry := by
  cases node with
  | _ => cases agenda <;> simp [ClosureTable.Precedes]

/-- An opcode that combines operands waits for no parked entries. -/
theorem Opcode.Combines.waiting {opcode : Opcode} {operands : List Storable} {result : Storable}
    (combines : Combines opcode operands result) (front : List Control) :
    Control.waiting (.op opcode :: front) = Control.waiting front := by
  cases combines <;> rfl

open ValueStack in
/-- What a rule does stays above a sealed boundary as long as the entry carried out
lies above it. -/
theorem State.Above.rule {image : Image} {rest front : List Control} {below upper : ValueStack}
    {table : ClosureTable} {entry : Control} {before after : State} (sealed : below.IsSealed)
    (rule : Rule image entry before after) (control : before.control = front ++ rest)
    (values : before.values = upper ++ below)
    (parks : Parks image.code (Control.waiting (entry :: front)) upper)
    (marks : ∀ entry ∈ upper, table.Precedes entry) (grows : table.Grows before.closures) :
    ∃ front upper, after.Above image.code rest below table front upper := by
  have pushed (value : Bindable) :
      ∀ entry ∈ StackValue.bindable value :: upper, table.Precedes entry :=
    List.forall_mem_cons.mpr ⟨trivial, marks⟩
  cases rule with
  | literal | identifier | addressOf | valueOf =>
      exact ⟨front, _ :: upper, control, congrArg _ values, .value _ parks, pushed _, grows⟩
  | abstraction fetched =>
      exact ⟨front, _ :: upper, control, congrArg _ values, .value _ parks, pushed _,
        grows.trans (ClosureTable.grows_insert _ _)⟩
  | @agenda _ _ parked scheduled _ fetched agenda functions =>
      refine ⟨scheduled ++ front, parked ++ upper, ?_, ?_, Node.parks_of_agenda? fetched agenda parks,
        ?_, grows⟩
      · simp [control]
      · simp [values]
      · exact List.forall_mem_append.mpr ⟨Node.precedes_of_agenda? agenda table, marks⟩
  | @block _ declarations commands =>
      refine ⟨.node declarations :: .op .blockDeclarations :: .node commands ::
        .op .blockCommands :: front, .declarations .empty :: .mark before.closures.mark ::
        .region before.region :: .environment before.environment :: upper, ?_, ?_,
        .blockDeclarations _ (.blockCommands _ _ _ parks), ?_, grows⟩
      · simp only [control, List.cons_append]
      · simp only [values, List.cons_append]
      · simpa [ClosureTable.Precedes] using ⟨grows.mark, marks⟩
  | operator combines taken =>
      rw [combines.waiting] at parks
      rw [values, StackValue.map_storable] at taken
      rcases parks.take_values sealed taken with ⟨left, rfl, rfl, parks⟩
      exact ⟨front, _ :: left, control, rfl, .value _ parks,
        List.forall_mem_cons.mpr ⟨trivial, (List.forall_mem_append.mp marks).2⟩, grows⟩
  | assign taken =>
      rcases parks.take_value sealed (values.symm.trans taken) with ⟨left, rfl, same, parks⟩
      rcases exists_upper_of_cons parks.ne_nil same.symm with ⟨left, rfl, rfl⟩
      cases parks with
      | assign _ parks =>
          exact ⟨front, left, control, rfl, parks,
            fun entry member => marks entry (by simp [member]), grows⟩
  | bind taken =>
      rcases parks.take_value sealed (values.symm.trans taken) with ⟨left, rfl, same, parks⟩
      rcases exists_upper_of_cons parks.ne_nil same.symm with ⟨left, rfl, same⟩
      cases parks with
      | bind _ parks =>
          have below := (List.cons.inj same).2.symm
          rcases parks.take_declarations sealed below with ⟨left, rfl, rfl, parks⟩
          exact ⟨front, _ :: left, control, rfl, parks _, List.forall_mem_cons.mpr
            ⟨trivial, fun entry member => marks entry (by simp [member])⟩, grows⟩
  | recBind fetched members taken =>
      rw [values, StackValue.map_closure] at taken
      rcases parks.take_values sealed taken with ⟨left, rfl, same, parks⟩
      rcases parks.take_declarations sealed same.symm with ⟨left, rfl, rfl, parks⟩
      exact ⟨front, _ :: left, control, rfl, parks _, List.forall_mem_cons.mpr
        ⟨trivial, fun entry member => marks entry (by simp [member])⟩,
        grows.trans (ClosureTable.grows_addGroup _ _)⟩
  | ref taken =>
      rcases parks.take_value sealed (values.symm.trans taken) with ⟨left, rfl, rfl, parks⟩
      exact ⟨front, _ :: left, control, rfl, .value _ parks, List.forall_mem_cons.mpr
        ⟨trivial, fun entry member => marks entry (by simp [member])⟩, grows⟩
  | blockDeclarations taken =>
      rcases exists_upper_of_cons parks.ne_nil (values.symm.trans taken) with ⟨left, rfl, rfl⟩
      cases parks with
      | blockDeclarations _ parks =>
          exact ⟨front, left, control, rfl, parks,
            fun entry member => marks entry (by simp [member]), grows⟩
  | blockCommands taken =>
      rcases exists_upper_of_cons parks.ne_nil (values.symm.trans taken) with ⟨left, rfl, same⟩
      cases parks with
      | blockCommands _ _ _ parks =>
          rcases same with ⟨rfl, rfl, rfl⟩
          exact ⟨front, _, control, rfl, parks, fun entry member => marks entry (by simp [member]),
            grows.truncate (marks _ List.mem_cons_self)⟩
  | @cond _ _ _ thenBranch elseBranch _ condition taken =>
      rcases parks.take_value sealed (values.symm.trans taken) with ⟨left, rfl, same, parks⟩
      rcases exists_upper_of_cons parks.ne_nil same.symm with ⟨left, rfl, rfl⟩
      cases parks with
      | cond _ parks =>
          refine ⟨Node.branch condition thenBranch elseBranch ++ front, left, ?_, rfl, ?_,
            fun entry member => marks entry (by simp [member]), grows⟩
          · rw [List.append_assoc, control]
          · rw [Control.waiting_append, Control.waiting_branch]
            exact parks
  | @loop _ site _ body _ condition taken =>
      rcases parks.take_value sealed (values.symm.trans taken) with ⟨left, rfl, same, parks⟩
      rcases exists_upper_of_cons parks.ne_nil same.symm with ⟨left, rfl, rfl⟩
      cases parks with
      | loop _ parks =>
          refine ⟨(if condition then [.node body, .node site] else []) ++ front, left, ?_, rfl, ?_,
            fun entry member => marks entry (by simp [member]), grows⟩
          · rw [List.append_assoc, control]
          · rw [Control.waiting_append, Control.waiting_round]
            exact parks
  | print taken =>
      rcases parks.take_value sealed (values.symm.trans taken) with ⟨left, rfl, rfl, parks⟩
      exact ⟨front, left, control, rfl, parks,
        fun entry member => marks entry (by simp [member]), grows⟩
  | @call _ _ _ _ _ _ _ closure bound found arity matched taken =>
      rcases parks.take_values sealed (values.symm.trans taken) with ⟨left, rfl, rfl, parks⟩
      refine ⟨.node closure.body :: .op .blockCommands :: front, .mark before.closures.mark ::
        .region before.region :: .environment before.environment :: left, ?_, ?_,
        .blockCommands _ _ _ parks, ?_, grows⟩
      · simp only [control, List.cons_append]
      · simp only [List.cons_append]
      · simpa [ClosureTable.Precedes] using
          ⟨grows.mark, fun entry member => marks entry (by simp [member])⟩

/-- The opening of a scope takes its actuals and leaves its end, and what that will
restore, below all that the scope does. -/
theorem State.Above.of_opener {image : Image} {entry : Control} {before after : State}
    (rule : Rule image entry before after) (opener : entry.OpensScope image.code) :
    ∃ actuals : List Bindable, ∃ kept front upper, actuals.length = entry.actualCount ∧
      before.values = actuals.map .bindable ++ kept ∧
      after.Above image.code (.op .blockCommands :: before.control)
        (.mark before.closures.mark :: .region before.region ::
          .environment before.environment :: kept) before.closures front upper := by
  cases rule with
  | @block _ declarations commands =>
      exact ⟨[], before.values, [.node declarations, .op .blockDeclarations, .node commands],
        [.declarations .empty], rfl, rfl, rfl, rfl, .blockDeclarations _ .nil,
        by simp [ClosureTable.Precedes], .refl _⟩
  | @call _ _ _ _ _ kept actuals closure bound found arity matched taken =>
      exact ⟨actuals, _, [.node closure.body], [], matched.trans arity, taken, rfl, rfl, .nil,
        by simp, .refl _⟩
  | literal fetched literal =>
      rcases opener with ⟨_, _, isBlock⟩
      cases fetched.symm.trans isBlock
      cases literal
  | agenda fetched agenda =>
      rcases opener with ⟨_, _, isBlock⟩
      cases fetched.symm.trans isBlock
      cases agenda
  | identifier fetched | addressOf fetched | valueOf fetched | abstraction fetched =>
      rcases opener with ⟨_, _, isBlock⟩
      cases fetched.symm.trans isBlock
  | operator combines => exact absurd opener (combines.not_scope image.code).1
  | _ => exact opener.elim

namespace Machine

variable {rest front : List Control} {below upper : ValueStack} {table : ClosureTable}
  {entry : Control} {before after outer inner closed : Machine}

/-- Stacks in step stay so by a step that starts above the boundary. -/
theorem Advances.above (advances : before.Advances after) (sealed : below.IsSealed)
    (above : before.state.Above before.image.code rest below table (entry :: front) upper) :
    ∃ front upper, after.state.Above after.image.code rest below table front upper := by
  rcases advances.rule with ⟨top, left, scheduled, rule⟩
  rcases List.cons.inj (scheduled.symm.trans above.control) with ⟨rfl, rfl⟩
  rw [advances.image_eq]
  exact State.Above.rule sealed rule rfl above.values above.parks above.marks above.grows

/-- Both stacks of a reached state are in step from top to bottom. -/
theorem Reaches.parks {image : Image} {options : Options} {printer : Printer} {machine : Machine}
    (reaches : (load image options printer).Reaches machine) :
    ValueStack.Parks machine.image.code (Control.waiting machine.state.control)
      machine.state.values := by
  have reached : ∃ front upper,
      machine.state.Above machine.image.code [] [] .empty front upper := by
    induction reaches with
    | refl => exact ⟨[.node image.program.root], [], rfl, rfl, .nil, by simp, .refl _⟩
    | tail _ last induction =>
        rcases induction with ⟨front, upper, above⟩
        cases front with
        | nil =>
            rcases last.rule with ⟨entry, rest, scheduled, _⟩
            cases scheduled.symm.trans above.control
        | cons entry front => exact last.above trivial above
  rcases reached with ⟨front, upper, above⟩
  rw [above.control, above.values, List.append_nil, List.append_nil]
  exact above.parks

/-- Within a scope both stacks stay in step above its end. -/
theorem AdvancesInside.above (advances : AdvancesInside rest before after)
    (sealed : below.IsSealed)
    (above : ∃ front upper, before.state.Above before.image.code (.op .blockCommands :: rest) below
      table front upper) :
    ∃ front upper, after.state.Above after.image.code (.op .blockCommands :: rest) below table
      front upper := by
  rcases above with ⟨front, upper, above⟩
  cases front with
  | cons entry front => exact advances.1.above sealed above
  | nil =>
      -- The end of the scope would be carried out, and nothing of it would be left.
      rcases advances.1.scopeChange with ⟨entry, left, scheduled, change⟩
      rcases List.cons.inj (scheduled.symm.trans above.control) with ⟨rfl, same⟩
      have shorter : after.state.control = rest := by
        cases change with
        | closes _ _ _ control => exact control.trans same
        | opens opener => exact opener.elim
        | allocates opcode => cases opcode
        | stays _ notCloser => exact absurd rfl notCloser
      have longer := advances.2.length_le
      rw [shorter] at longer
      exact absurd longer (Nat.not_succ_le_self _)

theorem inside_above (inside : Relation.ReflTransGen (AdvancesInside rest) before after)
    (above : ∃ front upper, before.state.Above before.image.code (.op .blockCommands :: rest) below
      table front upper)
    (sealed : below.IsSealed) :
    ∃ front upper, after.state.Above after.image.code (.op .blockCommands :: rest) below table
      front upper := by
  induction inside with
  | refl => exact above
  | tail _ last induction => exact last.above sealed induction

/-- When a scope is about to be closed, what its start saved is on top. -/
theorem Encloses.above (encloses : Encloses rest outer inner)
    (scheduled : outer.state.control = entry :: rest) :
    ∃ actuals : List Bindable, ∃ kept upper, actuals.length = entry.actualCount ∧
      outer.state.values = actuals.map .bindable ++ kept ∧
      inner.state.Above inner.image.code (.op .blockCommands :: rest)
        (.mark outer.state.closures.mark :: .region outer.state.region ::
          .environment outer.state.environment :: kept) outer.state.closures [] upper := by
  rcases encloses.opener with ⟨opening, scheduledOpening, opener⟩
  rcases List.cons.inj (scheduled.symm.trans scheduledOpening) with ⟨rfl, _⟩
  rcases encloses.inside with ⟨first, opened, inside⟩
  rcases opened.rule with ⟨top, left, scheduledTop, rule⟩
  rcases List.cons.inj (scheduledTop.symm.trans scheduled) with ⟨rfl, rfl⟩
  rcases State.Above.of_opener rule opener with ⟨actuals, kept, front, upper, count, taken, above⟩
  have start := opened.image_eq.symm ▸ above
  rcases inside_above inside ⟨front, upper, start⟩ trivial with ⟨front, upper, above⟩
  have empty : front = [] := by
    have control := above.control
    rw [encloses.closing] at control
    exact List.self_eq_append_left.mp control
  subst empty
  exact ⟨actuals, kept, upper, count, taken, above⟩

/-- The end of a scope leaves the value stack, the environment, the region and the
closure tables as they were before the scope was opened, its actuals gone. -/
theorem Encloses.restores (encloses : Encloses rest outer inner)
    (scheduled : outer.state.control = entry :: rest) (closes : inner.Advances closed) :
    (∃ actuals : List Bindable, actuals.length = entry.actualCount ∧
      outer.state.values = actuals.map .bindable ++ closed.state.values) ∧
    closed.state.environment = outer.state.environment ∧
    closed.state.region = outer.state.region ∧ closed.state.closures = outer.state.closures := by
  rcases encloses.above scheduled with ⟨actuals, kept, upper, count, taken, above⟩
  rcases closes.rule with ⟨top, left, scheduledTop, rule⟩
  rcases List.cons.inj (scheduledTop.symm.trans encloses.closing) with ⟨rfl, rfl⟩
  have values := above.values
  have parks := above.parks
  have grows := above.grows
  generalize closed.state = after at rule ⊢
  cases rule with
  | operator combines => cases combines
  | blockCommands takenLast =>
      have stack := values.symm.trans takenLast
      cases parks with
      | value => cases stack
      | nil =>
          cases stack
          exact ⟨⟨actuals, count, taken⟩, rfl, rfl, grows.truncate_mark⟩

/-! ## Conditionals and loops find their nodes -/

/-- Whether a fault is no missing construct. -/
def FindsConstructs (fault : Fault) : Prop :=
  ∀ construct, fault ≠ .undefinedConstruct construct

open BlockMachine.Action ValueStack StackValue in
/-- What a condition leaves on a stack in step is its value over the parked node. -/
theorem exists_parked_of_condition {code : Code} {opcode : Opcode} {waiting : List Opcode}
    {state middle last : State} {condition : Bool} {site : NodeId}
    (parks : Parks code (opcode :: waiting) state.values)
    (popped : onValues popBoolean state = .ok condition middle)
    (poppedSite : onValues popPending middle = .ok site last) :
    ∃ rest, Parks code (opcode :: waiting) (.pending site :: rest) := by
  rcases popAs_eq_ok_iff.mp popped with ⟨top, isBoolean, below, stack, rfl⟩
  rcases popAs_eq_ok_iff.mp poppedSite with ⟨_, isPending, rest, rfl, _⟩
  rw [stack, boolean?_eq_some_iff.mp isBoolean, pending?_eq_some_iff.mp isPending] at parks
  cases parks with
  | value _ parks => exact ⟨rest, parks⟩

open BlockMachine.Action in
theorem raisesOnly_applyCond {image : Image} {waiting : List Opcode} {state : State}
    (parks : ValueStack.Parks image.code (.cond :: waiting) state.values) :
    RaisesOnly FindsConstructs (applyCond image) state := by
  refine .bind (.popAs (by simp [FindsConstructs]) (by simp [FindsConstructs])) ?_
  intro condition middle popped
  refine .bind (.popAs (by simp [FindsConstructs]) (by simp [FindsConstructs])) ?_
  intro site last poppedSite
  rcases exists_parked_of_condition parks popped poppedSite with ⟨_, parks⟩
  cases parks with
  | @cond _ _ _ elseBranch _ _ fetched =>
      refine .bind (.fetch fetched) ?_
      intro node _ found
      cases fetched.symm.trans (fetch_eq_ok_iff.mp found).1
      cases condition with
      | true => exact .of_ok rfl
      | false => cases elseBranch <;> exact .of_ok rfl

open BlockMachine.Action in
theorem raisesOnly_applyLoop {image : Image} {waiting : List Opcode} {state : State}
    (parks : ValueStack.Parks image.code (.loop :: waiting) state.values) :
    RaisesOnly FindsConstructs (applyLoop image) state := by
  refine .bind (.popAs (by simp [FindsConstructs]) (by simp [FindsConstructs])) ?_
  intro condition middle popped
  refine .bind (.popAs (by simp [FindsConstructs]) (by simp [FindsConstructs])) ?_
  intro site last poppedSite
  rcases exists_parked_of_condition parks popped poppedSite with ⟨_, parks⟩
  cases parks with
  | loop fetched =>
      refine .bind (.fetch fetched) ?_
      intro node _ found
      cases fetched.symm.trans (fetch_eq_ok_iff.mp found).1
      cases condition <;> exact .of_ok rfl

theorem Reaches.findsConstructs {image : Image} {options : Options} {printer : Printer}
    {machine : Machine} (reaches : (load image options printer).Reaches machine) {opcode : Opcode}
    (scheduled : machine.state.control = .op opcode :: rest)
    (branches : opcode = .cond ∨ opcode = .loop) {failure : Failure}
    (failed : machine.step = (.failed failure, after)) : FindsConstructs failure.fault := by
  have parks := reaches.parks
  rw [scheduled] at parks
  rcases step_eq_failed failed with ⟨entry, left, same, ⟨limit, exceeded⟩ | raised⟩
  · simp [FindsConstructs, exceeded]
  · rcases List.cons.inj (same.symm.trans scheduled) with ⟨rfl, rfl⟩
    have begun : (begin machine.state left).values = machine.state.values := rfl
    rcases branches with rfl | rfl
    · exact raisesOnly_applyCond (begun ▸ parks) _ _ raised
    · exact raisesOnly_applyLoop (begun ▸ parks) _ _ raised

/-- In every reached state the waiting opcodes and the parked entries follow one
another in the same order. Hence a conditional and a loop find their own node, and
the end of a block or a call restores what there was at its start. -/
theorem parked_entries_in_step {image : Image} {options : Options} {printer : Printer}
    {machine : Machine} (reaches : (load image options printer).Reaches machine) :
    ValueStack.Parks image.code (Control.waiting machine.state.control) machine.state.values ∧
    (∀ opcode rest failure after, machine.state.control = .op opcode :: rest →
      opcode = .cond ∨ opcode = .loop → machine.step = (.failed failure, after) →
      ∀ construct, failure.fault ≠ .undefinedConstruct construct) ∧
    ∀ entry rest inner closed, machine.state.control = entry :: rest →
      Encloses rest machine inner → inner.Advances closed →
      (∃ actuals : List Bindable, actuals.length = entry.actualCount ∧
        machine.state.values = actuals.map .bindable ++ closed.state.values) ∧
      closed.state.environment = machine.state.environment ∧
      closed.state.region = machine.state.region ∧
      closed.state.closures = machine.state.closures := by
  have same : machine.image = image := reaches.image_eq
  refine ⟨same ▸ reaches.parks, ?_, ?_⟩
  · intro opcode rest failure after scheduled branches failed
    exact reaches.findsConstructs scheduled branches failed
  · intro entry rest inner closed scheduled encloses closes
    exact encloses.restores scheduled closes

/-- A block that declares a function and calls it with `true`; the function prints
its argument if it holds. -/
def conditionalCallee : Image where
  program := {
    code := { Code.empty with
      nodes := #[.truth true, .identifier ⟨1⟩, .identifier ⟨1⟩, .print ⟨2⟩,
        .conditional ⟨1⟩ ⟨3⟩ none, .noOp, .block ⟨5⟩ ⟨4⟩, .abstraction ⟨0, 1⟩ ⟨6⟩,
        .bind ⟨2⟩ ⟨7⟩, .call ⟨2⟩ ⟨0, 1⟩, .block ⟨8⟩ ⟨9⟩]
      nodeLists := ⟨#[⟨0⟩]⟩
      nameLists := ⟨#[⟨1⟩]⟩ }
    root := ⟨10⟩ }
  names := .initial

/-- The call takes its actual off, and its end finds the stack that was below. -/
theorem parked_entries_in_step_conditionalCallee :
    let start := load conditionalCallee .unbounded .silent
    let outer := (start.runFor 7).2
    let branching := (start.runFor 13).2
    let inner := (start.runFor 18).2
    let closed := (start.runFor 19).2
    start.Reaches outer ∧ start.Reaches branching ∧
      branching.state.control.head? = some (.op .cond) ∧
      ValueStack.Parks conditionalCallee.code
        [.cond, .blockCommands, .blockCommands, .blockCommands] branching.state.values ∧
      Encloses [.op .blockCommands] outer inner ∧ inner.Advances closed ∧
      ∃ actual, outer.state.values = .bindable actual :: closed.state.values := by
  intro start outer branching inner closed
  have reaches : start.Reaches outer := reaches_runFor (by decide +kernel)
  have reachesBranching : start.Reaches branching := reaches_runFor (by decide +kernel)
  have steps : ∀ made < 18, 8 ≤ made → (start.runFor (made + 1)).1 = none ∧
      [.op .blockCommands, .op .blockCommands] <:+ (start.runFor (made + 1)).2.state.control := by
    decide +kernel
  have inside : Relation.ReflTransGen (AdvancesInside [.op .blockCommands])
      (start.runFor 8).2 inner := by
    refine reflTransGen_runFor (by decide) ?_
    intro made below atLeast
    have step := steps made below atLeast
    exact ⟨advances_runFor step.1, step.2⟩
  have scheduled : outer.state.control = [.op (.call ⟨2⟩ 1), .op .blockCommands] := by
    decide +kernel
  have encloses : Encloses [.op .blockCommands] outer inner :=
    { opener := ⟨.op (.call ⟨2⟩ 1), scheduled, trivial⟩
      inside := ⟨(start.runFor 8).2, advances_runFor (by decide +kernel), inside⟩
      closing := by decide +kernel }
  have closes : inner.Advances closed := advances_runFor (by decide +kernel)
  have restored := (parked_entries_in_step reaches).2.2 _ _ _ _ scheduled encloses closes
  rcases restored.1 with ⟨actuals, count, values⟩
  rcases List.length_eq_one_iff.mp count with ⟨actual, rfl⟩
  have waiting : Control.waiting branching.state.control =
      [.cond, .blockCommands, .blockCommands, .blockCommands] := by decide +kernel
  have parks := (parked_entries_in_step reachesBranching).1
  rw [waiting] at parks
  exact ⟨reaches, reachesBranching, by decide +kernel, parks, encloses, closes, actual, values⟩

end Machine

end BlockMachine
