import BlockMachine.Proofs.Machine.Reachability
import BlockMachine.Proofs.Memory.Liveness

namespace BlockMachine

/-! # Open scopes

Blocks and calls open scopes, and the opcode that they leave on the control stack
closes them. What a rule does to the regions of the open scopes is one of four
things. -/

namespace ValueStack

/-- The regions saved on a value stack, that of the outermost scope first. -/
def savedRegions : ValueStack → List Region
  | [] => []
  | .region saved :: rest => savedRegions rest ++ [saved]
  | _ :: rest => savedRegions rest

@[simp] theorem savedRegions_append (top rest : ValueStack) :
    savedRegions (top ++ rest) = savedRegions rest ++ savedRegions top := by
  induction top with
  | nil => simp [savedRegions]
  | cons head top induction => cases head <;> simp [savedRegions, induction]

@[simp] theorem savedRegions_map_bindable (values : List Bindable) :
    savedRegions (values.map .bindable) = [] := by
  induction values with
  | nil => rfl
  | cons head rest induction => exact induction

@[simp] theorem savedRegions_map_storable (values : List Storable) :
    savedRegions (values.map .storable) = [] := by
  induction values with
  | nil => rfl
  | cons head rest induction => exact induction

@[simp] theorem savedRegions_map_closure (references : List ClosureRef) :
    savedRegions (references.map .closure) = [] := by
  induction references with
  | nil => rfl
  | cons head rest induction => exact induction

end ValueStack

namespace State

/-- The regions of all open scopes, that of the innermost scope last. -/
def regions (state : State) : List Region :=
  ValueStack.savedRegions state.values ++ [state.region]

/-- How many open scopes the control stack is to close. -/
def closers (state : State) : Nat :=
  state.control.count (.op .blockCommands)

end State

/-- Whether carrying out an entry opens a scope. -/
def Control.OpensScope (code : Code) : Control → Prop
  | .node site =>
    ∃ declarations commands, code.node? site = some (.block declarations commands)
  | .op (.call _ _) => True
  | .op _ => False

/-- What a rule may do to the open scopes. -/
inductive ScopeChange (code : Code) (entry : Control) (before after : State) : Prop
  | opens (opener : entry.OpensScope code)
      (regions : after.regions = before.regions ++ [.empty])
      (store : after.store = before.store)
      (closers : after.closers = before.closers + 1)
  | closes (closer : entry = .op .blockCommands)
      (regions : before.regions = after.regions ++ [before.region])
      (store : after.store = before.region.release before.store)
      (control : after.control = before.control)
  | allocates (opcode : entry = .op .ref)
      (saved : after.values.savedRegions = before.values.savedRegions)
      (region : after.region = before.region.push (before.store.allocate value).1)
      (store : after.store = (before.store.allocate value).2)
      (closers : after.closers = before.closers)
  | stays (notOpener : ¬entry.OpensScope code) (notCloser : entry ≠ .op .blockCommands)
      (saved : after.values.savedRegions = before.values.savedRegions)
      (region : after.region = before.region)
      (live : ∀ address, after.store.isLive address ↔ before.store.isLive address)
      (size : after.store.cells.size = before.store.cells.size)
      (closers : after.closers = before.closers)

theorem Node.parked_of_agenda? {code : Code} {site : NodeId} {node : Node}
    {parked : List StackValue} {scheduled : List Control}
    (agenda : node.agenda? code site = some (parked, scheduled)) :
    ValueStack.savedRegions parked = [] ∧ Control.op .blockCommands ∉ scheduled := by
  cases node with
  | _ => cases agenda <;> simp [ValueStack.savedRegions]

theorem Node.not_mem_branch (condition : Bool) (thenBranch : NodeId)
    (elseBranch : Option NodeId) :
    Control.op .blockCommands ∉ Node.branch condition thenBranch elseBranch := by
  cases condition <;> simp [Node.branch]

theorem Control.not_opensScope_of_fetched {code : Code} {site : NodeId} {node : Node}
    (fetched : code.node? site = some node)
    (notBlock : ∀ declarations commands, node ≠ .block declarations commands) :
    ¬(Control.node site).OpensScope code := by
  intro opens
  rcases opens with ⟨declarations, commands, isBlock⟩
  exact notBlock declarations commands (Option.some.inj (fetched.symm.trans isBlock))

theorem Opcode.Combines.not_scope {opcode : Opcode} {operands : List Storable}
    {result : Storable} (combines : Combines opcode operands result) (code : Code) :
    ¬(Control.op opcode).OpensScope code ∧ Control.op opcode ≠ .op .blockCommands := by
  cases combines <;> simp [Control.OpensScope]

open ValueStack in
theorem ScopeChange.of_rule {image : Image} {entry : Control} {before after : State}
    (rule : Rule image entry before after) : ScopeChange image.code entry before after := by
  cases rule with
  | literal fetched literal =>
      refine .stays (Control.not_opensScope_of_fetched fetched ?_) (by simp) rfl rfl
        (fun _ => Iff.rfl) rfl rfl
      intro declarations commands isBlock
      subst isBlock
      cases literal
  | identifier fetched bound held =>
      exact .stays (Control.not_opensScope_of_fetched fetched (by simp)) (by simp) rfl rfl
        (fun _ => Iff.rfl) rfl rfl
  | addressOf fetched bound =>
      exact .stays (Control.not_opensScope_of_fetched fetched (by simp)) (by simp) rfl rfl
        (fun _ => Iff.rfl) rfl rfl
  | valueOf fetched bound pointer held =>
      exact .stays (Control.not_opensScope_of_fetched fetched (by simp)) (by simp) rfl rfl
        (fun _ => Iff.rfl) rfl rfl
  | agenda fetched agenda functions =>
      have inert := Node.parked_of_agenda? agenda
      refine .stays (Control.not_opensScope_of_fetched fetched ?_) (by simp)
        (by simp [inert.1]) rfl (fun _ => Iff.rfl) rfl ?_
      · intro declarations commands isBlock
        subst isBlock
        cases agenda
      · simp [State.closers, List.count_eq_zero.mpr inert.2]
  | block fetched =>
      exact .opens ⟨_, _, fetched⟩ (by simp [State.regions, savedRegions]) rfl
        (by simp [State.closers])
  | abstraction fetched =>
      exact .stays (Control.not_opensScope_of_fetched fetched (by simp)) (by simp) rfl rfl
        (fun _ => Iff.rfl) rfl rfl
  | operator combines taken =>
      have inert := combines.not_scope image.code
      exact .stays inert.1 inert.2 (by simp [taken, savedRegions, StackValue.storable]) rfl
        (fun _ => Iff.rfl) rfl rfl
  | assign taken bound written =>
      refine .stays id (by simp) (by simp [taken, savedRegions, StackValue.storable]) rfl
        (Store.isLive_of_write written) (Store.size_of_write written) rfl
  | bind taken =>
      exact .stays id (by simp) (by simp [taken, savedRegions]) rfl (fun _ => Iff.rfl) rfl rfl
  | recBind fetched members taken =>
      exact .stays id (by simp) (by simp [taken, savedRegions]) rfl (fun _ => Iff.rfl) rfl rfl
  | ref taken =>
      exact .allocates rfl (by simp [taken, savedRegions, StackValue.storable,
        StackValue.location]) rfl rfl rfl
  | blockDeclarations taken =>
      exact .stays id (by simp) (by simp [taken, savedRegions]) rfl (fun _ => Iff.rfl) rfl rfl
  | blockCommands taken =>
      exact .closes rfl (by simp [State.regions, taken, savedRegions]) rfl rfl
  | cond taken fetched =>
      refine .stays id (by simp) (by simp [taken, savedRegions, StackValue.boolean]) rfl
        (fun _ => Iff.rfl) rfl ?_
      simp [State.closers, List.count_eq_zero.mpr (Node.not_mem_branch _ _ _)]
  | loop taken fetched =>
      refine .stays id (by simp) (by simp [taken, savedRegions, StackValue.boolean]) rfl
        (fun _ => Iff.rfl) rfl ?_
      simp only [State.closers, List.count_append]
      split <;> simp
  | print taken =>
      exact .stays id (by simp) (by simp [taken, savedRegions]) rfl (fun _ => Iff.rfl) rfl rfl
  | call bound found arity matched taken entered =>
      exact .opens trivial (by simp [State.regions, taken, savedRegions]) rfl
        (by simp [State.closers])

end BlockMachine
