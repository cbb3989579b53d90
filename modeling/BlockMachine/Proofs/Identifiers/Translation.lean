import BlockMachine.Proofs.Identifiers.Code

namespace BlockMachine

/-! # Translation of renamed programs

A program and a renamed one are translated alike, whatever names either table has
before: to code that matches, or to the same rejection but for its identifiers. -/

/-- A check of shapes never speaks of identifiers. -/
theorem Construct.rename_of_requireBoolean {construct : Construct} {kind : OperandKind}
    {rejection : Rejection} {change : String → String}
    (rejected : construct.requireBoolean kind = .error rejection) :
    rejection.rename change = rejection := by
  cases kind <;> cases rejected <;> rfl

theorem BinaryOperator.rename_of_check {op : BinaryOperator} {lhs rhs : OperandKind}
    {rejection : Rejection} {change : String → String}
    (rejected : op.check lhs rhs = .error rejection) :
    rejection.rename change = rejection := by
  cases op with
  | arith op => cases lhs <;> cases rhs <;> cases rejected <;> rfl
  | logic op => cases op <;> cases lhs <;> cases rhs <;> cases rejected <;> rfl

/-- Whether two drafts have the same code under the names that correspond. -/
def Draft.Matches (change : String → String) (draft other : Draft) : Prop :=
  draft.code.Matches (Name.Corresponds change draft.names other.names) other.code

namespace Build

/-- Whether two pieces of translation both succeed, with results and drafts that match,
or are rejected alike. Names that have corresponded go on corresponding. -/
inductive Tracked (change : String → String) (Given : Name → Name → Prop)
    (Value : (Name → Name → Prop) → α → β → Prop) :
    EStateM.Result Rejection Draft α → EStateM.Result Rejection Draft β → Prop where
  | ok {value : α} {otherValue : β} {draft other : Draft}
      (drafts : draft.Matches change other)
      (keeps : Subrelation Given (Name.Corresponds change draft.names other.names))
      (values : Value (Name.Corresponds change draft.names other.names) value otherValue) :
      Tracked change Given Value (.ok value draft) (.ok otherValue other)
  | error {rejection : Rejection} {draft other : Draft} :
      Tracked change Given Value (.error rejection draft) (.error (rejection.rename change) other)

/-- Whether an action is tracked by another one from matching drafts on, if some names
already correspond. -/
def Tracks (change : String → String) (Given : Name → Name → Prop)
    (Value : (Name → Name → Prop) → α → β → Prop) (action : Build α) (other : Build β) : Prop :=
  ∀ draft otherDraft, draft.Matches change otherDraft →
    Subrelation Given (Name.Corresponds change draft.names otherDraft.names) →
    Tracked change Given Value (action draft) (other otherDraft)

variable {change : String → String} {Given : Name → Name → Prop}
  {Value : (Name → Name → Prop) → α → β → Prop}

theorem Tracked.weaken {Now : Name → Name → Prop} (given : Subrelation Given Now)
    {result : EStateM.Result Rejection Draft α} {other : EStateM.Result Rejection Draft β}
    (tracked : Tracked change Now Value result other) : Tracked change Given Value result other := by
  cases tracked with
  | ok drafts keeps values => exact .ok drafts (fun same => keeps (given same)) values
  | error => exact .error

namespace Tracks

theorem bind {Result : (Name → Name → Prop) → α' → β' → Prop} {action : Build α}
    {other : Build β} {next : α → Build α'} {otherNext : β → Build β'}
    (first : Tracks change Given Value action other)
    (onward : ∀ names others value otherValue,
      Subrelation Given (Name.Corresponds change names others) →
      Value (Name.Corresponds change names others) value otherValue →
      Tracks change (Name.Corresponds change names others) Result (next value)
        (otherNext otherValue)) :
    Tracks change Given Result (action >>= next) (other >>= otherNext) := by
  intro draft otherDraft drafts given
  have started := first draft otherDraft drafts given
  simp only [Bind.bind, EStateM.bind]
  generalize action draft = result at started
  generalize other otherDraft = otherResult at started
  cases started with
  | error => exact .error
  | @ok value otherValue after otherAfter drafts keeps values =>
      exact (onward _ _ value otherValue keeps values after otherAfter drafts
        fun same => same).weaken keeps

/-- An action whose result is the same in both. -/
theorem bind_eq {Result : (Name → Name → Prop) → α' → β' → Prop} {action other : Build α}
    {next : α → Build α'} {otherNext : α → Build β'}
    (first : Tracks change Given (fun _ => Eq) action other)
    (onward : ∀ Now value, Subrelation Given Now →
      Tracks change Now Result (next value) (otherNext value)) :
    Tracks change Given Result (action >>= next) (other >>= otherNext) :=
  first.bind fun _ _ value _ given same => same ▸ onward _ value given

theorem pure {value : α} {otherValue : β}
    (values : ∀ Now, Subrelation Given Now → Value Now value otherValue) :
    Tracks change Given Value (Pure.pure value) (Pure.pure otherValue) :=
  fun _ _ drafts given => .ok drafts given (values _ given)

theorem reject {rejection other : Rejection} (same : other = rejection.rename change) :
    Tracks change Given Value (reject rejection) (reject other) :=
  fun _ _ _ _ => same ▸ .error

/-- A check that does not speak of identifiers. -/
theorem checked {outcome : Except Rejection α} (silent : ∀ rejection,
    outcome = .error rejection → rejection.rename change = rejection) :
    Tracks change Given (fun _ => Eq) (checked outcome) (checked outcome) := by
  cases outcome with
  | ok value => exact pure fun _ _ => rfl
  | error rejection => exact reject (silent rejection rfl).symm

theorem intern (text : String) :
    Tracks change Given (fun Now => Now) (intern text) (intern (change text)) := by
  intro draft otherDraft drafts given
  have grows : Subrelation (Name.Corresponds change draft.names otherDraft.names)
      (Name.Corresponds change (draft.names.intern text).2
        (otherDraft.names.intern (change text)).2) := by
    rintro name other ⟨known, found, foundOther⟩
    exact ⟨known, NameTable.find?_of_prefix (draft.names.prefix_intern _) found,
      NameTable.find?_of_prefix (otherDraft.names.prefix_intern _) foundOther⟩
  exact .ok (drafts.mono grows) (fun same => grows (given same))
    ⟨text, draft.names.find?_intern text, otherDraft.names.find?_intern (change text)⟩

theorem alloc {node other : Node} (nodes : node.Matches Given other) :
    Tracks change Given (fun _ => Eq) (alloc node) (alloc other) := by
  intro draft otherDraft drafts given
  have grown := Code.Matches.alloc drafts (nodes.mono given)
  exact .ok grown.2 given grown.1

/-- A node without names is allocated in both drafts. -/
theorem allocNameless {node : Node} (nameless : node.names = []) :
    Tracks change Given (fun _ => Eq) (Build.alloc node) (Build.alloc node) :=
  alloc (.nameless nameless)

theorem allocActuals (ids : List NodeId) :
    Tracks change Given (fun _ => Eq) (allocActuals ids) (allocActuals ids) := by
  intro draft otherDraft drafts given
  have grown := Code.Matches.allocActuals drafts ids
  exact .ok grown.2 given grown.1

theorem allocFormals {formals others : List Name} (named : List.Forall₂ Given formals others) :
    Tracks change Given (fun _ => Eq) (allocFormals formals) (allocFormals others) := by
  intro draft otherDraft drafts given
  have grown := Code.Matches.allocFormals drafts (named.imp fun _ _ => given)
  exact .ok grown.2 given grown.1

theorem allocGroup {bindings others : List Binding}
    (entries : List.Forall₂ (EntryMatches Given) bindings others) :
    Tracks change Given (fun _ => Eq) (allocGroup bindings) (allocGroup others) := by
  intro draft otherDraft drafts given
  have grown := Code.Matches.allocGroup drafts (entries.imp fun _ _ => EntryMatches.mono given)
  exact .ok grown.2 given grown.1

end Tracks

/-! ## Sequences and expressions -/

theorem tracks_sequenceFrom (first : NodeId) (rest : List NodeId) :
    Tracks change Given (fun _ => Eq) (sequenceFrom first rest) (sequenceFrom first rest) := by
  induction rest generalizing first Given with
  | nil => exact .pure fun _ _ => rfl
  | cons second rest induction =>
      exact (Tracks.allocNameless rfl).bind_eq fun _ both _ => induction both

theorem tracks_sequence (ids : List NodeId) :
    Tracks change Given (fun _ => Eq) (sequence ids) (sequence ids) := by
  cases ids with
  | nil => exact .allocNameless rfl
  | cons first rest => exact tracks_sequenceFrom first rest

theorem tracks_expression (expr : Expr) :
    Tracks change Given (fun _ => Eq) (expression expr) (expression (expr.rename change)) := by
  induction expr generalizing Given with
  | ident text =>
      exact (Tracks.intern text).bind fun _ _ _ _ _ same =>
        (Tracks.alloc (.identifier same)).bind_eq fun _ _ _ => .pure fun _ _ => rfl
  | addressOf text =>
      exact (Tracks.intern text).bind fun _ _ _ _ _ same =>
        (Tracks.alloc (.addressOf same)).bind_eq fun _ _ _ => .pure fun _ _ => rfl
  | valueOf text =>
      exact (Tracks.intern text).bind fun _ _ _ _ _ same =>
        (Tracks.alloc (.valueOf same)).bind_eq fun _ _ _ => .pure fun _ _ => rfl
  | num value | bool value =>
      exact (Tracks.allocNameless rfl).bind_eq fun _ _ _ => .pure fun _ _ => rfl
  | not operand induction =>
      exact induction.bind_eq fun _ _ _ =>
        (Tracks.checked fun _ => Construct.rename_of_requireBoolean).bind_eq fun _ _ _ =>
        (Tracks.allocNameless rfl).bind_eq fun _ _ _ => .pure fun _ _ => rfl
  | binary lexeme lhs rhs inductionLhs inductionRhs =>
      simp only [expression, Expr.rename]
      cases BinaryOperator.ofLexeme? lexeme with
      | none => exact .reject rfl
      | some op =>
          exact inductionLhs.bind_eq fun _ _ _ => inductionRhs.bind_eq fun _ _ _ =>
            (Tracks.checked fun _ => BinaryOperator.rename_of_check).bind_eq fun _ _ _ =>
            (Tracks.allocNameless (Node.names_ofOperator op _ _)).bind_eq fun _ _ _ =>
            .pure fun _ _ => rfl

theorem tracks_value (expr : Expr) :
    Tracks change Given (fun _ => Eq) (value expr) (value (expr.rename change)) :=
  (tracks_expression expr).bind_eq fun _ _ _ => .pure fun _ _ => rfl

theorem tracks_values (exprs : List Expr) :
    Tracks change Given (fun _ => Eq) (values exprs) (values (exprs.map (Expr.rename change))) := by
  induction exprs generalizing Given with
  | nil => exact .pure fun _ _ => rfl
  | cons expr exprs induction =>
      exact (tracks_value expr).bind_eq fun _ _ _ => induction.bind_eq fun _ _ _ =>
        .pure fun _ _ => rfl

theorem tracks_condition (construct : Construct) (test : Expr) :
    Tracks change Given (fun _ => Eq) (condition construct test)
      (condition construct (test.rename change)) :=
  (tracks_expression test).bind_eq fun _ _ _ =>
    (Tracks.checked fun _ => Construct.rename_of_requireBoolean).bind_eq fun _ _ _ =>
    .pure fun _ _ => rfl

/-! ## Declarations and commands -/

/-- A formal repeats another one if it does after both have been changed. -/
theorem tracks_formals (injective : Function.Injective change) (function : String)
    {known others : List Name} (named : List.Forall₂ Given known others) (texts : List String) :
    Tracks change Given (fun Now => List.Forall₂ Now) (formals function known texts)
      (formals (change function) others (texts.map change)) := by
  induction texts generalizing Given known others with
  | nil => exact .pure fun _ given => named.imp fun _ _ => given
  | cons text texts induction =>
      refine (Tracks.intern text).bind fun table otherTable name other given same => ?_
      have namedNow := named.imp fun _ _ => given
      have repeated : name ∈ known ↔ other ∈ others :=
        List.rel_mem (Name.biUnique_corresponds injective table otherTable) same namedNow
      simp only [List.contains_iff_mem, repeated]
      split
      · exact .reject rfl
      · exact induction (List.rel_append namedNow (.cons same .nil))

mutual
theorem tracks_block (injective : Function.Injective change) : (tree : Block) →
    {Given : Name → Name → Prop} →
    Tracks change Given (fun _ => Eq) (block tree) (block (tree.rename change))
  | .mk parts body, _ =>
      (tracks_declarations injective parts).bind_eq fun _ declared _ =>
        (tracks_sequence declared).bind_eq fun _ _ _ =>
        (tracks_commands injective body).bind_eq fun _ commanded _ =>
        (tracks_sequence commanded).bind_eq fun _ _ _ => .allocNameless rfl
termination_by structural tree => tree

theorem tracks_function (injective : Function.Injective change) : (tree : Function) →
    {Given : Name → Name → Prop} →
    Tracks change Given (fun Now => EntryMatches Now) (function tree)
      (function (tree.rename change))
  | .mk text parameters body, _ =>
      (tracks_formals injective text .nil parameters).bind fun _ _ _ _ _ named =>
        (Tracks.allocFormals named).bind_eq fun _ _ _ =>
        (tracks_block injective body).bind_eq fun _ _ _ =>
        (Tracks.allocNameless rfl).bind_eq fun _ _ _ =>
        (Tracks.intern text).bind fun _ _ _ _ _ same => .pure fun _ given => ⟨given same, rfl⟩
termination_by structural tree => tree

theorem tracks_functions (injective : Function.Injective change) : (trees : List Function) →
    {Given : Name → Name → Prop} →
    Tracks change Given (fun Now => List.Forall₂ (EntryMatches Now)) (functions trees)
      (functions (Function.renameAll change trees))
  | [], _ => .pure fun _ _ => .nil
  | first :: rest, _ => (tracks_function injective first).bind fun _ _ _ _ _ head =>
      (tracks_functions injective rest).bind fun _ _ _ _ given others => .pure fun _ givenNow =>
        .cons (head.mono fun same => givenNow (given same))
          (others.imp fun _ _ => EntryMatches.mono givenNow)
termination_by structural trees => trees

theorem tracks_declaration (injective : Function.Injective change) : (tree : Declaration) →
    {Given : Name → Name → Prop} →
    Tracks change Given (fun _ => Eq) (declaration tree) (declaration (tree.rename change))
  | .var text initial, _ => (tracks_value initial).bind_eq fun _ _ _ =>
      (Tracks.allocNameless rfl).bind_eq fun _ _ _ => (Tracks.intern text).bind
      fun _ _ _ _ _ same => .alloc (.bind same _)
  | .const text expr, _ => (tracks_value expr).bind_eq fun _ _ _ => (Tracks.intern text).bind
      fun _ _ _ _ _ same => .alloc (.bind same _)
  | .function declared, _ => by
      refine (tracks_function injective declared).bind ?_
      rintro _ _ ⟨name, _⟩ ⟨other, closure⟩ _ ⟨same, rfl⟩
      exact .alloc (.bind same closure)
  | .recursive [], _ => .reject rfl
  | .recursive (first :: rest), _ => (tracks_function injective first).bind fun _ _ _ _ _ head =>
      (tracks_functions injective rest).bind fun _ _ _ _ given others =>
      (Tracks.allocGroup (.cons (head.mono given) others)).bind_eq fun _ _ _ =>
      .allocNameless rfl
termination_by structural tree => tree

theorem tracks_declarations (injective : Function.Injective change) : (trees : List Declaration) →
    {Given : Name → Name → Prop} →
    Tracks change Given (fun _ => Eq) (declarations trees)
      (declarations (Declaration.renameAll change trees))
  | [], _ => .pure fun _ _ => rfl
  | first :: rest, _ => (tracks_declaration injective first).bind_eq fun _ _ _ =>
      (tracks_declarations injective rest).bind_eq fun _ _ _ => .pure fun _ _ => rfl
termination_by structural trees => trees

theorem tracks_command (injective : Function.Injective change) : (tree : Command) →
    {Given : Name → Name → Prop} →
    Tracks change Given (fun _ => Eq) (command tree) (command (tree.rename change))
  | .nop, _ => .allocNameless rfl
  | .assign text expr, _ => (tracks_value expr).bind_eq fun _ _ _ => (Tracks.intern text).bind
      fun _ _ _ _ _ same => .alloc (.assign same _)
  | .loop test body, _ => (tracks_condition .loop test).bind_eq fun _ _ _ =>
      (tracks_commands injective body).bind_eq fun _ commanded _ =>
      (tracks_sequence commanded).bind_eq fun _ _ _ => .allocNameless rfl
  | .ifThen test body, _ => (tracks_condition .conditional test).bind_eq fun _ _ _ =>
      (tracks_commands injective body).bind_eq fun _ commanded _ =>
      (tracks_sequence commanded).bind_eq fun _ _ _ => .allocNameless rfl
  | .ifThenElse test thenCommands elseCommands, _ =>
      (tracks_condition .conditional test).bind_eq fun _ _ _ =>
      (tracks_commands injective thenCommands).bind_eq fun _ commanded _ =>
      (tracks_sequence commanded).bind_eq fun _ _ _ =>
      (tracks_commands injective elseCommands).bind_eq fun _ commanded _ =>
      (tracks_sequence commanded).bind_eq fun _ _ _ => .allocNameless rfl
  | .block inner, _ => tracks_block injective inner
  | .print expr, _ => (tracks_value expr).bind_eq fun _ _ _ => .allocNameless rfl
  | .call text exprs, _ => (tracks_values exprs).bind_eq fun _ ids _ =>
      (Tracks.intern text).bind fun _ _ _ _ _ same =>
      (Tracks.allocActuals ids).bind_eq fun _ _ given => .alloc (.call (given same) _)
termination_by structural tree => tree

theorem tracks_commands (injective : Function.Injective change) : (trees : List Command) →
    {Given : Name → Name → Prop} →
    Tracks change Given (fun _ => Eq) (commands trees)
      (commands (Command.renameAll change trees))
  | [], _ => .pure fun _ _ => rfl
  | first :: rest, _ => (tracks_command injective first).bind_eq fun _ _ _ =>
      (tracks_commands injective rest).bind_eq fun _ _ _ => .pure fun _ _ => rfl
termination_by structural trees => trees
end

theorem tracks_program (injective : Function.Injective change) (body : List Command) :
    Tracks change Given (fun _ => Eq) (program body) (program (Command.renameAll change body)) :=
  (tracks_commands injective body).bind_eq fun _ ids _ => tracks_sequence ids

end Build

end BlockMachine
