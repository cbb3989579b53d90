import BlockMachine.Proofs.Identifiers.Interning
import BlockMachine.Proofs.Surface.Traversal
import BlockMachine.Proofs.Translation.Layout

namespace BlockMachine

/-! # Names given by translation

Translation reads through a program and asks for the name of each identifier that it comes
upon, until it comes upon something that is wrong. Names that were asked for by then are
kept, whether the program is accepted or not. -/

namespace Build

/-- Whether an outcome is what findings lead to, `names` having been in use before. There is
a result if all of them are identifiers, and otherwise a rejection for the first one that is
not. Either way the identifiers before have been interned, and nothing else. -/
def FollowsFrom (findings : List Finding) (names : NameTable) (Result : α → Prop) :
    EStateM.Result Rejection Draft α → Prop
  | .ok value after =>
    Result value ∧ ∃ texts, findings = texts.map .identifier ∧ after.names = names.internAll texts
  | .error rejection after =>
    ∃ texts unread, findings = texts.map .identifier ++ .violation rejection :: unread ∧
      after.names = names.internAll texts

/-- Whether an action acts on findings, from any draft on. -/
def Reads (findings : List Finding) (Result : α → Prop) (action : Build α) : Prop :=
  ∀ draft, FollowsFrom findings draft.names Result (action draft)

variable {first second findings : List Finding} {Started : α → Prop} {Result : β → Prop}

theorem FollowsFrom.bind {action : Build α} {next : α → Build β} {draft : Draft}
    (started : FollowsFrom first draft.names Started (action draft))
    (continued : ∀ value after, action draft = .ok value after → Started value →
      FollowsFrom second after.names Result (next value after)) :
    FollowsFrom (first ++ second) draft.names Result ((action >>= next) draft) := by
  simp only [Bind.bind, EStateM.bind]
  cases built : action draft with
  | error rejection after =>
      rw [built] at started
      rcases started with ⟨texts, unread, rfl, names⟩
      exact ⟨texts, unread ++ second, by rw [List.append_assoc, List.cons_append], names⟩
  | ok value after =>
      rw [built] at started
      rcases started with ⟨holds, texts, rfl, names⟩
      have continued := continued value after built holds
      rw [names] at continued
      simp only
      generalize next value after = outcome at continued
      cases outcome with
      | ok result last =>
          rcases continued with ⟨holds, others, rfl, grown⟩
          exact ⟨holds, texts ++ others, List.map_append.symm,
            grown.trans (NameTable.internAll_append _ _ _).symm⟩
      | error rejection last =>
          rcases continued with ⟨others, unread, rfl, grown⟩
          exact ⟨texts ++ others, unread, by rw [List.map_append, List.append_assoc],
            grown.trans (NameTable.internAll_append _ _ _).symm⟩

namespace Reads

theorem bind {action : Build α} {next : α → Build β} (started : Reads first Started action)
    (continued : ∀ value, Started value → Reads second Result (next value)) :
    Reads (first ++ second) Result (action >>= next) :=
  fun draft => (started draft).bind fun value after _ holds => continued value holds after

/-- An action followed by one that comes upon nothing. -/
theorem before {action : Build α} {next : α → Build β} (started : Reads first Started action)
    (continued : ∀ value, Started value → Reads [] Result (next value)) :
    Reads first Result (action >>= next) := by
  have both := started.bind continued
  rwa [List.append_nil] at both

theorem pure {value : α} (holds : Started value) : Reads [] Started (Pure.pure value) :=
  fun _ => ⟨holds, [], rfl, rfl⟩

theorem reject (rejection : Rejection) (unread : List Finding) :
    Reads (.violation rejection :: unread) Started (Build.reject rejection) :=
  fun _ => ⟨[], unread, rfl, rfl⟩

theorem intern (text : String) : Reads [.identifier text] (fun _ => True) (intern text) :=
  fun _ => ⟨trivial, [text], rfl, rfl⟩

theorem alloc (node : Node) : Reads [] (fun _ => True) (alloc node) :=
  fun _ => ⟨trivial, [], rfl, rfl⟩

theorem allocActuals (ids : List NodeId) : Reads [] (fun _ => True) (allocActuals ids) :=
  fun _ => ⟨trivial, [], rfl, rfl⟩

theorem allocFormals (names : List Name) : Reads [] (fun _ => True) (allocFormals names) :=
  fun _ => ⟨trivial, [], rfl, rfl⟩

theorem allocGroup (bindings : List Binding) : Reads [] (fun _ => True) (allocGroup bindings) :=
  fun _ => ⟨trivial, [], rfl, rfl⟩

/-! ## Shape checks -/

theorem requireBoolean (construct : Construct) (kind : OperandKind) :
    Reads ((construct.booleanViolations kind).map .violation) (fun _ => True)
      (checked (construct.requireBoolean kind)) := by
  intro draft
  cases kind <;> first | exact ⟨trivial, [], rfl, rfl⟩ | exact ⟨[], _, rfl, rfl⟩

/-- The check of an application comes upon what is wrong with its operands. -/
theorem check (op : BinaryOperator) (lhs rhs : OperandKind) :
    Reads ((op.violations lhs rhs).map .violation) (fun kind => kind = match op with
      | .arith _ => .arithmetic
      | .logic _ => .logical) (checked (op.check lhs rhs)) := by
  intro draft
  cases op with
  | arith op =>
      cases lhs <;> cases rhs <;> first | exact ⟨rfl, [], rfl, rfl⟩ | exact ⟨[], _, rfl, rfl⟩
  | logic op =>
      cases op <;> cases lhs <;> cases rhs <;>
        first | exact ⟨rfl, [], rfl, rfl⟩ | exact ⟨[], _, rfl, rfl⟩

end Reads

/-! ## Expressions -/

theorem reads_expression (expr : Expr) :
    Reads expr.findings (fun result => result.2 = expr.kind) (expression expr) := by
  induction expr with
  | ident text | addressOf text | valueOf text =>
      exact (Reads.intern text).before fun _ _ => (Reads.alloc _).before fun _ _ => .pure rfl
  | num value | bool value => exact (Reads.alloc _).before fun _ _ => .pure rfl
  | not operand induction =>
      refine induction.bind fun inner kind => ?_
      rw [← kind]
      exact (Reads.requireBoolean _ _).before fun _ _ =>
        (Reads.alloc _).before fun _ _ => .pure rfl
  | binary lexeme lhs rhs inductionLhs inductionRhs =>
      simp only [expression, Expr.findings]
      cases known : BinaryOperator.ofLexeme? lexeme with
      | none => exact .reject _ _
      | some op =>
          refine inductionLhs.bind fun left leftKind => inductionRhs.bind fun right rightKind => ?_
          rw [← leftKind, ← rightKind]
          refine (Reads.check op _ _).before fun kind yields =>
            (Reads.alloc _).before fun _ _ => .pure ?_
          simp only [Expr.kind, known, yields]
          cases op <;> rfl

theorem reads_value (expr : Expr) : Reads expr.findings (fun _ => True) (value expr) :=
  (reads_expression expr).before fun _ _ => .pure trivial

theorem reads_values (exprs : List Expr) :
    Reads (exprs.flatMap Expr.findings) (fun _ => True) (values exprs) := by
  induction exprs with
  | nil => exact .pure trivial
  | cons expr exprs induction =>
      exact (reads_value expr).bind fun _ _ => induction.before fun _ _ => .pure trivial

theorem reads_condition (construct : Construct) (test : Expr) :
    Reads (construct.conditionFindings test) (fun _ => True) (condition construct test) := by
  refine (reads_expression test).bind fun result kind => ?_
  rw [← kind]
  exact (Reads.requireBoolean _ _).before fun _ _ => .pure trivial

/-! ## Declarations and commands -/

theorem reads_sequenceFrom (first : NodeId) (rest : List NodeId) :
    Reads [] (fun _ => True) (sequenceFrom first rest) := by
  induction rest generalizing first with
  | nil => exact .pure trivial
  | cons second rest induction => exact (Reads.alloc _).bind fun both _ => induction both

theorem reads_sequence (ids : List NodeId) : Reads [] (fun _ => True) (sequence ids) := by
  cases ids with
  | nil => exact .alloc _
  | cons first rest => exact reads_sequenceFrom first rest

/-- Different texts have different names, so a text stands among others just if its name
does. -/
theorem mem_names_iff {draft : Draft} {texts : List String} {names : List Name} {text : String}
    {name : Name} (named : List.Forall₂ draft.Names texts names) (found : draft.Names text name) :
    name ∈ names ↔ text ∈ texts := by
  induction named with
  | nil => simp
  | @cons known other _ _ head _ induction =>
      have same : name = other ↔ text = known := by
        constructor
        · rintro rfl
          rw [← NameTable.text_of_find? found, NameTable.text_of_find? head]
        · rintro rfl
          exact Option.some.inj (found.symm.trans head)
      simp only [List.mem_cons, induction, same]

/-- Interning one more text tells whether it stands among those interned before. -/
theorem names_of_interned {draft after : Draft} {texts : List String} {known : List Name}
    {text : String} {name : Name} (named : List.Forall₂ draft.Names texts known)
    (interned : intern text draft = .ok name after) :
    List.Forall₂ after.Names (texts ++ [text]) (known ++ [name]) ∧
      known.contains name = decide (text ∈ texts) := by
  have ensured := Ensures.intern text draft name after interned
  have found : after.Names text name := ensured.2 after (.refl after)
  have namedAfter : List.Forall₂ after.Names texts known :=
    named.imp fun _ _ found => ensured.1.find? found
  refine ⟨List.rel_append namedAfter (.cons found .nil), ?_⟩
  rw [List.contains_eq_mem]
  exact decide_eq_decide.mpr (mem_names_iff namedAfter found)

theorem followsFrom_formals (function : String) {draft : Draft} {texts : List String}
    {known : List Name} (named : List.Forall₂ draft.Names texts known) (formal : List String) :
    FollowsFrom (formalFindings function texts formal) draft.names (fun _ => True)
      (formals function known formal draft) := by
  induction formal generalizing draft texts known with
  | nil => exact ⟨trivial, [], rfl, rfl⟩
  | cons text rest induction =>
      refine FollowsFrom.bind (Reads.intern text draft) ?_
      intro name after interned _
      rcases names_of_interned named interned with ⟨namedAfter, isRepeated⟩
      rw [isRepeated]
      by_cases repeated : text ∈ texts
      · simp only [repeated]
        exact Reads.reject _ _ after
      · simp only [repeated]
        exact induction namedAfter

theorem reads_formals (function : String) (formal : List String) :
    Reads (formalFindings function [] formal) (fun _ => True) (formals function [] formal) :=
  fun _ => followsFrom_formals function .nil formal

mutual
theorem reads_block : (tree : Block) → Reads tree.findings (fun _ => True) (block tree)
  | .mk parts body =>
      (reads_declarations parts).bind fun declared _ => (reads_sequence declared).bind fun _ _ =>
        (reads_commands body).before fun commanded _ => (reads_sequence commanded).before fun _ _ =>
        .alloc _
termination_by structural tree => tree

theorem reads_function : (tree : Function) → Reads tree.findings (fun _ => True) (function tree)
  | .mk text parameters body =>
      (reads_formals text parameters).bind fun names _ => (Reads.allocFormals names).bind fun _ _ =>
        (reads_block body).bind fun _ _ => (Reads.alloc _).bind fun _ _ =>
        (Reads.intern text).before fun _ _ => .pure trivial
termination_by structural tree => tree

theorem reads_functions : (trees : List Function) →
    Reads (Function.allFindings trees) (fun _ => True) (functions trees)
  | [] => .pure trivial
  | first :: rest => (reads_function first).bind fun _ _ =>
      (reads_functions rest).before fun _ _ => .pure trivial
termination_by structural trees => trees

theorem reads_declaration : (tree : Declaration) →
    Reads tree.findings (fun _ => True) (declaration tree)
  | .var text initial => (reads_value initial).bind fun _ _ => (Reads.alloc _).bind fun _ _ =>
      (Reads.intern text).before fun _ _ => .alloc _
  | .const text expr => (reads_value expr).bind fun _ _ =>
      (Reads.intern text).before fun _ _ => .alloc _
  | .function declared => (reads_function declared).before fun _ _ => .alloc _
  | .recursive [] => .reject _ _
  | .recursive (first :: rest) => (reads_function first).bind fun _ _ =>
      (reads_functions rest).before fun _ _ => (Reads.allocGroup _).before fun _ _ => .alloc _
termination_by structural tree => tree

theorem reads_declarations : (trees : List Declaration) →
    Reads (Declaration.allFindings trees) (fun _ => True) (declarations trees)
  | [] => .pure trivial
  | first :: rest => (reads_declaration first).bind fun _ _ =>
      (reads_declarations rest).before fun _ _ => .pure trivial
termination_by structural trees => trees

theorem reads_command : (tree : Command) → Reads tree.findings (fun _ => True) (command tree)
  | .nop => .alloc _
  | .assign text expr => (reads_value expr).bind fun _ _ =>
      (Reads.intern text).before fun _ _ => .alloc _
  | .loop test body => (reads_condition .loop test).bind fun _ _ =>
      (reads_commands body).before fun commanded _ => (reads_sequence commanded).before fun _ _ =>
      .alloc _
  | .ifThen test body => (reads_condition .conditional test).bind fun _ _ =>
      (reads_commands body).before fun commanded _ => (reads_sequence commanded).before fun _ _ =>
      .alloc _
  | .ifThenElse test thenCommands elseCommands =>
      (reads_condition .conditional test).bind fun _ _ =>
      (reads_commands thenCommands).bind fun commanded _ => (reads_sequence commanded).bind
      fun _ _ => (reads_commands elseCommands).before fun commanded _ =>
      (reads_sequence commanded).before fun _ _ => .alloc _
  | .block inner => reads_block inner
  | .print expr => (reads_value expr).before fun _ _ => .alloc _
  | .call text exprs => (reads_values exprs).bind fun _ _ => (Reads.intern text).before fun _ _ =>
      (Reads.allocActuals _).before fun _ _ => .alloc _
termination_by structural tree => tree

theorem reads_commands : (trees : List Command) →
    Reads (Command.allFindings trees) (fun _ => True) (commands trees)
  | [] => .pure trivial
  | first :: rest => (reads_command first).bind fun _ _ =>
      (reads_commands rest).before fun _ _ => .pure trivial
termination_by structural trees => trees
end

theorem reads_program (body : List Command) :
    Reads (Command.allFindings body) (fun _ => True) (program body) :=
  (reads_commands body).before fun ids _ => reads_sequence ids

end Build

/-- Translation asks for the names of some texts: those that are read before the first
violation, or all there are to be read. -/
theorem exists_read_of_translate (names : NameTable) (body : List Command) :
    ∃ read, (translate names body).2 = names.internAll read ∧
      (∀ program, (translate names body).1 = .ok program →
        Command.allFindings body = read.map .identifier) ∧
      ∀ rejection, (translate names body).1 = .error rejection →
        ∃ unread, Command.allFindings body =
          read.map .identifier ++ .violation rejection :: unread := by
  have follows := Build.reads_program body ⟨names, .empty⟩
  rw [translate]
  cases built : Build.program body ⟨names, .empty⟩ with
  | ok root draft =>
      rw [built] at follows
      rcases follows with ⟨_, read, findings, interned⟩
      exact ⟨read, interned, fun _ _ => findings, by simp⟩
  | error rejection draft =>
      rw [built] at follows
      rcases follows with ⟨read, unread, findings, interned⟩
      refine ⟨read, interned, by simp, ?_⟩
      intro rejected same
      cases same
      exact ⟨unread, findings⟩

/-- What translation does to the names in use. It only adds to them, so a name keeps its
text. If the program is accepted, the texts added are its identifiers that had no name
before, each once, in the order in which they are first read. If it is rejected, they are
those of the identifiers that are read before the violation it is rejected for. What is
come upon in reading has just the violations of the program, in their order. -/
theorem names_added_by_translate (names : NameTable) (body : List Command) :
    names.texts <+: (translate names body).2.texts ∧
    (∀ name, name.index < names.size → (translate names body).2.text name = names.text name) ∧
    (∀ program, (translate names body).1 = .ok program →
      (translate names body).2.texts =
        names.texts ++ names.unnamed (Finding.identifiers (Command.allFindings body))) ∧
    (∀ rejection, (translate names body).1 = .error rejection →
      ∃ (read : List String) (unread : List Finding),
        Command.allFindings body = read.map .identifier ++ .violation rejection :: unread ∧
        (translate names body).2.texts = names.texts ++ names.unnamed read) ∧
    Finding.violations (Command.allFindings body) = Command.allViolations body := by
  rcases exists_read_of_translate names body with ⟨read, interned, accepted, rejected⟩
  have texts : (translate names body).2.texts = names.texts ++ names.unnamed read := by
    rw [interned, NameTable.texts_internAll]
  refine ⟨?_, ?_, ?_, ?_, violations_commands body⟩
  · rw [texts]
    exact List.prefix_append _ _
  · intro name inside
    rw [Lexicon.text, Lexicon.text, texts, List.getElem?_append_left inside]
  · intro program isOk
    rw [texts, accepted program isOk, Finding.identifiers_map_identifier]
  · intro rejection isError
    rcases rejected rejection isError with ⟨unread, findings⟩
    exact ⟨read, unread, findings, texts⟩

end BlockMachine
