import BlockMachine.Proofs.Surface.Phrases
import BlockMachine.Translation.OperandKind

namespace BlockMachine

/-! # Well-shaped programs

A program is well shaped if each of its phrases is, whichever of them is looked at
first. What is wrong with the phrases of a program can also be listed in the order of
reading. The two agree: the list has just the violations of the phrases, and is empty
if the program is well shaped. -/

/-- The kind that the shape of an expression gives it. -/
def Expr.kind : Expr → OperandKind
  | .num _ => .arithmetic
  | .bool _ | .not _ => .logical
  | .ident _ | .valueOf _ => .generic
  | .addressOf _ => .reference
  | .binary lexeme _ _ =>
    match BinaryOperator.ofLexeme? lexeme with
    | some (.arith _) => .arithmetic
    | _ => .logical

/-! ## Phrases that are well shaped -/

/-- Whether an operator takes operands of two kinds. -/
def BinaryOperator.Suits (lhs rhs : OperandKind) : BinaryOperator → Prop
  | .arith _ | .logic .lt | .logic .le | .logic .gt | .logic .ge =>
    lhs ∈ [.arithmetic, .generic] ∧ rhs ∈ [.arithmetic, .generic]
  | .logic .and | .logic .or => lhs ∈ [.logical, .generic] ∧ rhs ∈ [.logical, .generic]
  | .logic .eq =>
    lhs ≠ .reference ∧ rhs ≠ .reference ∧ ¬(lhs = .arithmetic ∧ rhs = .logical) ∧
      ¬(lhs = .logical ∧ rhs = .arithmetic)

/-- Whether a phrase is well shaped, whatever its parts are. -/
def Phrase.IsShaped : Phrase → Prop
  | .expression (.binary lexeme lhs rhs) =>
    ∃ op : BinaryOperator, lexeme = op.lexeme ∧ op.Suits lhs.kind rhs.kind
  | .expression (.not operand) => operand.kind ∈ [.logical, .generic]
  | .command (.loop test _) | .command (.ifThen test _) | .command (.ifThenElse test _ _) =>
    test.kind ∈ [.logical, .generic]
  | .function _ (.mk _ formals _) => formals.Nodup
  | .declaration (.recursive group) => group ≠ []
  | _ => True

/-- Whether all phrases of a program are well shaped. -/
def WellShaped (body : List Command) : Prop :=
  ∀ scope phrase, Contains body scope phrase → phrase.IsShaped

/-! ## What is wrong with a phrase -/

/-- The violation of an operand that has not the kind it must have. -/
def Construct.violations (construct : Construct) (expected : Expectation)
    (accepts : OperandKind → Bool) (found : OperandKind) : List Rejection :=
  if accepts found then [] else [.mismatchedOperand construct expected found]

/-- What is wrong with an operand or a condition that must not be other than boolean. -/
def Construct.booleanViolations (construct : Construct) : OperandKind → List Rejection :=
  construct.violations .logical OperandKind.isBoolean

/-- What an operator asks of either operand. -/
def BinaryOperator.expectation : BinaryOperator → Expectation
  | .arith _ | .logic .lt | .logic .le | .logic .gt | .logic .ge => .numeric
  | .logic .and | .logic .or => .logical
  | .logic .eq => .comparable

/-- Whether an operator takes a kind for either operand. -/
def BinaryOperator.accepts : BinaryOperator → OperandKind → Bool
  | .arith _ | .logic .lt | .logic .le | .logic .gt | .logic .ge => OperandKind.isNumeric
  | .logic .and | .logic .or => OperandKind.isBoolean
  | .logic .eq => fun kind => kind != .reference

/-- What is wrong with operands that suit the operator one by one. -/
def BinaryOperator.mixture (op : BinaryOperator) : OperandKind → OperandKind → List Rejection
  | .arithmetic, .logical =>
    if op = .logic .eq then
      [.mismatchedOperand (.operator op) .numericLikeLeft .logical]
    else
      []
  | .logical, .arithmetic =>
    if op = .logic .eq then
      [.mismatchedOperand (.operator op) .logicalLikeLeft .arithmetic]
    else
      []
  | _, _ => []

/-- What is wrong with the operands of an application, with the left one first. -/
def BinaryOperator.violations (op : BinaryOperator) (lhs rhs : OperandKind) : List Rejection :=
  Construct.violations (.operator op) op.expectation op.accepts lhs ++
    (Construct.violations (.operator op) op.expectation op.accepts rhs ++ op.mixture lhs rhs)

/-- The formals of a function that stand among the `known` ones or repeat one another. -/
def repeatedFormals (function : String) (known : List String) : List String → List Rejection
  | [] => []
  | text :: texts =>
    (if text ∈ known then [.duplicateFormal function text] else []) ++
      repeatedFormals function (known ++ [text]) texts

/-- What is wrong with a phrase itself, whatever its parts are. -/
def Phrase.violations : Phrase → List Rejection
  | .expression (.binary lexeme lhs rhs) =>
    match BinaryOperator.ofLexeme? lexeme with
    | some op => op.violations lhs.kind rhs.kind
    | none => [.unsupportedOperator lexeme]
  | .expression (.not operand) => Construct.negation.booleanViolations operand.kind
  | .command (.loop test _) => Construct.loop.booleanViolations test.kind
  | .command (.ifThen test _) | .command (.ifThenElse test _ _) =>
    Construct.conditional.booleanViolations test.kind
  | .function _ (.mk name formals _) => repeatedFormals name [] formals
  | .declaration (.recursive []) => [.emptyRecursiveGroup]
  | _ => []

theorem Construct.booleanViolations_eq_nil_iff {construct : Construct} {kind : OperandKind} :
    construct.booleanViolations kind = [] ↔ kind ∈ [.logical, .generic] := by
  cases kind <;> simp [booleanViolations, violations, OperandKind.isBoolean]

theorem BinaryOperator.violations_eq_nil_iff {op : BinaryOperator} {lhs rhs : OperandKind} :
    op.violations lhs rhs = [] ↔ op.Suits lhs rhs := by
  cases op with
  | arith op =>
      cases lhs <;> cases rhs <;>
        simp [violations, Construct.violations, accepts, mixture, Suits, OperandKind.isNumeric]
  | logic op =>
      cases op <;> cases lhs <;> cases rhs <;>
        simp [violations, Construct.violations, accepts, mixture, Suits, OperandKind.isNumeric,
          OperandKind.isBoolean]

theorem repeatedFormals_eq_nil_iff {function : String} {known texts : List String} :
    repeatedFormals function known texts = [] ↔ texts.Nodup ∧ ∀ text ∈ texts, text ∉ known := by
  induction texts generalizing known with
  | nil => simp [repeatedFormals]
  | cons text texts induction =>
      simp only [repeatedFormals, List.append_eq_nil_iff, induction, List.nodup_cons,
        List.forall_mem_cons, ite_eq_right_iff, List.cons_ne_nil, imp_false]
      constructor
      · rintro ⟨fresh, distinct, others⟩
        refine ⟨⟨fun again => ?_, distinct⟩, fresh, fun other member isKnown => ?_⟩
        · exact others text again (by simp)
        · exact others other member (List.mem_append_left _ isKnown)
      · rintro ⟨⟨once, distinct⟩, fresh, others⟩
        refine ⟨fresh, distinct, fun other member isKnown => ?_⟩
        rcases List.mem_append.mp isKnown with isKnown | same
        · exact others other member isKnown
        · exact once (List.mem_singleton.mp same ▸ member)

/-- A phrase is well shaped if nothing is wrong with it. -/
theorem Phrase.violations_eq_nil_iff {phrase : Phrase} :
    phrase.violations = [] ↔ phrase.IsShaped := by
  cases phrase with
  | expression expr =>
      cases expr with
      | binary lexeme lhs rhs =>
          simp only [violations, IsShaped]
          cases known : BinaryOperator.ofLexeme? lexeme with
          | none =>
              refine iff_of_false (by simp) ?_
              rintro ⟨op, rfl, _⟩
              simp at known
          | some op =>
              have spelled := BinaryOperator.ofLexeme?_eq_some_iff.mp known
              subst spelled
              simp only [BinaryOperator.violations_eq_nil_iff]
              constructor
              · exact fun suits => ⟨op, rfl, suits⟩
              · rintro ⟨other, same, suits⟩
                have equal := congrArg BinaryOperator.ofLexeme? same
                simp only [BinaryOperator.ofLexeme?_lexeme, Option.some.injEq] at equal
                exact equal ▸ suits
      | not operand => exact Construct.booleanViolations_eq_nil_iff
      | _ => simp [violations, IsShaped]
  | function group declared =>
      cases declared with
      | mk name formals body => simp [violations, IsShaped, repeatedFormals_eq_nil_iff]
  | declaration declared =>
      cases declared with
      | recursive group => cases group <;> simp [violations, IsShaped]
      | _ => simp [violations, IsShaped]
  | command current =>
      cases current with
      | loop | ifThen | ifThenElse => exact Construct.booleanViolations_eq_nil_iff
      | _ => simp [violations, IsShaped]
  | _ => simp [violations, IsShaped]

/-! ## What is wrong with a program -/

/-- All violations in an expression. A lexeme comes before the operands that it joins,
their shapes after both. -/
def Expr.violations : Expr → List Rejection
  | .binary lexeme lhs rhs =>
    match BinaryOperator.ofLexeme? lexeme with
    | none => .unsupportedOperator lexeme :: (lhs.violations ++ rhs.violations)
    | some op => lhs.violations ++ (rhs.violations ++ op.violations lhs.kind rhs.kind)
  | .not operand => operand.violations ++ Construct.negation.booleanViolations operand.kind
  | .ident _ | .num _ | .bool _ | .addressOf _ | .valueOf _ => []

/-- All violations in the condition of a construct. -/
def Construct.conditionViolations (construct : Construct) (test : Expr) : List Rejection :=
  test.violations ++ construct.booleanViolations test.kind

mutual
/-- All violations in a block, those of its declarations first. -/
def Block.violations : Block → List Rejection
  | .mk parts body => Declaration.allViolations parts ++ Command.allViolations body
termination_by structural block => block

/-- All violations in a function, those of its formals first. -/
def Function.violations : Function → List Rejection
  | .mk name formals body => repeatedFormals name [] formals ++ body.violations
termination_by structural function => function

def Function.allViolations : List Function → List Rejection
  | [] => []
  | first :: rest => first.violations ++ Function.allViolations rest
termination_by structural functions => functions

def Declaration.violations : Declaration → List Rejection
  | .var _ value | .const _ value => value.violations
  | .function declared => declared.violations
  | .recursive [] => [.emptyRecursiveGroup]
  | .recursive (first :: rest) => first.violations ++ Function.allViolations rest
termination_by structural declaration => declaration

def Declaration.allViolations : List Declaration → List Rejection
  | [] => []
  | first :: rest => first.violations ++ Declaration.allViolations rest
termination_by structural declarations => declarations

/-- All violations in a command, those of a condition before those of the branches. -/
def Command.violations : Command → List Rejection
  | .nop => []
  | .assign _ value | .print value => value.violations
  | .loop test body => Construct.loop.conditionViolations test ++ Command.allViolations body
  | .ifThen test thenCommands =>
    Construct.conditional.conditionViolations test ++ Command.allViolations thenCommands
  | .ifThenElse test thenCommands elseCommands =>
    Construct.conditional.conditionViolations test ++
      (Command.allViolations thenCommands ++ Command.allViolations elseCommands)
  | .block inner => inner.violations
  | .call _ actuals => actuals.flatMap Expr.violations
termination_by structural command => command

/-- All violations in a list of commands, in the order of reading. -/
def Command.allViolations : List Command → List Rejection
  | [] => []
  | first :: rest => first.violations ++ Command.allViolations rest
termination_by structural commands => commands
end

theorem Function.allViolations_eq_flatMap (functions : List Function) :
    allViolations functions = functions.flatMap violations := by
  induction functions with
  | nil => rfl
  | cons first rest induction => simp [allViolations, induction]

theorem Declaration.allViolations_eq_flatMap (declarations : List Declaration) :
    allViolations declarations = declarations.flatMap violations := by
  induction declarations with
  | nil => rfl
  | cons first rest induction => simp [allViolations, induction]

theorem Command.allViolations_eq_flatMap (commands : List Command) :
    allViolations commands = commands.flatMap violations := by
  induction commands with
  | nil => rfl
  | cons first rest induction => simp [allViolations, induction]

namespace Phrase

/-- All violations in a phrase and its parts. -/
def allViolations : Phrase → List Rejection
  | expression expr | cell expr => expr.violations
  | function _ declared => declared.violations
  | declaration declared => declared.violations
  | declarations parts => parts.flatMap Declaration.violations
  | command current => current.violations
  | commands body => body.flatMap Command.violations

theorem allViolations_ofCommands (body : List Command) :
    (ofCommands body).allViolations = Command.allViolations body := by
  rw [Command.allViolations_eq_flatMap]
  rcases body with _ | ⟨first, _ | ⟨second, rest⟩⟩ <;> simp [ofCommands, ofList, allViolations]

theorem allViolations_ofDeclarations (parts : List Declaration) :
    (ofDeclarations parts).allViolations = Declaration.allViolations parts := by
  rw [Declaration.allViolations_eq_flatMap]
  rcases parts with _ | ⟨first, _ | ⟨second, rest⟩⟩ <;> simp [ofDeclarations, ofList, allViolations]

theorem violations_subset (phrase : Phrase) : phrase.violations ⊆ phrase.allViolations := by
  cases phrase with
  | expression expr =>
      cases expr with
      | binary lexeme lhs rhs =>
          simp only [violations, allViolations, Expr.violations]
          cases BinaryOperator.ofLexeme? lexeme with
          | none => simp
          | some op =>
              exact List.subset_append_of_subset_right _ (List.subset_append_right _ _)
      | not operand => exact List.subset_append_right _ _
      | _ => exact List.nil_subset _
  | function group declared =>
      cases declared with
      | mk name formals body => exact List.subset_append_left _ _
  | declaration declared =>
      cases declared with
      | recursive group => cases group <;> simp [violations, allViolations, Declaration.violations]
      | _ => exact List.nil_subset _
  | command current =>
      cases current with
      | loop | ifThen | ifThenElse =>
          exact List.subset_append_of_subset_left _ (List.subset_append_right _ _)
      | _ => exact List.nil_subset _
  | _ => exact List.nil_subset _

/-- The violations in a list of trees are those in its parts. -/
theorem allViolations_splitLast {Tree : Type} {single : Tree → Phrase}
    {several : List Tree → Phrase} {violated : Tree → List Rejection}
    (ofSingle : ∀ tree, (single tree).allViolations = violated tree)
    (ofSeveral : ∀ trees, (several trees).allViolations = trees.flatMap violated)
    {trees : List Tree} {piece : Phrase} (isPart : piece ∈ splitLast single several trees) :
    piece.allViolations ⊆ trees.flatMap violated := by
  rcases trees.eq_nil_or_concat with rfl | ⟨front, last, rfl⟩
  · simp [splitLast] at isPart
  · have ofFront : (ofList single several front).allViolations = front.flatMap violated := by
      rcases front with _ | ⟨first, _ | ⟨second, rest⟩⟩ <;> simp [ofList, ofSingle, ofSeveral]
    rw [List.concat_eq_append, splitLast_concat, List.mem_cons, List.mem_singleton] at isPart
    rw [List.concat_eq_append, List.flatMap_append]
    rcases isPart with rfl | rfl
    · exact ofFront ▸ List.subset_append_left _ _
    · simp [ofSingle]

theorem allViolations_subset_of_part {scope inner : List String} {phrase piece : Phrase}
    (isPart : (inner, piece) ∈ phrase.parts scope) :
    piece.allViolations ⊆ phrase.allViolations := by
  cases phrase with
  | expression expr =>
      cases expr with
      | binary lexeme lhs rhs =>
          simp only [allViolations, Expr.violations]
          simp only [parts, List.mem_cons, Prod.mk.injEq, List.not_mem_nil, or_false] at isPart
          rcases isPart with ⟨_, rfl⟩ | ⟨_, rfl⟩ <;>
            cases BinaryOperator.ofLexeme? lexeme <;> intro rejection <;> simp +contextual
      | not operand =>
          cases List.mem_singleton.mp isPart
          exact List.subset_append_left _ _
      | _ => cases isPart
  | cell initial =>
      cases List.mem_singleton.mp isPart
      exact List.Subset.refl _
  | function group declared =>
      cases declared with
      | mk name formals body =>
          cases List.mem_singleton.mp isPart
          exact List.subset_append_right _ _
  | declaration declared =>
      cases declared with
      | recursive group =>
          rcases List.mem_map.mp isPart with ⟨member, isMember, same⟩
          cases same
          cases group with
          | nil => cases isMember
          | cons first rest =>
              intro rejection violated
              simp only [allViolations, Declaration.violations, Function.allViolations_eq_flatMap]
              exact List.mem_flatMap_of_mem isMember violated
      | _ =>
          cases List.mem_singleton.mp isPart
          exact List.Subset.refl _
  | declarations trees =>
      rcases List.mem_map.mp isPart with ⟨part, isPart, same⟩
      cases same
      exact allViolations_splitLast (fun _ => rfl) (fun _ => rfl) isPart
  | command current =>
      cases current with
      | nop => cases isPart
      | assign | print =>
          cases List.mem_singleton.mp isPart
          exact List.Subset.refl _
      | loop test body | ifThen test body =>
          simp only [parts, List.mem_cons, Prod.mk.injEq, List.not_mem_nil, or_false] at isPart
          intro rejection
          rcases isPart with ⟨_, rfl⟩ | ⟨_, rfl⟩
          · simp +contextual [allViolations, Command.violations, Construct.conditionViolations]
          · rw [allViolations_ofCommands]
            simp +contextual [allViolations, Command.violations]
      | ifThenElse test thenCommands elseCommands =>
          simp only [parts, List.mem_cons, Prod.mk.injEq, List.not_mem_nil, or_false] at isPart
          intro rejection
          rcases isPart with ⟨_, rfl⟩ | ⟨_, rfl⟩ | ⟨_, rfl⟩
          · simp +contextual [allViolations, Command.violations, Construct.conditionViolations]
          · rw [allViolations_ofCommands]
            simp +contextual [allViolations, Command.violations]
          · rw [allViolations_ofCommands]
            simp +contextual [allViolations, Command.violations]
      | block inner =>
          cases inner with
          | mk trees body =>
              simp only [parts, List.mem_cons, Prod.mk.injEq, List.not_mem_nil, or_false] at isPart
              rcases isPart with ⟨_, rfl⟩ | ⟨_, rfl⟩
              · exact allViolations_ofDeclarations trees ▸ List.subset_append_left _ _
              · exact allViolations_ofCommands body ▸ List.subset_append_right _ _
      | call callee actuals =>
          rcases List.mem_map.mp isPart with ⟨actual, isActual, same⟩
          cases same
          intro rejection violated
          exact List.mem_flatMap_of_mem isActual violated
  | commands trees =>
      rcases List.mem_map.mp isPart with ⟨part, isPart, same⟩
      cases same
      exact allViolations_splitLast (fun _ => rfl) (fun _ => rfl) isPart

end Phrase

section

variable {body : List Command} {scope : List String} {rejection : Rejection}

theorem Contains.allViolations_subset {phrase : Phrase} (contains : Contains body scope phrase) :
    phrase.allViolations ⊆ Command.allViolations body := by
  induction contains with
  | whole =>
      rw [Phrase.allViolations_ofCommands]
      exact List.Subset.refl _
  | part _ isPart outer => exact List.Subset.trans (Phrase.allViolations_subset_of_part isPart) outer

/-- Whether something is wrong with one of the phrases of a program. -/
def Blamed (body : List Command) (rejection : Rejection) : Prop :=
  ∃ scope phrase, Contains body scope phrase ∧ rejection ∈ phrase.violations

theorem blamed_of_expression {expr : Expr} (contains : Contains body scope (.expression expr))
    (violated : rejection ∈ expr.violations) : Blamed body rejection := by
  induction expr with
  | binary lexeme lhs rhs inductionLhs inductionRhs =>
      have lhsContained : Contains body scope (.expression lhs) :=
        contains.part (by simp [Phrase.parts])
      have rhsContained : Contains body scope (.expression rhs) :=
        contains.part (by simp [Phrase.parts])
      simp only [Expr.violations] at violated
      cases known : BinaryOperator.ofLexeme? lexeme with
      | none =>
          simp only [known, List.mem_cons, List.mem_append] at violated
          rcases violated with rfl | inLhs | inRhs
          · exact ⟨scope, _, contains, by simp [Phrase.violations, known]⟩
          · exact inductionLhs lhsContained inLhs
          · exact inductionRhs rhsContained inRhs
      | some op =>
          simp only [known, List.mem_append] at violated
          rcases violated with inLhs | inRhs | inShape
          · exact inductionLhs lhsContained inLhs
          · exact inductionRhs rhsContained inRhs
          · exact ⟨scope, _, contains, by simpa [Phrase.violations, known] using inShape⟩
  | not operand induction =>
      rcases List.mem_append.mp violated with inOperand | inShape
      · exact induction (contains.part (by simp [Phrase.parts])) inOperand
      · exact ⟨scope, _, contains, inShape⟩
  | _ => cases violated

theorem blamed_of_condition {construct : Construct} {test : Expr} {phrase : Phrase}
    (contains : Contains body scope phrase) (isPart : (scope, .expression test) ∈ phrase.parts scope)
    (own : phrase.violations = construct.booleanViolations test.kind)
    (violated : rejection ∈ construct.conditionViolations test) : Blamed body rejection := by
  rcases List.mem_append.mp violated with inTest | inShape
  · exact blamed_of_expression (contains.part isPart) inTest
  · exact ⟨scope, _, contains, own ▸ inShape⟩

mutual
theorem blamed_of_block : (tree : Block) → (scope : List String) →
    Contains body scope (.command (.block tree)) → rejection ∈ tree.violations →
    Blamed body rejection
  | .mk parts commands, scope, contains, violated => by
      have declared : Contains body scope (.ofDeclarations parts) :=
        contains.part (by simp [Phrase.parts])
      have commanded : Contains body _ (.ofCommands commands) :=
        contains.part (List.mem_cons_of_mem _ List.mem_cons_self)
      rcases List.mem_append.mp violated with inParts | inCommands
      · exact blamed_of_declarations parts scope
          (fun _ member => declared.single_of_ofList (fun _ => rfl) member) inParts
      · exact blamed_of_commands commands _
          (fun _ member => commanded.single_of_ofList (fun _ => rfl) member) inCommands
termination_by structural tree => tree

theorem blamed_of_function : (tree : Function) → (scope : List String) → (group : List Function) →
    Contains body scope (.function group tree) → rejection ∈ tree.violations →
    Blamed body rejection
  | .mk name formals inner, scope, group, contains, violated => by
      rcases List.mem_append.mp violated with inFormals | inBody
      · exact ⟨scope, _, contains, inFormals⟩
      · exact blamed_of_block inner _ (contains.part List.mem_cons_self) inBody
termination_by structural tree => tree

theorem blamed_of_functions : (trees : List Function) → (scope : List String) →
    (group : List Function) → (∀ tree ∈ trees, Contains body scope (.function group tree)) →
    rejection ∈ Function.allViolations trees → Blamed body rejection
  | [], _, _, _, violated => by cases violated
  | first :: rest, scope, group, contains, violated => by
      rcases List.mem_append.mp violated with inFirst | inRest
      · exact blamed_of_function first scope group (contains first List.mem_cons_self) inFirst
      · exact blamed_of_functions rest scope group
          (fun tree member => contains tree (List.mem_cons_of_mem _ member)) inRest
termination_by structural trees => trees

theorem blamed_of_declaration : (tree : Declaration) → (scope : List String) →
    Contains body scope (.declaration tree) → rejection ∈ tree.violations →
    Blamed body rejection
  | .var name initial, scope, contains, violated => by
      have inside : Contains body scope (.cell initial) := contains.part List.mem_cons_self
      exact blamed_of_expression (inside.part List.mem_cons_self) violated
  | .const name expr, scope, contains, violated =>
      blamed_of_expression (contains.part List.mem_cons_self) violated
  | .function declared, scope, contains, violated =>
      blamed_of_function declared scope [] (contains.part List.mem_cons_self) violated
  | .recursive [], scope, contains, violated => ⟨scope, _, contains, violated⟩
  | .recursive (first :: rest), scope, contains, violated => by
      have members : ∀ tree ∈ first :: rest,
          Contains body scope (.function (first :: rest) tree) :=
        fun tree member => contains.part (List.mem_map_of_mem member)
      rcases List.mem_append.mp violated with inFirst | inRest
      · exact blamed_of_function first scope _ (members first List.mem_cons_self) inFirst
      · exact blamed_of_functions rest scope _
          (fun tree member => members tree (List.mem_cons_of_mem _ member)) inRest
termination_by structural tree => tree

theorem blamed_of_declarations : (trees : List Declaration) → (scope : List String) →
    (∀ tree ∈ trees, Contains body scope (.declaration tree)) →
    rejection ∈ Declaration.allViolations trees → Blamed body rejection
  | [], _, _, violated => by cases violated
  | first :: rest, scope, contains, violated => by
      rcases List.mem_append.mp violated with inFirst | inRest
      · exact blamed_of_declaration first scope (contains first List.mem_cons_self) inFirst
      · exact blamed_of_declarations rest scope
          (fun tree member => contains tree (List.mem_cons_of_mem _ member)) inRest
termination_by structural trees => trees

theorem blamed_of_command : (tree : Command) → (scope : List String) →
    Contains body scope (.command tree) → rejection ∈ tree.violations → Blamed body rejection
  | .nop, _, _, violated => by cases violated
  | .assign target expr, scope, contains, violated =>
      blamed_of_expression (contains.part List.mem_cons_self) violated
  | .loop test inner, scope, contains, violated => by
      have commanded : Contains body scope (.ofCommands inner) :=
        contains.part (by simp [Phrase.parts])
      rcases List.mem_append.mp violated with inTest | inBody
      · exact blamed_of_condition contains List.mem_cons_self rfl inTest
      · exact blamed_of_commands inner scope
          (fun _ member => commanded.single_of_ofList (fun _ => rfl) member) inBody
  | .ifThen test inner, scope, contains, violated => by
      have commanded : Contains body scope (.ofCommands inner) :=
        contains.part (by simp [Phrase.parts])
      rcases List.mem_append.mp violated with inTest | inBody
      · exact blamed_of_condition contains List.mem_cons_self rfl inTest
      · exact blamed_of_commands inner scope
          (fun _ member => commanded.single_of_ofList (fun _ => rfl) member) inBody
  | .ifThenElse test thenCommands elseCommands, scope, contains, violated => by
      have thenContained : Contains body scope (.ofCommands thenCommands) :=
        contains.part (by simp [Phrase.parts])
      have elseContained : Contains body scope (.ofCommands elseCommands) :=
        contains.part (by simp [Phrase.parts])
      rcases List.mem_append.mp violated with inTest | inBranches
      · exact blamed_of_condition contains List.mem_cons_self rfl inTest
      · rcases List.mem_append.mp inBranches with inThen | inElse
        · exact blamed_of_commands thenCommands scope
            (fun _ member => thenContained.single_of_ofList (fun _ => rfl) member) inThen
        · exact blamed_of_commands elseCommands scope
            (fun _ member => elseContained.single_of_ofList (fun _ => rfl) member) inElse
  | .block inner, scope, contains, violated => blamed_of_block inner scope contains violated
  | .print expr, scope, contains, violated =>
      blamed_of_expression (contains.part List.mem_cons_self) violated
  | .call callee actuals, scope, contains, violated => by
      rcases List.mem_flatMap.mp violated with ⟨actual, isActual, inActual⟩
      exact blamed_of_expression (contains.part (List.mem_map_of_mem isActual)) inActual
termination_by structural tree => tree

theorem blamed_of_commands : (trees : List Command) → (scope : List String) →
    (∀ tree ∈ trees, Contains body scope (.command tree)) →
    rejection ∈ Command.allViolations trees → Blamed body rejection
  | [], _, _, violated => by cases violated
  | first :: rest, scope, contains, violated => by
      rcases List.mem_append.mp violated with inFirst | inRest
      · exact blamed_of_command first scope (contains first List.mem_cons_self) inFirst
      · exact blamed_of_commands rest scope
          (fun tree member => contains tree (List.mem_cons_of_mem _ member)) inRest
termination_by structural trees => trees
end

/-- The violations in a program are those of its phrases. -/
theorem mem_allViolations_iff :
    rejection ∈ Command.allViolations body ↔ Blamed body rejection := by
  constructor
  · intro violated
    have contains (tree : Command) (member : tree ∈ body) : Contains body [] (.command tree) :=
      Contains.whole.single_of_ofList (fun _ => rfl) member
    exact blamed_of_commands body [] contains violated
  · rintro ⟨scope, phrase, contains, violated⟩
    exact contains.allViolations_subset (phrase.violations_subset violated)

/-- A program is well shaped just if there are no violations in it. -/
theorem wellShaped_iff : WellShaped body ↔ Command.allViolations body = [] := by
  rw [List.eq_nil_iff_forall_not_mem]
  constructor
  · intro shaped rejection violated
    rcases mem_allViolations_iff.mp violated with ⟨scope, phrase, contains, blamed⟩
    rw [Phrase.violations_eq_nil_iff.mpr (shaped scope phrase contains)] at blamed
    cases blamed
  · intro none scope phrase contains
    refine Phrase.violations_eq_nil_iff.mp (List.eq_nil_iff_forall_not_mem.mpr ?_)
    intro rejection violated
    exact none rejection (mem_allViolations_iff.mpr ⟨scope, phrase, contains, violated⟩)

end

end BlockMachine
