import BlockMachine.Proofs.Correctness.Declarations
import BlockMachine.Proofs.Expressions.Reading
import Mathlib.Data.List.Nodup

namespace BlockMachine

/-! # Runs to the end of some entries

From some entries on, the machine comes to their end with nothing else changed than is
known, or it fails on the way. Expressions and functions are run so, in a known number of
steps. -/

/-! ## Names -/

namespace Draft

variable (draft : Draft)

/-- The name of an identifier that has one. -/
def nameOf (text : String) : Name :=
  (draft.names.find? text).getD default

/-- A pair that goes by an identifier, going by its name. -/
def label (entry : String × α) : Name × α :=
  (draft.nameOf entry.1, entry.2)

variable {draft}

theorem Names.nameOf_eq {text : String} {name : Name} (named : draft.Names text name) :
    draft.nameOf text = name := by
  have found : draft.names.find? text = some name := named
  rw [nameOf, found]
  rfl

end Draft

namespace Setting

open Machine

variable {setting : Setting} {rest : List Control} {start next : State}

def reading (setting : Setting) (state : State) : Reading :=
  Action.reading setting.image state

/-! ## Completion -/

/-- Whether the machine, running above `rest`, comes to the end of what lies there if that
is possible, and fails above `rest` otherwise. -/
inductive Completes (setting : Setting) (possible : Prop) (rest : List Control) (start : State)
    (Done : State → Prop) : Prop where
  | done {after : State} (isPossible : possible)
      (reaches : Relation.ReflTransGen (AdvancesOver rest) (setting.machine start)
        (setting.machine after))
      (finished : after.control = rest) (good : Done after)
  | failed {last stopped : State} {entry : Control} {front : List Control} {fault : Fault}
      (impossible : ¬possible)
      (reaches : Relation.ReflTransGen (AdvancesOver rest) (setting.machine start)
        (setting.machine last))
      (scheduled : last.control = entry :: (front ++ rest))
      (fails : (setting.machine last).Fails fault (setting.machine stopped))

namespace Completes

variable {possible first : Prop} {Done Middle : State → Prop}

theorem after_reaches
    (reaches : Relation.ReflTransGen (AdvancesOver rest) (setting.machine start)
      (setting.machine next))
    (completes : setting.Completes possible rest next Done) :
    setting.Completes possible rest start Done := by
  cases completes with
  | done isPossible onward finished good =>
      exact .done isPossible (reaches.trans onward) finished good
  | failed impossible onward scheduled fails =>
      exact .failed impossible (reaches.trans onward) scheduled fails

theorem congr {Weaker : State → Prop} (completes : setting.Completes first rest start Done)
    (same : possible ↔ first) (implies : ∀ after, Done after → Weaker after) :
    setting.Completes possible rest start Weaker := by
  cases completes with
  | done isPossible reaches finished good =>
      exact .done (same.mpr isPossible) reaches finished (implies _ good)
  | failed impossible reaches scheduled fails =>
      exact .failed (mt same.mp impossible) reaches scheduled fails

/-- What lies above `front` comes first, and without it the rest is not possible. -/
theorem bind (front : List Control) (needed : possible → first)
    (completes : setting.Completes first (front ++ rest) start Middle)
    (onward : ∀ middle, first → middle.control = front ++ rest → Middle middle →
      setting.Completes possible rest middle Done) :
    setting.Completes possible rest start Done := by
  cases completes with
  | done isPossible reaches finished good =>
      exact (onward _ isPossible finished good).after_reaches (reachesOver_below reaches)
  | failed impossible reaches scheduled fails =>
      rw [← List.append_assoc] at scheduled
      exact .failed (mt needed impossible) (reachesOver_below reaches) scheduled fails

/-- An expression comes to its value if it has one. -/
theorem of_expression {expr : Expr} {id : NodeId} (laid : setting.draft.LaysExpr expr id)
    (scheduled : start.control = .node id :: rest) :
    setting.Completes (∃ value, expr.evaluate (setting.reading start) = .ok value) rest start
      fun after => ∃ value, expr.evaluate (setting.reading start) = .ok value ∧
        after = valued start rest expr.cost value := by
  have settles : setting.Settles rest start (valued start rest expr.cost)
      (expr.evaluate (setting.reading start)) := settles_expression laid scheduled
  cases found : expr.evaluate (setting.reading start) with
  | ok value =>
      rw [found] at settles
      exact .done ⟨value, rfl⟩ settles rfl ⟨value, rfl, rfl⟩
  | error fault =>
      rw [found] at settles
      rcases settles with ⟨last, stopped, entry, front, reaches, scheduledLast, fails⟩
      refine .failed ?_ reaches scheduledLast fails
      rintro ⟨_, impossible⟩
      cases impossible

/-- The BIND opcode ends a declaration of one name. -/
theorem of_bind {bound : Bindable} {name : Name} {collected : Environment} {below : ValueStack}
    (isPossible : possible) (control : start.control = .op .bind :: rest)
    (values : start.values =
      .bindable bound :: .identifier name :: .declarations collected :: below)
    (good : Done { start with
      control := rest
      values := .declarations (collected.bind name bound) :: below
      steps := start.steps + 1 }) : setting.Completes possible rest start Done :=
  .done isPossible (.single (advancesOver_of_rule control (.bind values))) rfl good

end Completes

/-! ## Functions -/

theorem names_of_laid {functions : List Function} {bindings : List Binding}
    (laid : List.Forall₂ setting.draft.LaysFunction functions bindings) :
    bindings.map Prod.fst = functions.map (fun function => setting.draft.nameOf function.name) ∧
      ∀ function ∈ functions, ∃ name, setting.draft.Names function.name name := by
  induction laid with
  | nil => simp
  | @cons function binding functions bindings head _ induction =>
      cases head with
      | @mk text _ _ _ _ _ _ name _ _ _ _ named =>
          refine ⟨?_, List.forall_mem_cons.mpr ⟨⟨name, named⟩, induction.2⟩⟩
          rw [List.map_cons, List.map_cons, induction.1, Function.name, named.nameOf_eq]

theorem members_of_laid {functions : List Function} {bindings : List Binding}
    (laid : List.Forall₂ setting.draft.LaysFunction functions bindings)
    (place : String → ClosureId) :
    Binding.members bindings (functions.map fun function => .plain (place function.name)) =
      functions.map fun function =>
        setting.draft.label (function.name, place function.name) := by
  rw [Binding.members, (names_of_laid laid).1, List.map_map, List.zip_map']
  rfl

/-- Closures that are made one after another have the places of their functions. -/
theorem stacked_eq {functions : List Function} (nodup : (functions.map Function.name).Nodup)
    {first : Nat} {place : String → ClosureId}
    (placed : ∀ text ∈ functions.map Function.name, place text =
      ⟨first + (functions.reverse.map Function.name).idxOf text⟩) :
    stacked first functions.length =
      functions.map fun function => .plain (place function.name) := by
  let made := functions.reverse.map Function.name
  have reversed : made.reverse = functions.map Function.name := by simp [made]
  have nodupMade : made.Nodup := by
    rw [← List.nodup_reverse, reversed]
    exact nodup
  have inOrder : List.range' first functions.length =
      made.map fun text => first + made.idxOf text := by
    apply List.ext_getElem
    · simp [made]
    · intro index _ inside
      have inside : index < made.length := by simpa using inside
      simp [nodupMade.idxOf_getElem index inside]
  rw [stacked, inOrder, ← List.map_reverse, reversed, List.map_map, List.map_map]
  apply List.map_congr_left
  intro function member
  exact congrArg ClosureRef.plain (placed _ (List.mem_map_of_mem member)).symm

theorem Abstracts.laysMember {before table : ClosureTable} {captured : Environment}
    {functions : List Function} {member : Function → Member}
    (abstracts : setting.Abstracts before captured functions (functions.map member) table) :
    ∀ function ∈ functions,
      setting.draft.LaysMember table captured function (member function) :=
  List.forall₂_same.mp (List.forall₂_map_right_iff.mp abstracts.laid)

/-- The functions of a group become closures at their places, the first one's on top. -/
theorem reachesOver_functions {functions : List Function} {bindings : List Binding}
    (laid : List.Forall₂ setting.draft.LaysFunction functions bindings)
    (nodup : (functions.map Function.name).Nodup) {place : String → ClosureId}
    (placed : ∀ text ∈ functions.map Function.name, place text =
      ⟨start.closures.size + (functions.reverse.map Function.name).idxOf text⟩)
    (scheduled : start.control = (bindings.map Prod.snd).reverse.map .node ++ rest) :
    ∃ table, setting.Abstracts start.closures start.environment functions
        (functions.map fun function =>
          setting.draft.label (function.name, place function.name)) table ∧
      Relation.ReflTransGen (AdvancesOver rest) (setting.machine start)
        (setting.machine { start with
          control := rest
          values := functions.map (fun function => .closure (.plain (place function.name))) ++
            start.values
          closures := table
          steps := start.steps + functions.length }) := by
  rcases reachesOver_abstractions laid scheduled with ⟨table, abstracts, reached⟩
  rw [stacked_eq nodup placed, members_of_laid laid] at abstracts
  rw [stacked_eq nodup placed, List.map_map] at reached
  exact ⟨table, abstracts, reached⟩

end Setting

end BlockMachine
