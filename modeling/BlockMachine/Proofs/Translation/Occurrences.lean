import BlockMachine.Proofs.Surface.Phrases
import BlockMachine.Proofs.Translation.Layout
import BlockMachine.Proofs.Translation.Sharing
import Mathlib.Data.List.Nodup

namespace BlockMachine

/-! # Phrases and their nodes

The walk that finds the phrases of a surface program can be taken through its
translation at the same time: the parts of a phrase are laid out at the children of
its node, in the same order. -/

namespace Draft

/-- Whether a list of other than one tree is laid out at a node. -/
def LaysSeveral {Tree : Type} (draft : Draft) (Laid : Tree → NodeId → Prop) (trees : List Tree)
    (id : NodeId) : Prop :=
  trees.length ≠ 1 ∧ ∃ ids, List.Forall₂ Laid trees ids ∧ draft.code.Flattens id ids

/-- Whether a phrase is laid out at a node. -/
def Lays (draft : Draft) : Phrase → NodeId → Prop
  | .expression expr, id => draft.LaysExpr expr id
  | .cell initial, id => ∃ value, draft.LaysExpr initial value ∧
      draft.code.node? id = some (.allocateReference value)
  | .function _ declared, id => ∃ name, draft.LaysFunction declared (name, id)
  | .declaration declared, id => draft.LaysDeclaration declared id
  | .declarations parts, id => draft.LaysSeveral draft.LaysDeclaration parts id
  | .command current, id => draft.LaysCommand current id
  | .commands body, id => draft.LaysSeveral draft.LaysCommand body id

variable {draft : Draft}

/-- Whether trees that are laid out in some way are laid out as phrases. -/
structure LaysAs {Tree : Type} (draft : Draft) (Laid : Tree → NodeId → Prop)
    (single : Tree → Phrase) (several : List Tree → Phrase) : Prop where
  single : ∀ tree id, Laid tree id → draft.Lays (single tree) id
  several : ∀ trees id, draft.LaysSeveral Laid trees id → draft.Lays (several trees) id

theorem laysAs_commands : draft.LaysAs draft.LaysCommand .command .commands :=
  ⟨fun _ _ laid => laid, fun _ _ laid => laid⟩

theorem laysAs_declarations :
    draft.LaysAs draft.LaysDeclaration .declaration .declarations :=
  ⟨fun _ _ laid => laid, fun _ _ laid => laid⟩

section

variable {Tree : Type} {Laid : Tree → NodeId → Prop} {single : Tree → Phrase}
  {several : List Tree → Phrase} {trees : List Tree} {id : NodeId} {ids : List NodeId}

/-- A tree of sequences over a list of trees does nothing, is the only tree, or
splits off the last one. -/
theorem split_of_flattens (laid : List.Forall₂ Laid trees ids)
    (flat : draft.code.Flattens id ids) :
    (trees = [] ∧ draft.code.node? id = some .noOp) ∨
      (∃ tree, trees = [tree] ∧ Laid tree id) ∨
      ∃ front last first second before, trees = front ++ [last] ∧ front ≠ [] ∧
        draft.code.node? id = some (.sequence first second) ∧
        List.Forall₂ Laid front before ∧ draft.code.Flattens first before ∧
        Laid last second := by
  cases flat with
  | self =>
      rcases List.forall₂_cons_right_iff.mp laid with ⟨tree, rest, head, tail, rfl⟩
      cases tail
      exact .inr (.inl ⟨tree, rfl, head⟩)
  | nothing fetched =>
      cases laid
      exact .inl ⟨rfl, fetched⟩
  | @sequence _ first second before fetched flatBefore notEmpty =>
      have reversed := List.forall₂_reverse_iff.mpr laid
      rw [List.reverse_append] at reversed
      rcases List.forall₂_cons_right_iff.mp reversed with ⟨last, rest, lastLaid, restLaid, same⟩
      have frontLaid : List.Forall₂ Laid rest.reverse before := by
        rw [← List.forall₂_reverse_iff, List.reverse_reverse]
        exact restLaid
      have trees_eq : trees = rest.reverse ++ [last] := by
        rw [← List.reverse_reverse trees, same, List.reverse_cons]
      have frontNotEmpty : rest.reverse ≠ [] := by
        intro empty
        rw [empty] at frontLaid
        exact notEmpty (List.forall₂_nil_left_iff.mp frontLaid)
      exact .inr (.inr ⟨_, last, first, second, before, trees_eq, frontNotEmpty, fetched, frontLaid,
        flatBefore, lastLaid⟩)

theorem LaysAs.ofList (as : draft.LaysAs Laid single several) (laid : List.Forall₂ Laid trees ids)
    (flat : draft.code.Flattens id ids) : draft.Lays (.ofList single several trees) id := by
  rcases split_of_flattens laid flat with ⟨rfl, _⟩ | ⟨tree, rfl, laidTree⟩ | split
  · exact as.several [] id ⟨by simp, ids, laid, flat⟩
  · exact as.single tree id laidTree
  · rcases split with ⟨front, last, _, _, _, rfl, notEmpty, _⟩
    rw [Phrase.ofList_concat notEmpty]
    exact as.several _ id ⟨by simpa using notEmpty, ids, laid, flat⟩

/-- The parts of a list are laid out at the children of its node. -/
theorem LaysAs.parts (as : draft.LaysAs Laid single several)
    (laid : draft.LaysSeveral Laid trees id) (scope : List String) :
    ∃ node, draft.code.node? id = some node ∧
      List.Forall₂ (fun part child => draft.Lays part.2 child)
        ((Phrase.splitLast single several trees).map fun part => (scope, part))
        (node.children draft.code) := by
  rcases laid with ⟨notOne, ids, laid, flat⟩
  rcases split_of_flattens laid flat with ⟨rfl, fetched⟩ | ⟨tree, rfl, _⟩ | split
  · exact ⟨_, fetched, .nil⟩
  · exact absurd rfl notOne
  · rcases split with ⟨front, last, first, second, before, rfl, _, fetched, frontLaid,
      flatBefore, lastLaid⟩
    refine ⟨_, fetched, ?_⟩
    rw [Phrase.splitLast_concat]
    exact .cons (as.ofList frontLaid flatBefore) (.cons (as.single last second lastLaid) .nil)

end

/-- The parts of a phrase are laid out at the children of its node. -/
theorem Lays.parts {phrase : Phrase} {id : NodeId} (laid : draft.Lays phrase id)
    (scope : List String) : ∃ node, draft.code.node? id = some node ∧
      List.Forall₂ (fun part child => draft.Lays part.2 child) (phrase.parts scope)
        (node.children draft.code) := by
  cases phrase with
  | expression expr =>
      cases laid with
      | ident named fetched | addressOf named fetched | valueOf named fetched =>
          exact ⟨_, fetched, .nil⟩
      | num fetched | bool fetched => exact ⟨_, fetched, .nil⟩
      | binary known lhsLaid rhsLaid fetched =>
          refine ⟨_, fetched, ?_⟩
          rw [Node.children_ofOperator]
          exact .cons lhsLaid (.cons rhsLaid .nil)
      | not laid fetched => exact ⟨_, fetched, .cons laid .nil⟩
  | cell initial =>
      rcases laid with ⟨value, laid, fetched⟩
      exact ⟨_, fetched, .cons laid .nil⟩
  | function group declared =>
      rcases laid with ⟨name, laid⟩
      cases laid with
      | mk formals listed bodyLaid fetched named =>
          exact ⟨_, fetched, .cons (.block bodyLaid) .nil⟩
  | declaration declared =>
      cases laid with
      | var laid allocates named fetched => exact ⟨_, fetched, .cons ⟨_, laid, allocates⟩ .nil⟩
      | const laid named fetched => exact ⟨_, fetched, .cons laid .nil⟩
      | function laid fetched => exact ⟨_, fetched, .cons ⟨_, laid⟩ .nil⟩
      | recursive laid listed fetched =>
          refine ⟨_, fetched, ?_⟩
          rw [Node.children, listed, Phrase.parts, List.forall₂_map_left_iff,
            List.forall₂_map_right_iff]
          exact laid.forall₂.imp fun member binding member => ⟨binding.1, member⟩
  | declarations parts => exact laysAs_declarations.parts laid scope
  | command current =>
      cases laid with
      | nop fetched => exact ⟨_, fetched, .nil⟩
      | assign laid named fetched => exact ⟨_, fetched, .cons laid .nil⟩
      | loop testLaid bodyLaid flat fetched =>
          exact ⟨_, fetched, .cons testLaid (.cons (laysAs_commands.ofList bodyLaid.forall₂ flat) .nil)⟩
      | ifThen testLaid bodyLaid flat fetched =>
          exact ⟨_, fetched, .cons testLaid (.cons (laysAs_commands.ofList bodyLaid.forall₂ flat) .nil)⟩
      | ifThenElse testLaid thenLaid thenFlat elseLaid elseFlat fetched =>
          exact ⟨_, fetched, .cons testLaid (.cons (laysAs_commands.ofList thenLaid.forall₂ thenFlat)
            (.cons (laysAs_commands.ofList elseLaid.forall₂ elseFlat) .nil))⟩
      | block laid =>
          cases laid with
          | mk partsLaid declarationsFlat bodyLaid commandsFlat fetched =>
              exact ⟨_, fetched, .cons (laysAs_declarations.ofList partsLaid.forall₂ declarationsFlat)
                (.cons (laysAs_commands.ofList bodyLaid.forall₂ commandsFlat) .nil)⟩
      | print laid fetched => exact ⟨_, fetched, .cons laid .nil⟩
      | call laid named listed fetched =>
          refine ⟨_, fetched, ?_⟩
          rw [Node.children, listed, Phrase.parts, List.forall₂_map_left_iff]
          exact laid
  | commands body => exact laysAs_commands.parts laid scope

end Draft

/-- The phrases of a surface program, each with the identifiers visible at its place
and its node in a program of the machine. -/
inductive Program.Occurs (program : Program) (body : List Command) :
    List String → Phrase → NodeId → Prop where
  | whole : Occurs program body [] (.ofCommands body) program.root
  | part {scope inner : List String} {phrase piece : Phrase} {id child : NodeId} {node : Node}
      (outer : Occurs program body scope phrase id) (fetched : program.code.node? id = some node)
      (paired : ((inner, piece), child) ∈ (phrase.parts scope).zip (node.children program.code)) :
      Occurs program body inner piece child

/-- Whether an image is what a surface program is translated to: it lays the program
out, with a node of its own for each phrase. -/
structure Image.IsOf (image : Image) (body : List Command) : Prop where
  laid : image.draft.Lays (.ofCommands body) image.program.root
  references : image.code.references.Nodup
  root : image.program.root ∉ image.code.references

theorem isOf_of_translate {names : NameTable} {body : List Command} {program : Program}
    (accepted : (translate names body).1 = .ok program) :
    (Image.mk program (translate names body).2).IsOf body := by
  have counted := count_references_of_translate accepted
  rcases exists_laid_of_translate accepted with ⟨ids, laid, flat⟩
  refine ⟨Draft.laysAs_commands.ofList laid.forall₂ flat, ?_, ?_⟩
  · rw [List.nodup_iff_count_le_one]
    intro id
    have atMost := counted id
    show program.code.references.count id ≤ 1
    split at atMost <;> omega
  · intro referred
    have atMost := counted program.root
    have atLeast : 1 ≤ program.code.references.count program.root :=
      List.count_pos_iff.mpr referred
    rw [List.count_singleton_self] at atMost
    split at atMost <;> omega

theorem exists_of_mem_right {Related : α → β → Prop} {left : List α} {right : List β}
    (related : List.Forall₂ Related left right) {entry : β} (member : entry ∈ right) :
    ∃ other ∈ left, Related other entry := by
  induction related with
  | nil => cases member
  | cons head _ induction =>
      rcases List.mem_cons.mp member with rfl | later
      · exact ⟨_, List.mem_cons_self, head⟩
      · rcases induction later with ⟨other, isOther, holds⟩
        exact ⟨other, List.mem_cons_of_mem _ isOther, holds⟩

namespace Program.Occurs

variable {image : Image} {body : List Command} {scope other : List String}
  {phrase piece : Phrase} {id child : NodeId}

theorem contains {program : Program} (occurs : program.Occurs body scope phrase id) :
    Contains body scope phrase := by
  induction occurs with
  | whole => exact .whole
  | part _ _ paired outer => exact .part outer (List.of_mem_zip paired).1

theorem lays (of : image.IsOf body) (occurs : image.program.Occurs body scope phrase id) :
    image.draft.Lays phrase id := by
  induction occurs with
  | whole => exact of.laid
  | @part scope _ _ _ _ _ _ _ fetched paired laid =>
      rcases laid.parts scope with ⟨node, found, parts⟩
      cases found.symm.trans fetched
      exact List.forall₂_zip parts paired

/-- The part of a phrase at an index, and the child of its node there. -/
theorem part_at {program : Program} (outer : program.Occurs body scope phrase id) (index : Nat)
    (isPart : (phrase.parts scope)[index]? = some (other, piece))
    (isChild : ((program.code.node? id).bind fun node => (node.children program.code)[index]?) =
      some child) : program.Occurs body other piece child := by
  rcases Option.bind_eq_some_iff.mp isChild with ⟨node, fetched, read⟩
  refine .part outer fetched (List.mem_iff_getElem?.mpr ⟨index, ?_⟩)
  exact List.getElem?_zip_eq_some.mpr ⟨isPart, read⟩

/-- The parts of a phrase occur at the children of its node. -/
theorem parts (of : image.IsOf body) (occurs : image.program.Occurs body scope phrase id)
    {node : Node} (fetched : image.code.node? id = some node) :
    List.Forall₂ (fun part child => image.program.Occurs body part.1 part.2 child)
      (phrase.parts scope) (node.children image.code) := by
  rcases (occurs.lays of).parts scope with ⟨found, fetchedFound, laid⟩
  cases fetchedFound.symm.trans fetched
  refine List.forall₂_iff_zip.mpr ⟨laid.length_eq, ?_⟩
  intro part child paired
  exact .part occurs fetched paired

theorem exists_of_contains (of : image.IsOf body) (contains : Contains body scope phrase) :
    ∃ id, image.program.Occurs body scope phrase id := by
  induction contains with
  | whole => exact ⟨_, .whole⟩
  | @part scope inner phrase piece outer isPart induction =>
      rcases induction with ⟨id, occurs⟩
      rcases (occurs.lays of).parts scope with ⟨node, fetched, laid⟩
      rcases List.mem_iff_getElem.mp isPart with ⟨index, known, read⟩
      have inside : index < (node.children image.code).length := laid.length_eq ▸ known
      have paired := List.forall₂_iff_get.mp (occurs.parts of fetched)
      refine ⟨(node.children image.code)[index], ?_⟩
      simpa [read] using paired.2 index known inside

theorem child_mem_references {node : Node} (fetched : image.code.node? id = some node)
    (isChild : child ∈ node.children image.code) : child ∈ image.code.references := by
  refine List.mem_flatMap.mpr ⟨node, ?_, isChild⟩
  exact Array.mem_toList_iff.mpr (Array.mem_of_getElem? fetched)

/-- A node that two nodes refer to is referred to from the same place. -/
theorem parent_eq (of : image.IsOf body) {first second : NodeId} {left right : Node}
    (fetchedLeft : image.code.node? first = some left)
    (fetchedRight : image.code.node? second = some right)
    (isLeft : child ∈ left.children image.code) (isRight : child ∈ right.children image.code) :
    first = second := by
  have separate := (List.nodup_flatMap.mp of.references).2
  by_contra different
  have indices : first.index ≠ second.index := by
    intro equal
    exact different (by cases first; cases second; cases equal; rfl)
  rcases Array.getElem?_eq_some_iff.mp fetchedLeft with ⟨leftKnown, leftRead⟩
  rcases Array.getElem?_eq_some_iff.mp fetchedRight with ⟨rightKnown, rightRead⟩
  have pairs := List.pairwise_iff_getElem.mp separate
  rcases Nat.lt_or_gt_of_ne indices with below | above
  · have disjoint := pairs first.index second.index leftKnown rightKnown below
    simp only [Array.getElem_toList, leftRead, rightRead] at disjoint
    exact disjoint isLeft isRight
  · have disjoint := pairs second.index first.index rightKnown leftKnown above
    simp only [Array.getElem_toList, leftRead, rightRead] at disjoint
    exact disjoint isRight isLeft

/-- Pairs of a zip are equal if their right sides are and no entry is repeated there. -/
theorem eq_of_mem_zip {left : List α} {right : List β} (distinct : right.Nodup) {first second : α}
    {entry : β} (isFirst : (first, entry) ∈ left.zip right)
    (isSecond : (second, entry) ∈ left.zip right) : first = second := by
  rcases List.mem_iff_getElem.mp isFirst with ⟨index, known, readFirst⟩
  rcases List.mem_iff_getElem.mp isSecond with ⟨other, knownOther, readSecond⟩
  simp only [List.getElem_zip, Prod.mk.injEq] at readFirst readSecond
  have same := (List.getElem_inj distinct).mp (readFirst.2.trans readSecond.2.symm)
  subst same
  exact readFirst.1.symm.trans readSecond.1

/-- A node is that of one phrase at one place only. -/
theorem unique (of : image.IsOf body) (occurs : image.program.Occurs body scope phrase id)
    (others : image.program.Occurs body other piece id) : scope = other ∧ phrase = piece := by
  induction occurs generalizing other piece with
  | whole =>
      cases others with
      | whole => exact ⟨rfl, rfl⟩
      | part _ fetched paired =>
          exact absurd (child_mem_references fetched (List.of_mem_zip paired).2) of.root
  | part _ fetched paired induction =>
      have isChild := (List.of_mem_zip paired).2
      cases others with
      | whole => exact absurd (child_mem_references fetched isChild) of.root
      | part outer fetchedOther pairedOther =>
          have sameParent := parent_eq of fetched fetchedOther isChild (List.of_mem_zip pairedOther).2
          subst sameParent
          cases fetched.symm.trans fetchedOther
          rcases induction outer with ⟨rfl, rfl⟩
          have distinct := (List.nodup_flatMap.mp of.references).1 _
            (Array.mem_toList_iff.mpr (Array.mem_of_getElem? fetched))
          cases eq_of_mem_zip distinct paired pairedOther
          exact ⟨rfl, rfl⟩

end Program.Occurs

end BlockMachine
