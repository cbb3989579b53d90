import BlockMachine.Proofs.Machine.Markers

namespace BlockMachine

/-! # Strides

Scopes are opened and closed like brackets. A run can therefore be cut into strides:
a stride is one step that opens no scope, or a whole scope from its opening to its
end. What strides keep need not be known within the scopes. -/

/-- An entry that is carried out leaves those below it. -/
theorem Rule.control_suffix {image : Image} {entry : Control} {before after : State}
    (rule : Rule image entry before after) : before.control <:+ after.control := by
  cases rule with
  | agenda | cond | loop => exact List.suffix_append _ _
  | block => exact (List.suffix_append [_, _, _, _] _)
  | call => exact (List.suffix_append [_, _] _)
  | _ => exact List.suffix_refl _

namespace Machine

/-- A step that carries out an entry above `rest`. -/
def AdvancesOver (rest : List Control) (before after : Machine) : Prop :=
  before.Advances after ∧ ∃ entry front, before.state.control = entry :: (front ++ rest)

/-- A step that opens no scope, or a scope from its opening to its end; both above
`rest`. -/
inductive Strides (rest : List Control) (before after : Machine) : Prop where
  | step {entry : Control} {front : List Control} (advances : before.Advances after)
      (scheduled : before.state.control = entry :: (front ++ rest))
      (plain : ¬entry.OpensScope before.image.code)
  | scope {entry : Control} {front : List Control} {inner : Machine}
      (scheduled : before.state.control = entry :: (front ++ rest))
      (encloses : Encloses (front ++ rest) before inner) (closes : inner.Advances after)

/-- Whether a scope that `outer` opens over `rest` is still to be closed. -/
structure Within (rest : List Control) (outer inner : Machine) : Prop where
  opener : ∃ entry, outer.state.control = entry :: rest ∧ entry.OpensScope outer.image.code
  inside : ∃ first, outer.Advances first ∧ Relation.ReflTransGen (AdvancesInside rest) first inner
  unclosed : .op .blockCommands :: rest <:+ inner.state.control

variable {rest : List Control} {start before after outer inner closed machine : Machine}

theorem Advances.control_suffix (advances : before.Advances after) {entry : Control}
    (scheduled : before.state.control = entry :: rest) : rest <:+ after.state.control := by
  rcases advances.rule with ⟨top, left, scheduledTop, rule⟩
  rcases List.cons.inj (scheduledTop.symm.trans scheduled) with ⟨_, rfl⟩
  exact rule.control_suffix

/-- A step that opens a scope leaves its end to be carried out. -/
theorem Advances.within (advances : before.Advances after) {entry : Control}
    (scheduled : before.state.control = entry :: rest)
    (opener : entry.OpensScope before.image.code) : Within rest before after where
  opener := ⟨entry, scheduled, opener⟩
  inside := ⟨after, advances, .refl⟩
  unclosed := by
    rcases advances.rule with ⟨top, left, scheduledTop, rule⟩
    rcases List.cons.inj (scheduledTop.symm.trans scheduled) with ⟨rfl, rfl⟩
    rcases State.Above.of_opener rule opener with ⟨_, _, front, _, _, _, above⟩
    exact ⟨front, above.control.symm⟩

/-- Within a scope a step stays there or closes it. -/
theorem Within.advances (within : Within rest outer before) (advances : before.Advances after) :
    Within rest outer after ∨ Encloses rest outer before := by
  rcases within.unclosed with ⟨front, control⟩
  cases front with
  | nil => exact .inr ⟨within.opener, within.inside, control.symm⟩
  | cons entry front =>
      have unclosed : .op .blockCommands :: rest <:+ after.state.control :=
        (List.suffix_append front _).trans (advances.control_suffix control.symm)
      rcases within.inside with ⟨first, opened, inside⟩
      exact .inl ⟨within.opener, ⟨first, opened, inside.tail ⟨advances, unclosed⟩⟩, unclosed⟩

/-- The end of a scope leaves the control entries below it, and live the cells that
were so when it was opened. -/
theorem Encloses.closed_eq (encloses : Encloses rest outer inner) (closes : inner.Advances closed)
    (balanced : outer.Balanced) (owns : outer.state.Owns) :
    closed.state.control = rest ∧
      ∀ address, closed.state.store.isLive address ↔ outer.state.store.isLive address := by
  constructor
  · rcases closes.scopeChange with ⟨entry, left, scheduled, change⟩
    rcases List.cons.inj (scheduled.symm.trans encloses.closing) with ⟨rfl, rfl⟩
    cases change with
    | closes _ _ _ control => exact control
    | opens opener => exact opener.elim
    | allocates opcode => cases opcode
    | stays _ notCloser => exact absurd rfl notCloser
  · intro address
    have closedOwns := Reaches.owns (encloses.reaches.tail closes) owns
    rw [← closedOwns.live, ← owns.live, (encloses.owned_eq balanced closes).1]

theorem Strides.reaches (strides : Strides rest before after) : before.Reaches after := by
  cases strides with
  | step advances => exact .single advances
  | scope scheduled encloses closes => exact encloses.reaches.tail closes

/-- What a run has done above `rest` are strides, and maybe a part of a scope. -/
theorem exists_strides (run : Relation.ReflTransGen (AdvancesOver rest) start machine) :
    ∃ outer, Relation.ReflTransGen (Strides rest) start outer ∧
      (machine = outer ∨ ∃ front, Within (front ++ rest) outer machine) := by
  induction run with
  | refl => exact ⟨start, .refl, .inl rfl⟩
  | @tail before after _ last induction =>
      rcases induction with ⟨outer, strides, rfl | ⟨front, within⟩⟩
      · rcases last with ⟨advances, entry, front, scheduled⟩
        by_cases opener : entry.OpensScope before.image.code
        · exact ⟨before, strides, .inr ⟨front, advances.within scheduled opener⟩⟩
        · exact ⟨after, strides.tail (.step advances scheduled opener), .inl rfl⟩
      · rcases within.advances last.1 with still | encloses
        · exact ⟨outer, strides, .inr ⟨front, still⟩⟩
        · rcases within.opener with ⟨entry, scheduled, _⟩
          exact ⟨after, strides.tail (.scope scheduled encloses last.1), .inl rfl⟩

/-- A run that leaves nothing above `rest` consists of strides. -/
theorem strides_of_finished (run : Relation.ReflTransGen (AdvancesOver rest) start machine)
    (finished : machine.state.control = rest) :
    Relation.ReflTransGen (Strides rest) start machine := by
  rcases exists_strides run with ⟨outer, strides, rfl | ⟨front, within⟩⟩
  · exact strides
  · have longer := within.unclosed.length_le
    rw [finished, List.length_cons, List.length_append] at longer
    omega

/-- A run that is about to enter a node above `rest` consists of strides, too. -/
theorem strides_of_again {id : NodeId}
    (run : Relation.ReflTransGen (AdvancesOver rest) start machine)
    (again : machine.state.control = .node id :: rest) :
    Relation.ReflTransGen (Strides rest) start machine := by
  rcases exists_strides run with ⟨outer, strides, rfl | ⟨front, within⟩⟩
  · exact strides
  · have unclosed := within.unclosed
    rw [again] at unclosed
    have lengths := unclosed.length_le
    have same : (Control.op .blockCommands :: (front ++ rest)).length =
        (Control.node id :: rest).length := by
      simp only [List.length_cons, List.length_append] at lengths ⊢
      omega
    cases unclosed.eq_of_length same

theorem reaches_of_reachesOver (run : Relation.ReflTransGen (AdvancesOver rest) before after) :
    before.Reaches after :=
  run.lift id fun _ _ advances => advances.1

/-- All of a run lies above the empty control stack. -/
theorem reachesOver_nil (reaches : before.Reaches after) :
    Relation.ReflTransGen (AdvancesOver []) before after := by
  refine reaches.lift id ?_
  intro machine next advances
  rcases advances.rule with ⟨entry, left, scheduled, _⟩
  exact ⟨advances, entry, left, scheduled.trans (congrArg _ (List.append_nil left).symm)⟩

end Machine

end BlockMachine
