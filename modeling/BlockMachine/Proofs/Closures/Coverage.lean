import BlockMachine.Proofs.Machine.Horizon

namespace BlockMachine

/-! # Coverage of references

Every reference to a closure that occurs in a state is to an entry of its tables,
although these are cut back whenever a scope ends. -/

/-- Whether a value is no reference to a closure or one to entries below a mark. -/
def Mark.Covers (mark : Mark) : Bindable → Prop
  | .storable _ => True
  | .closure reference =>
    reference.closure.index < mark.closures ∧ ∀ id ∈ reference.group, id.index < mark.groups

theorem Mark.Covers.mono {lower upper : Mark} {value : Bindable} (covers : lower.Covers value)
    (below : lower.Below upper) : upper.Covers value := by
  cases value with
  | storable value => trivial
  | closure reference =>
      refine ⟨Nat.lt_of_lt_of_le covers.1 below.closures, ?_⟩
      intro id isGroup
      exact Nat.lt_of_lt_of_le (covers.2 id isGroup) below.groups

/-- All references that occur in a state are to entries of its tables. -/
structure State.Covered (state : State) : Prop where
  environment : state.environment.Holds state.closures.mark.Covers
  values : ∀ entry ∈ state.values, entry.Holds state.closures.mark.Covers
  captured : ∀ id closure, state.closures.closure? id = some closure →
    closure.captured.Holds state.closures.mark.Covers
  members : ∀ id members, state.closures.members? id = some members →
    ∀ member ∈ members, member.2.index < state.closures.size

theorem Horizon.carried_covers : Carried fun horizon => horizon.mark.Covers where
  widen := fun within covered => covered.mono within.mark
  number := fun _ _ => trivial
  boolean := fun _ _ => trivial
  location := fun _ => trivial
  plain := fun below => ⟨below, by simp [ClosureRef.plain]⟩
  recursive := by
    intro horizon reference group covered below
    refine ⟨covered.1, ?_⟩
    intro id isGroup
    cases isGroup
    exact below

namespace State

variable {state : State}

theorem assignsWithin_covers : state.AssignsWithin fun horizon => horizon.mark.Covers := by
  intro value target rest address taken bound regions mark isPrefix owns
  trivial

theorem Settled.covered (settled : state.Settled fun horizon => horizon.mark.Covers) :
    state.Covered where
  environment := settled.environment
  values := settled.stack.holds Horizon.carried_covers
  captured := by
    intro id closure found
    exact settled.horizon.captured id closure (ClosureTable.index_lt_of_closure? found) found
  members := by
    intro id members found member isMember
    exact (settled.horizon.members id members (ClosureTable.index_lt_of_members? found) found
      member isMember).1

end State

namespace Machine

variable {before after : Machine}

theorem Advances.settled_covers (advances : before.Advances after) (owns : before.state.Owns)
    (settled : before.state.Settled fun horizon => horizon.mark.Covers) :
    after.state.Settled fun horizon => horizon.mark.Covers := by
  rcases advances.rule with ⟨entry, rest, _, rule⟩
  have begun : (begin before.state rest).Owns := ⟨owns.increasing, owns.live⟩
  have settledBegun : (begin before.state rest).Settled fun horizon => horizon.mark.Covers :=
    settled.frame rest _ _
  exact settledBegun.rule Horizon.carried_covers rule begun fun _ => State.assignsWithin_covers

theorem Reaches.settled_covers (reaches : before.Reaches after) (owns : before.state.Owns)
    (settled : before.state.Settled fun horizon => horizon.mark.Covers) :
    after.state.Owns ∧ after.state.Settled fun horizon => horizon.mark.Covers := by
  have step (machine next : Machine) (advances : machine.Advances next)
      (kept : machine.state.Owns ∧ machine.state.Settled fun horizon => horizon.mark.Covers) :
      next.state.Owns ∧ next.state.Settled fun horizon => horizon.mark.Covers :=
    ⟨advances.owns kept.1, advances.settled_covers kept.1 kept.2⟩
  exact reaches.keeps step ⟨owns, settled⟩

end Machine

end BlockMachine
