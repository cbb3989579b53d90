namespace BlockMachine

/-! # Shortest decimals

A range of natural numbers around a value, and the decimal with fewest digits
that lies in it. A decimal that is a multiple of a high power of ten has few
digits, so powers are tried downward and the first hit wins. On each grid of
multiples only the two neighbours of the value need a look: if any multiple lies
in the range, so does one of them. -/

/-- A decimal numeral: `digits` followed by `exponent` zeros, or by as many
places after the point if the exponent is negative. -/
structure Decimal where
  digits : Nat
  exponent : Int
deriving DecidableEq, Repr

/-- The numbers that may stand for `value`: those between `low` and `high`, and
these two as well if `inclusive`. -/
structure Range where
  low : Nat
  value : Nat
  high : Nat
  inclusive : Bool
  low_lt_value : low < value
  value_lt_high : value < high

namespace Range

def accepts (range : Range) (number : Nat) : Bool :=
  if range.inclusive then
    range.low ≤ number && number ≤ range.high
  else
    range.low < number && number < range.high

@[simp] theorem accepts_value (range : Range) : range.accepts range.value = true := by
  have below := range.low_lt_value
  have above := range.value_lt_high
  simp only [accepts]
  split <;> simp <;> omega

/-- Between two accepted numbers everything is accepted. -/
theorem accepts_between {range : Range} {left middle right : Nat}
    (leftIn : range.accepts left = true) (rightIn : range.accepts right = true)
    (leftLe : left ≤ middle) (leRight : middle ≤ right) : range.accepts middle = true := by
  simp only [accepts] at *
  split at leftIn <;> simp_all <;> omega

/-! ## One grid -/

/-- The multiple of `unit` that stands for the value, divided by `unit`: the
nearer accepted one of the two neighbours, the upper one if both are equally
near. -/
def hit? (range : Range) (unit : Nat) : Option Nat :=
  let below := range.value / unit
  let above := below + 1
  match range.accepts (below * unit), range.accepts (above * unit) with
  | true, true => some (if 2 * (range.value % unit) < unit then below else above)
  | true, false => some below
  | false, true => some above
  | false, false => none

/-- A hit is accepted. -/
theorem accepts_of_hit? {range : Range} {unit multiple : Nat}
    (hit : range.hit? unit = some multiple) : range.accepts (multiple * unit) = true := by
  simp only [hit?] at hit
  split at hit
  · split at hit <;> cases hit <;> assumption
  all_goals cases hit
  all_goals assumption

/-- A grid without a hit has no accepted multiple at all. -/
theorem hit?_eq_none_iff {range : Range} {unit : Nat} (positive : 0 < unit) :
    range.hit? unit = none ↔ ∀ multiple, range.accepts (multiple * unit) = false := by
  constructor
  · intro missed multiple
    simp only [hit?] at missed
    split at missed <;> try contradiction
    next belowOut aboveOut =>
      have lower : range.value / unit * unit ≤ range.value := Nat.div_mul_le_self ..
      have upper : range.value < (range.value / unit + 1) * unit := by
        rw [Nat.add_mul, Nat.one_mul]
        exact Nat.lt_div_mul_add positive
      cases accepted : range.accepts (multiple * unit) with
      | false => rfl
      | true =>
        by_cases before : multiple ≤ range.value / unit
        · have := accepts_between accepted range.accepts_value
            (Nat.mul_le_mul_right unit before) lower
          simp_all
        · have := accepts_between range.accepts_value accepted (Nat.le_of_lt upper)
            (Nat.mul_le_mul_right unit (Nat.lt_of_not_le before))
          simp_all
  · intro allOut
    simp [hit?, allOut]

/-! ## All grids -/

/-- The unit of the grid whose multiples end in so many zeros. -/
def gridUnit (zeros : Nat) : Nat :=
  Nat.pow 10 zeros

theorem gridUnit_pos (zeros : Nat) : 0 < gridUnit zeros :=
  Nat.pow_pos (by decide)

/-- Search the grids of `gridUnit place`, `gridUnit (place - 1)` and so on to
`gridUnit 0`. The last one holds the value itself. -/
def search (range : Range) : Nat → Decimal
  | 0 => ⟨range.value, 0⟩
  | place + 1 =>
    match range.hit? (gridUnit (place + 1)) with
    | some multiple => ⟨multiple, (place + 1 : Nat)⟩
    | none => range.search place

/-- A power of ten above the whole range: its grid and the coarser ones have no
multiple in the range but perhaps zero. -/
def topPlace (range : Range) : Nat :=
  range.high.log2 / 3 + 1

theorem high_lt_topPlace (range : Range) : range.high < gridUnit range.topPlace := by
  calc range.high < 2 ^ (range.high.log2 + 1) := Nat.lt_log2_self
    _ ≤ 2 ^ (3 * range.topPlace) :=
      Nat.pow_le_pow_right (by decide) (by simp only [topPlace]; omega)
    _ = 8 ^ range.topPlace := by rw [Nat.pow_mul]
    _ ≤ gridUnit range.topPlace := Nat.pow_le_pow_left (by decide) _

/-- The decimal with fewest digits in the range, nearest to the value. -/
def shortest (range : Range) : Decimal :=
  range.search range.topPlace

/-- What the search finds lies in the range. -/
theorem accepts_search (range : Range) (place : Nat) :
    ∃ zeros : Nat, (range.search place).exponent = zeros ∧ zeros ≤ place ∧
      range.accepts ((range.search place).digits * gridUnit zeros) = true := by
  induction place with
  | zero => exact ⟨0, rfl, Nat.le_refl 0, by simp [search, gridUnit]⟩
  | succ place induction =>
    simp only [search]
    split
    next multiple hit =>
      exact ⟨place + 1, rfl, Nat.le_refl _, accepts_of_hit? hit⟩
    next =>
      obtain ⟨zeros, equal, bound, accepted⟩ := induction
      exact ⟨zeros, equal, Nat.le_succ_of_le bound, accepted⟩

/-- No coarser grid that was searched meets the range. -/
theorem no_coarser_of_search (range : Range) {place coarser : Nat}
    (searched : coarser ≤ place)
    (above : (range.search place).exponent < (coarser : Int)) (multiple : Nat) :
    range.accepts (multiple * gridUnit coarser) = false := by
  induction place with
  | zero => simp [search] at above; omega
  | succ place induction =>
    simp only [search] at above
    split at above
    next found hit => simp at above; omega
    next missed =>
      by_cases top : coarser = place + 1
      · rw [top]
        exact (hit?_eq_none_iff (gridUnit_pos _)).mp missed multiple
      · exact induction (by omega) above

theorem le_high_of_accepts {range : Range} {number : Nat}
    (accepted : range.accepts number = true) : number ≤ range.high := by
  simp only [accepts] at accepted
  split at accepted <;> simp at accepted <;> omega

/-- The shortest decimal of a range lies in it, and ends in as many zeros as any of its
numbers: coarser grids have no multiple in the range but perhaps zero. -/
theorem shortest_coarsest (range : Range) :
    ∃ zeros : Nat, range.shortest.exponent = zeros ∧
      range.accepts (range.shortest.digits * gridUnit zeros) = true ∧
      ∀ coarser multiple, zeros < coarser →
        range.accepts (multiple * gridUnit coarser) = true → multiple = 0 := by
  obtain ⟨zeros, exponent, _, accepted⟩ := range.accepts_search range.topPlace
  refine ⟨zeros, exponent, accepted, fun coarser multiple above isAccepted => ?_⟩
  by_cases searched : coarser ≤ range.topPlace
  · have finer : (range.search range.topPlace).exponent < (coarser : Int) := by omega
    rw [range.no_coarser_of_search searched finer multiple] at isAccepted
    contradiction
  · -- Grids that were not searched are so coarse that their units lie above the range.
    have unit : gridUnit range.topPlace ≤ gridUnit coarser :=
      Nat.pow_le_pow_right (by decide) (by omega)
    have beyond := range.high_lt_topPlace
    have within := le_high_of_accepts isAccepted
    refine Nat.eq_zero_of_not_pos fun positive => ?_
    have atLeastUnit : 1 * gridUnit coarser ≤ multiple * gridUnit coarser :=
      Nat.mul_le_mul_right _ positive
    omega

end Range

end BlockMachine
