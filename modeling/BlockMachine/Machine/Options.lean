namespace BlockMachine

/-! # Options of a machine -/

/-- How many steps a machine may make, if not any number, and whether a failing
step reports the state it left behind. -/
structure Options where
  maxSteps : Option Nat
  snapshotOnFault : Bool
deriving DecidableEq, Repr

namespace Options

/-- No limit, and states are reported. -/
def unbounded : Options := ⟨none, true⟩

instance : Inhabited Options := ⟨unbounded⟩

def withMaxSteps (options : Options) (limit : Nat) : Options :=
  { options with maxSteps := some limit }

def withSnapshotOnFault (options : Options) (enabled : Bool) : Options :=
  { options with snapshotOnFault := enabled }

/-- The limit, if `steps` steps use it up. -/
def exceeded? (options : Options) (steps : Nat) : Option Nat :=
  options.maxSteps.filter fun limit => limit ≤ steps

/-- Whether no further step may be made after `steps` steps. -/
def isExhausted (options : Options) (steps : Nat) : Bool :=
  (options.exceeded? steps).isSome

theorem exceeded?_eq_some_iff {options : Options} {steps limit : Nat} :
    options.exceeded? steps = some limit ↔ options.maxSteps = some limit ∧ limit ≤ steps := by
  simp [exceeded?, Option.filter_eq_some_iff]

end Options

end BlockMachine
