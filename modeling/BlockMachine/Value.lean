import BlockMachine.Name
import BlockMachine.Number.Text

namespace BlockMachine

/-! # Values

Three nested kinds of value. A cell of the store holds a number, a boolean or the
address of a cell; a name may also be bound to a closure; and the value stack
holds more still, as its own module says. Numbers are compared as the language
compares them: a NaN differs from itself, and the two zeros are equal. -/

/-- The address of a cell of the store. -/
structure Address where
  index : Nat
deriving DecidableEq, Inhabited, Repr

namespace Address

def text (address : Address) : String :=
  "loc(" ++ toString address.index ++ ")"

end Address

/-- The position of a closure in the closure table. -/
structure ClosureId where
  index : Nat
deriving DecidableEq, Inhabited, Repr

/-- The position of a recursive group in the closure table. -/
structure GroupId where
  index : Nat
deriving DecidableEq, Inhabited, Repr

/-- A reference to a closure. A member of a recursive group says which group, so
that a call can make all members visible to its body. -/
structure ClosureRef where
  closure : ClosureId
  group : Option GroupId
deriving DecidableEq, Inhabited, Repr

namespace ClosureRef

def plain (closure : ClosureId) : ClosureRef := ⟨closure, none⟩

def recursive (closure : ClosureId) (group : GroupId) : ClosureRef := ⟨closure, some group⟩

def isRecursive (reference : ClosureRef) : Bool :=
  reference.group.isSome

end ClosureRef

/-- What a cell of the store holds. -/
inductive Storable where
  | number (value : Float)
  | boolean (value : Bool)
  | location (address : Address)
deriving BEq, Inhabited, Repr

namespace Storable

def typeName : Storable → String
  | number .. => "number"
  | boolean .. => "boolean"
  | location .. => "location"

/-- How the value is printed. -/
def text : Storable → String
  | number value => numberText value
  | boolean true => "true"
  | boolean false => "false"
  | location address => address.text

end Storable

/-- What a name is bound to. Closures cannot be stored in a cell, so none
outlives the block that made it. -/
inductive Bindable where
  | storable (value : Storable)
  | closure (reference : ClosureRef)
deriving BEq, Inhabited, Repr

namespace Bindable

def typeName : Bindable → String
  | storable value => value.typeName
  | closure .. => "closure"

/-- How the value is printed. -/
def text : Bindable → String
  | storable value => value.text
  | closure .. => "<closure>"

def storable? : Bindable → Option Storable
  | storable value => some value
  | closure .. => none

end Bindable

end BlockMachine
