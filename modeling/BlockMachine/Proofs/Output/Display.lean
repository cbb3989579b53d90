import BlockMachine.Proofs.Output.Lines
import BlockMachine.Value

namespace BlockMachine

/-! # How values are displayed

A number is written with digits, a point and a sign, or as one of a few words; so are the
other values. None of these breaks a line. -/

namespace Text

/-- Whether a text has neither line feeds nor carriage returns. -/
def IsUnbroken (text : String) : Prop :=
  ∀ char ∈ text.toList, char ≠ '\n' ∧ char ≠ '\r'

-- Decided over the characters of the text, not over all that there are.
instance (text : String) : Decidable (IsUnbroken text) :=
  List.decidableBAll _ text.toList

variable {text other : String}

theorem IsUnbroken.append (first : IsUnbroken text) (second : IsUnbroken other) :
    IsUnbroken (text ++ other) := by
  rw [IsUnbroken, String.toList_append, List.forall_mem_append]
  exact ⟨first, second⟩

theorem IsUnbroken.isLine (unbroken : IsUnbroken text) : IsLine text :=
  ⟨fun inside => (unbroken _ inside).1 rfl,
    fun last => (unbroken _ (List.mem_of_getLast? last)).2 rfl⟩

theorem isUnbroken_of_digits (digits : ∀ char ∈ text.toList, char.isDigit ∨ char = '.') :
    IsUnbroken text := by
  intro char inside
  rcases digits char inside with digit | rfl
  · constructor <;> rintro rfl <;> exact absurd digit (by decide)
  · decide

end Text

/-! ## Numbers -/

theorem isDigit_of_mem_decimal {char : Char} {number : Nat}
    (inside : char ∈ Nat.toDigits 10 number) : char.isDigit :=
  Nat.isDigit_of_mem_toDigits (by decide) (by decide) inside

theorem isDigit_of_mem_padded {char : Char} {zeros number : Nat}
    (inside : char ∈ List.replicate zeros '0' ++ Nat.toDigits 10 number) : char.isDigit := by
  rcases List.mem_append.mp inside with padding | digit
  · rw [List.eq_of_mem_replicate padding]
    decide
  · exact isDigit_of_mem_decimal digit

/-- A decimal is written with digits and a point. -/
theorem Decimal.isDigit_or_point {decimal : Decimal} {char : Char}
    (inside : char ∈ decimal.text.toList) : char.isDigit ∨ char = '.' := by
  rw [text] at inside
  split at inside
  next =>
    rw [String.toList_ofList, List.mem_append, or_comm, ← List.mem_append] at inside
    exact .inl (isDigit_of_mem_padded inside)
  next =>
    simp only [List.splitAt_eq, String.toList_ofList, List.mem_append, List.mem_cons] at inside
    rcases inside with whole | point | fraction
    · exact .inl (isDigit_of_mem_padded (List.mem_of_mem_take whole))
    · exact .inr point
    · exact .inl (isDigit_of_mem_padded (List.mem_of_mem_drop fraction))

theorem isUnbroken_magnitudeText (exponentField fractionField : Nat) :
    Text.IsUnbroken (magnitudeText exponentField fractionField) := by
  have unbroken (decimal : Decimal) : Text.IsUnbroken decimal.text :=
    Text.isUnbroken_of_digits fun _ inside => decimal.isDigit_or_point inside
  rw [magnitudeText]
  split
  · split
    · exact unbroken _
    · decide
  · exact unbroken _

theorem isUnbroken_numberText (value : Float) : Text.IsUnbroken (numberText value) := by
  rw [numberText]
  have sign (negative : Prop) [Decidable negative] :
      Text.IsUnbroken (if negative then "" else "-") := by
    split <;> decide
  split
  · split
    · exact (sign _).append (by decide)
    · decide
  · exact (sign _).append (isUnbroken_magnitudeText _ _)

/-! ## Values -/

theorem Address.isUnbroken_text (address : Address) : Text.IsUnbroken address.text := by
  have index : Text.IsUnbroken (toString address.index) := by
    refine Text.isUnbroken_of_digits fun char inside => .inl ?_
    rw [Nat.toString_eq_ofList_toDigits, String.toList_ofList] at inside
    exact isDigit_of_mem_decimal inside
  exact (Text.IsUnbroken.append (by decide) index).append (by decide)

/-- The text of a value never breaks a line. -/
theorem Bindable.isUnbroken_text : ∀ value : Bindable, Text.IsUnbroken value.text
  | .storable (.number number) => isUnbroken_numberText number
  | .storable (.boolean true) => show Text.IsUnbroken "true" by decide
  | .storable (.boolean false) => show Text.IsUnbroken "false" by decide
  | .storable (.location address) => address.isUnbroken_text
  | .closure _ => show Text.IsUnbroken "<closure>" by decide

end BlockMachine
