namespace BlockMachine

/-! # Names

Programs mention identifiers by number. Two tables fix which text a number stands for:
one finds the name of a text, the other lists the texts in the order of their names.
Texts are numbered in the order in which they are first met, the empty text being number
zero. The tables grow together, and stand for one another at any time: two texts get the
same name exactly when they are equal, and a name keeps its text however much the tables
grow. -/

/-- An identifier, standing for the text at its index in a name table. -/
structure Name where
  index : Nat
deriving DecidableEq, Repr

namespace Name

/-- The name of the empty text. -/
def empty : Name := ⟨0⟩

instance : Inhabited Name := ⟨empty⟩

/-- The form in which diagnostics show a name without its table. -/
def inspect (name : Name) : String :=
  "Name(" ++ toString name.index ++ ")"

end Name

/-! ## From texts to names -/

/-- A finite map from texts to names. The first entry of a text counts. -/
structure NameIndex where
  entries : List (String × Name)

namespace NameIndex

def empty : NameIndex := ⟨[]⟩

def find? (index : NameIndex) (text : String) : Option Name :=
  index.entries.lookup text

/-- Give a text a name, in place of the one it had. -/
def insert (index : NameIndex) (text : String) (name : Name) : NameIndex :=
  ⟨(text, name) :: index.entries⟩

@[simp] theorem find?_empty (query : String) : empty.find? query = none := rfl

@[simp] theorem find?_insert (index : NameIndex) (text query : String) (name : Name) :
    (index.insert text name).find? query =
      if query = text then some name else index.find? query := by
  by_cases same : query = text
  · simp [find?, insert, same]
  · have differs : (query == text) = false := by simpa using same
    simp [find?, insert, List.lookup_cons, differs, same]

end NameIndex

/-! ## Both tables -/

/-- The names of texts, and the texts of names. -/
structure Lexicon where
  names : NameIndex
  texts : List String

namespace Lexicon

/-- The tables of a program without identifiers. -/
def initial : Lexicon where
  names := NameIndex.empty.insert "" .empty
  texts := [""]

/-- How many names are in use, that of the empty text included. -/
def size (lexicon : Lexicon) : Nat :=
  lexicon.texts.length

/-- Whether no text but the empty one has a name. -/
def isEmpty (lexicon : Lexicon) : Bool :=
  lexicon.size ≤ 1

/-- The name of a text, if it has one. -/
def find? (lexicon : Lexicon) (text : String) : Option Name :=
  lexicon.names.find? text

/-- The text of a name. A name from outside the table reads as `<unknown>`. -/
def text (lexicon : Lexicon) (name : Name) : String :=
  lexicon.texts[name.index]?.getD "<unknown>"

/-- Add a text to both tables; its name is the next free number. -/
def append (lexicon : Lexicon) (text : String) : Lexicon where
  names := lexicon.names.insert text ⟨lexicon.size⟩
  texts := lexicon.texts ++ [text]

/-- The name of a text, which joins the tables if it had none. -/
def intern (lexicon : Lexicon) (text : String) : Name × Lexicon :=
  match lexicon.find? text with
  | some name => (name, lexicon)
  | none => (⟨lexicon.size⟩, lexicon.append text)

/-- Whether the tables stand for one another: a text has the name under which it is
listed, and no other. The empty text is listed first. -/
structure Consistent (lexicon : Lexicon) : Prop where
  inverse : ∀ text name,
    lexicon.find? text = some name ↔ lexicon.texts[name.index]? = some text
  startsEmpty : lexicon.texts.head? = some ""

theorem Consistent.text_of_find? {lexicon : Lexicon} (consistent : lexicon.Consistent)
    {text : String} {name : Name} (found : lexicon.find? text = some name) :
    lexicon.text name = text := by
  simp [Lexicon.text, (consistent.inverse text name).mp found]

theorem consistent_initial : initial.Consistent where
  inverse := by
    intro text name
    rcases name with ⟨_ | index⟩ <;> simp [initial, find?, Name.empty, eq_comm]
  startsEmpty := rfl

theorem find?_append (lexicon : Lexicon) (text query : String) :
    (lexicon.append text).find? query =
      if query = text then some ⟨lexicon.size⟩ else lexicon.find? query :=
  NameIndex.find?_insert ..

theorem texts_append (lexicon : Lexicon) (text : String) (index : Nat) :
    (lexicon.append text).texts[index]? =
      if index = lexicon.size then some text else lexicon.texts[index]? := by
  by_cases isLast : index = lexicon.size
  · simp [append, isLast, size]
  · rw [if_neg isLast, append]
    by_cases inside : index < lexicon.texts.length
    · exact List.getElem?_append_left inside
    · have outside : (lexicon.texts ++ [text]).length ≤ index := by
        simp only [size, List.length_append, List.length_singleton] at *
        omega
      rw [List.getElem?_eq_none outside, List.getElem?_eq_none (Nat.le_of_not_lt inside)]

/-- A text that was not listed yet can be added. -/
theorem Consistent.append {lexicon : Lexicon} {text : String} (consistent : lexicon.Consistent)
    (absent : lexicon.find? text = none) : (lexicon.append text).Consistent where
  inverse := by
    intro query name
    rcases name with ⟨index⟩
    have old := consistent.inverse query ⟨index⟩
    have beyond : lexicon.texts[lexicon.size]? = none := List.getElem?_eq_none (Nat.le_refl _)
    rw [find?_append, texts_append]
    by_cases isNew : query = text
    · subst isNew
      rw [absent] at old
      by_cases isLast : index = lexicon.size
      · simp [isLast]
      · simp [isLast, ← old, eq_comm]
    · by_cases isLast : index = lexicon.size
      · subst isLast
        rw [beyond] at old
        simp [isNew, Ne.symm isNew, old]
      · simp [isNew, isLast, old]
  startsEmpty := by simp [Lexicon.append, List.head?_append, consistent.startsEmpty]

/-- Interning a known text changes nothing. -/
theorem intern_of_find?_eq_some {lexicon : Lexicon} {text : String} {name : Name}
    (found : lexicon.find? text = some name) : lexicon.intern text = (name, lexicon) := by
  simp [intern, found]

/-- Interning a new text gives it the next number. -/
theorem intern_of_find?_eq_none {lexicon : Lexicon} {text : String}
    (absent : lexicon.find? text = none) :
    lexicon.intern text = (⟨lexicon.size⟩, lexicon.append text) := by
  simp [intern, absent]

theorem Consistent.intern {lexicon : Lexicon} (consistent : lexicon.Consistent) (text : String) :
    (lexicon.intern text).2.Consistent := by
  cases found : lexicon.find? text with
  | none =>
    rw [intern_of_find?_eq_none found]
    exact consistent.append found
  | some name =>
    rw [intern_of_find?_eq_some found]
    exact consistent

/-- A known text keeps its name. -/
theorem find?_intern_of_find? {lexicon : Lexicon} {text : String} {name : Name}
    (known : lexicon.find? text = some name) (other : String) :
    (lexicon.intern other).2.find? text = some name := by
  cases found : lexicon.find? other with
  | none =>
    have different : text ≠ other := by
      rintro rfl
      rw [known] at found
      contradiction
    rw [intern_of_find?_eq_none found, find?_append, if_neg different, known]
  | some _ => rw [intern_of_find?_eq_some found, known]

/-- A text that was interned is found under its name. -/
theorem find?_intern (lexicon : Lexicon) (text : String) :
    (lexicon.intern text).2.find? text = some (lexicon.intern text).1 := by
  cases found : lexicon.find? text with
  | none => rw [intern_of_find?_eq_none found, find?_append, if_pos rfl]
  | some name => rw [intern_of_find?_eq_some found, found]

end Lexicon

/-! ## Name tables -/

/-- The names in use and their texts: two tables that stand for one another. -/
structure NameTable extends Lexicon where
  consistent : toLexicon.Consistent

namespace NameTable

def initial : NameTable := ⟨.initial, Lexicon.consistent_initial⟩

instance : Inhabited NameTable := ⟨initial⟩

def intern (table : NameTable) (text : String) : Name × NameTable :=
  let interned := table.toLexicon.intern text
  (interned.1, ⟨interned.2, table.consistent.intern text⟩)

theorem toLexicon_intern (table : NameTable) (text : String) :
    (table.intern text).2.toLexicon = (table.toLexicon.intern text).2 := rfl

/-- A text is found at `name` exactly when it is the one listed there. -/
theorem find?_eq_some_iff {table : NameTable} {text : String} {name : Name} :
    table.find? text = some name ↔ table.texts[name.index]? = some text :=
  table.consistent.inverse text name

theorem find?_eq_none_iff {table : NameTable} {text : String} :
    table.find? text = none ↔ text ∉ table.texts := by
  rw [List.mem_iff_getElem?, not_exists]
  constructor
  · intro absent index listed
    have found : table.find? text = some ⟨index⟩ := find?_eq_some_iff.mpr listed
    rw [absent] at found
    contradiction
  · intro unlisted
    cases found : table.find? text with
    | none => rfl
    | some name => exact absurd (find?_eq_some_iff.mp found) (unlisted name.index)

theorem text_of_find? {table : NameTable} {text : String} {name : Name}
    (found : table.find? text = some name) : table.text name = text :=
  table.consistent.text_of_find? found

theorem intern_of_find?_eq_some {table : NameTable} {text : String} {name : Name}
    (found : table.find? text = some name) : table.intern text = (name, table) := by
  simp [intern, Lexicon.intern_of_find?_eq_some found]

/-- The texts after interning: the same ones, and the new one at the end. -/
theorem texts_intern (table : NameTable) (text : String) :
    (table.intern text).2.texts =
      if text ∈ table.texts then table.texts else table.texts ++ [text] := by
  cases found : table.find? text with
  | none =>
    rw [if_neg (find?_eq_none_iff.mp found), toLexicon_intern,
      Lexicon.intern_of_find?_eq_none found]
    rfl
  | some name =>
    have known : text ∈ table.texts :=
      List.mem_iff_getElem?.mpr ⟨name.index, find?_eq_some_iff.mp found⟩
    rw [intern_of_find?_eq_some found, if_pos known]

/-- A name just given out stands for the text it was asked for. -/
@[simp] theorem text_intern (table : NameTable) (text : String) :
    (table.intern text).2.text (table.intern text).1 = text :=
  text_of_find? (table.toLexicon.find?_intern text)

example : (initial.intern "x").1 = ⟨1⟩ := by cbv

end NameTable

end BlockMachine
