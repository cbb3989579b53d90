import BlockMachine.Proofs.Translation.Growth
import Mathlib.Data.List.Basic

namespace BlockMachine

/-! # Interning

A name table comes about by asking for the names of texts, one after another. It holds the
texts that were asked for, each once, in the order in which they were first asked for; and
its names and its texts stand for one another. -/

namespace NameTable

/-- The table after the names of some texts were asked for, one after another. -/
def internAll (table : NameTable) (texts : List String) : NameTable :=
  texts.foldl (fun grown text => (grown.intern text).2) table

/-- The texts that have no name yet, each once, in the order in which they come first. -/
def unnamed (table : NameTable) (texts : List String) : List String :=
  (texts.removeAll table.texts).eraseDups

variable {table : NameTable} {text : String} {name : Name}

theorem internAll_append (table : NameTable) (first second : List String) :
    table.internAll (first ++ second) = (table.internAll first).internAll second :=
  List.foldl_append ..

/-- Texts that were not known join the table in the order in which they are met, each once. -/
theorem texts_internAll (table : NameTable) (texts : List String) :
    (table.internAll texts).texts = table.texts ++ table.unnamed texts := by
  induction texts generalizing table with
  | nil => simp [internAll, unnamed, List.removeAll]
  | cons text rest induction =>
      have step : table.internAll (text :: rest) = (table.intern text).2.internAll rest := rfl
      rw [step, induction, unnamed, unnamed, texts_intern]
      by_cases known : text ∈ table.texts
      · have skipped : (text :: rest).removeAll table.texts = rest.removeAll table.texts := by
          simp [List.removeAll, known]
        rw [if_pos known, skipped]
      · have joined : (text :: rest).removeAll table.texts =
            text :: rest.removeAll table.texts := by
          simp [List.removeAll, known]
        have others : rest.removeAll (table.texts ++ [text]) =
            (rest.removeAll table.texts).filter fun other => !other == text := by
          simp [List.removeAll, List.filter_filter, Bool.and_comm, beq_eq_decide]
        rw [if_neg known, joined, List.eraseDups_cons, others, List.append_assoc,
          List.singleton_append]

end NameTable

namespace Lexicon

/-- The tables after the names of some texts were asked for, one after another. -/
def internAll (lexicon : Lexicon) (texts : List String) : Lexicon :=
  texts.foldl (fun grown text => (grown.intern text).2) lexicon

/-- Tables that stand for one another do so after any requests. -/
theorem toLexicon_internAll (table : NameTable) (texts : List String) :
    (table.internAll texts).toLexicon = table.toLexicon.internAll texts := by
  induction texts generalizing table with
  | nil => rfl
  | cons text rest induction => exact induction (table.intern text).2

variable {lexicon : Lexicon}

theorem Consistent.internAll (consistent : lexicon.Consistent) (texts : List String) :
    (lexicon.internAll texts).Consistent := by
  induction texts generalizing lexicon with
  | nil => exact consistent
  | cons text rest induction => exact induction (consistent.intern text)

/-- A known text keeps its name through any requests. -/
theorem find?_internAll {text : String} {name : Name} (known : lexicon.find? text = some name)
    (requests : List String) : (lexicon.internAll requests).find? text = some name := by
  induction requests generalizing lexicon with
  | nil => exact known
  | cons other rest induction => exact induction (find?_intern_of_find? known other)

/-- The texts that are listed: the empty one and those asked for. -/
theorem texts_initial_internAll (requests : List String) :
    (initial.internAll requests).texts = ("" :: requests).eraseDups := by
  calc (initial.internAll requests).texts
      = (NameTable.internAll .initial requests).texts :=
        congrArg Lexicon.texts (toLexicon_internAll .initial requests).symm
    _ = [""] ++ NameTable.unnamed .initial requests := NameTable.texts_internAll _ _
    _ = [""].eraseDups ++ (requests.removeAll [""]).eraseDups := rfl
    _ = ("" :: requests).eraseDups := by rw [← List.eraseDups_append, List.singleton_append]

/-- A text is found under the name that stands for it. Names from outside the tables read
as a text, too, so it has to be said that the name is inside. -/
theorem Consistent.find?_eq_some_iff_text (consistent : lexicon.Consistent) {text : String}
    {name : Name} :
    lexicon.find? text = some name ↔ name.index < lexicon.size ∧ lexicon.text name = text := by
  rw [consistent.inverse, Lexicon.text, size]
  constructor
  · intro listed
    exact ⟨(List.getElem?_eq_some_iff.mp listed).1, by rw [listed]; rfl⟩
  · rintro ⟨inside, reads⟩
    rw [List.getElem?_eq_getElem inside] at reads ⊢
    exact congrArg some reads

/-- A text that is listed twice would have two names. -/
theorem Consistent.nodup (consistent : lexicon.Consistent) : lexicon.texts.Nodup := by
  rw [List.Nodup, List.pairwise_iff_getElem]
  intro first second inside insideToo earlier same
  have found := (consistent.inverse _ ⟨first⟩).mpr (List.getElem?_eq_getElem inside)
  have foundAgain := (consistent.inverse _ ⟨second⟩).mpr (List.getElem?_eq_getElem insideToo)
  rw [same, foundAgain] at found
  cases found
  omega

/-- Names and texts stand for one another, whatever names have been asked for. The tables
list the empty text and those asked for, each once, in the order of the first requests. A
text is found under the name that stands for it and under no other. Asking for a known
text gives its name and changes nothing; asking for a new one gives the next number and
adds just that text to both tables. A name stands for the text it was given to then and
after any further requests, and no two texts are given the same name. -/
theorem names_stand_for_texts (requests : List String) :
    let lexicon : Lexicon := initial.internAll requests
    lexicon.texts = ("" :: requests).eraseDups ∧ lexicon.texts.Nodup ∧
    lexicon.texts[0]? = some "" ∧
    (∀ text name, lexicon.find? text = some name ↔
      name.index < lexicon.size ∧ lexicon.text name = text) ∧
    (∀ text name, lexicon.find? text = some name → lexicon.intern text = (name, lexicon)) ∧
    (∀ text, lexicon.find? text = none →
      (lexicon.intern text).1 = ⟨lexicon.size⟩ ∧
      (lexicon.intern text).2.texts = lexicon.texts ++ [text] ∧
      ∀ other, (lexicon.intern text).2.find? other =
        if other = text then some ⟨lexicon.size⟩ else lexicon.find? other) ∧
    (∀ text later,
      ((lexicon.intern text).2.internAll later).text (lexicon.intern text).1 = text) ∧
    ∀ left between right,
      (((lexicon.intern left).2.internAll between).intern right).1 = (lexicon.intern left).1 ↔
        left = right := by
  intro lexicon
  have consistent : lexicon.Consistent := consistent_initial.internAll requests
  refine ⟨texts_initial_internAll requests, consistent.nodup, ?first,
    fun text name => consistent.find?_eq_some_iff_text, fun text name => intern_of_find?_eq_some,
    ?fresh, ?stays, ?apart⟩
  case first => rw [← List.head?_eq_getElem?, consistent.startsEmpty]
  case fresh =>
    intro text absent
    rw [intern_of_find?_eq_none absent]
    exact ⟨rfl, rfl, lexicon.find?_append text⟩
  case stays =>
    intro text later
    have found := find?_internAll (lexicon.find?_intern text) later
    exact ((consistent.intern text).internAll later).text_of_find? found
  case apart =>
    intro left between right
    let grown := (lexicon.intern left).2.internAll between
    have leftFound : grown.find? left = some (lexicon.intern left).1 :=
      find?_internAll (lexicon.find?_intern left) between
    have consistentAfter : (grown.intern right).2.Consistent :=
      ((consistent.intern left).internAll between).intern right
    constructor
    · intro same
      have leftKept := find?_intern_of_find? leftFound right
      have rightFound := grown.find?_intern right
      rw [same] at rightFound
      exact (consistentAfter.text_of_find? leftKept).symm.trans
        (consistentAfter.text_of_find? rightFound)
    · rintro rfl
      show (grown.intern left).1 = _
      rw [intern_of_find?_eq_some leftFound]

end Lexicon

end BlockMachine
