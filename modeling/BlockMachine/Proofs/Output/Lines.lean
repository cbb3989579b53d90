import BlockMachine.Output
import Mathlib.Data.List.DropRight

namespace BlockMachine

/-! # Lines that were printed

A buffer keeps the printed lines one behind the other, with a line feed after each. They are
read off again by cutting at the line feeds: a printed text that has line feeds of its own
comes back in pieces, and every piece loses a carriage return at its end. -/

namespace Text

/-- A line without the carriage return that may end it. -/
def withoutReturn (line : List Char) : List Char :=
  if line.getLast? = some '\r' then line.dropLast else line

/-- A text cut at its line feeds, each piece without the carriage return that may end it. -/
def pieces (text : String) : List String :=
  (text.toList.splitOn '\n').map fun piece => String.ofList (withoutReturn piece)

/-- Whether a text is one line, and as a line keeps its last character. -/
def IsLine (text : String) : Prop :=
  '\n' ∉ text.toList ∧ text.toList.getLast? ≠ some '\r'

theorem pieces_of_isLine {text : String} (isLine : IsLine text) : pieces text = [text] := by
  rw [pieces, List.splitOn_eq_singleton isLine.1, List.map_singleton, withoutReturn,
    if_neg isLine.2, String.ofList_toList]

theorem lineOfReverse_eq (line : List Char) :
    lineOfReverse line = String.ofList (withoutReturn line.reverse) := by
  cases line with
  | nil => rfl
  | cons last before =>
      by_cases ends : last = '\r'
      · subst ends
        simp [lineOfReverse, withoutReturn]
      · rw [lineOfReverse.eq_2 _ (by simpa using ends)]
        simp [withoutReturn, ends]

/-- Nothing before the first piece changes nothing. -/
theorem modifyHead_nil_append (pieces : List (List Char)) :
    pieces.modifyHead ([] ++ ·) = pieces :=
  congrFun List.modifyHead_id pieces

/-- What stands before a line feed is read before what stands behind it. The first piece
goes on with the characters that have been read already. -/
theorem linesFrom_append_feed (line chars rest : List Char) :
    linesFrom line (chars ++ '\n' :: rest) =
      ((chars.splitOn '\n').modifyHead (line.reverse ++ ·)).map
        (fun piece => String.ofList (withoutReturn piece)) ++ linesFrom [] rest := by
  induction chars generalizing line with
  | nil => simp [linesFrom, lineOfReverse_eq]
  | cons char chars induction =>
      rw [List.cons_append, List.splitOn_cons_eq_if_modifyHead]
      by_cases feed : char = '\n'
      · subst feed
        rw [linesFrom, induction, List.reverse_nil, modifyHead_nil_append, lineOfReverse_eq]
        simp
      · rw [linesFrom.eq_3 _ _ _ feed, induction]
        simp [feed, Function.comp_def]

theorem lines_append_feed (text rest : String) :
    lines (text ++ "\n" ++ rest) = pieces text ++ lines rest := by
  have chars : (text ++ "\n" ++ rest).toList = text.toList ++ '\n' :: rest.toList := by simp
  rw [lines, chars, linesFrom_append_feed, List.reverse_nil, modifyHead_nil_append]
  rfl

/-- The lines of texts that are written with a line feed after each. -/
theorem lines_join_feeds (texts : List String) :
    lines (String.join (texts.map (· ++ "\n"))) = texts.flatMap pieces := by
  induction texts with
  | nil => rfl
  | cons text texts induction =>
      rw [List.map_cons, String.join_cons, lines_append_feed, induction, List.flatMap_cons]

example : lines (String.join (["a\n", "", "b\r"].map (· ++ "\n"))) = ["a", "", "", "b"] := by cbv

end Text

namespace Printer

/-- What changes a printer. -/
inductive Call where
  | println (line : String)
  | clear

def Call.line? : Call → Option String
  | println line => some line
  | clear => none

def perform (printer : Printer) : Call → Printer
  | .println line => printer.println line
  | .clear => printer.clear

def performAll (printer : Printer) (calls : List Call) : Printer :=
  calls.foldl perform printer

/-- The lines printed since the last time that the printer was cleared. -/
def printed (calls : List Call) : List String :=
  (calls.rtakeWhile fun call => call.line?.isSome).filterMap Call.line?

@[simp]
theorem printed_concat_println (calls : List Call) (line : String) :
    printed (calls ++ [.println line]) = printed calls ++ [line] := by
  rw [printed, List.rtakeWhile_concat_pos _ _ _ rfl, List.filterMap_append]
  rfl

@[simp]
theorem printed_concat_clear (calls : List Call) : printed (calls ++ [.clear]) = [] := by
  rw [printed, List.rtakeWhile_concat_neg _ _ _ (by simp [Call.line?])]
  rfl

/-- The lines of calls that only print are all that were printed. -/
theorem printed_map_println (lines : List String) : printed (lines.map .println) = lines := by
  induction lines using List.reverseRecOn with
  | nil => rfl
  | append_singleton lines line induction =>
      rw [List.map_append, List.map_singleton, printed_concat_println, induction]

theorem performAll_concat (printer : Printer) (calls : List Call) (call : Call) :
    printer.performAll (calls ++ [call]) = (printer.performAll calls).perform call :=
  List.foldl_concat ..

/-- A buffer holds the lines printed since it was cleared, a line feed after each. -/
theorem performAll_buffer (calls : List Call) :
    (buffer "").performAll calls = buffer (String.join ((printed calls).map (· ++ "\n"))) := by
  induction calls using List.reverseRecOn with
  | nil => rfl
  | append_singleton calls call induction =>
      rw [performAll_concat, induction]
      cases call with
      | println line =>
          rw [printed_concat_println, List.map_append, String.join_append, perform, println,
            List.map_singleton, String.join_cons, String.append_assoc]
          simp
      | clear => rw [printed_concat_clear]; rfl

theorem output_performAll (calls : List Call) :
    ((buffer "").performAll calls).output = String.join ((printed calls).map (· ++ "\n")) := by
  rw [performAll_buffer, output]

theorem lines_performAll (calls : List Call) :
    ((buffer "").performAll calls).lines = (printed calls).flatMap Text.pieces := by
  rw [lines, output_performAll, Text.lines_join_feeds]

/-- Lines come back as they were printed. -/
theorem lines_performAll_of_isLine {calls : List Call}
    (areLines : ∀ line ∈ printed calls, Text.IsLine line) :
    ((buffer "").performAll calls).lines = printed calls := by
  rw [lines_performAll,
    List.flatMap_congr fun line inside => Text.pieces_of_isLine (areLines line inside),
    List.flatMap_singleton']

end Printer

end BlockMachine
