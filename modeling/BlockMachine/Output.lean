namespace BlockMachine

/-! # Lines of text -/

namespace Text

/-- A line without the carriage return that may end it, from its characters in
reverse. -/
def lineOfReverse : List Char → String
  | '\r' :: line => String.ofList line.reverse
  | line => String.ofList line.reverse

/-- The lines of a text of which the characters in `line`, last one first, have
been read since the last line feed. Text after the last line feed is a line as it
stands; a line feed at the very end opens no further line. -/
def linesFrom (line : List Char) : List Char → List String
  | [] => if line.isEmpty then [] else [String.ofList line.reverse]
  | '\n' :: rest => lineOfReverse line :: linesFrom [] rest
  | char :: rest => linesFrom (char :: line) rest

/-- The lines of a text. A line ends with a line feed, or with a carriage return
and a line feed. -/
def lines (text : String) : List String :=
  linesFrom [] text.toList

example : lines "a\n\nb\r\nc" = ["a", "", "b", "c"] := by cbv

example : lines "a\r" = ["a\r"] := by cbv

end Text

/-! # Output -/

/-- Where printed lines go: shown on the console, captured in a buffer, or
nowhere. -/
inductive Printer where
  | console (shown : String)
  | buffer (captured : String)
  | silent
deriving DecidableEq, Repr

namespace Printer

instance : Inhabited Printer := ⟨console ""⟩

/-- Print one line. -/
def println (line : String) : Printer → Printer
  | console shown => console (shown ++ line ++ "\n")
  | buffer captured => buffer (captured ++ line ++ "\n")
  | silent => silent

/-- The captured text. -/
def output : Printer → String
  | buffer captured => captured
  | console _ | silent => ""

/-- What has gone to the console. -/
def shown : Printer → String
  | console shown => shown
  | buffer _ | silent => ""

/-- The captured lines. -/
def lines (printer : Printer) : List String :=
  Text.lines printer.output

/-- Forget what was captured. What the console has shown cannot be taken back. -/
def clear : Printer → Printer
  | buffer _ => buffer ""
  | console shown => console shown
  | silent => silent

end Printer

end BlockMachine
