/-! Splitting a text into lines. -/

namespace Mac1.Text

/-- The lines of a text. A line ends before a line feed, or before a carriage return and line feed;
    a carriage return elsewhere belongs to its line, and no empty line follows the last line feed. -/
def linesOf : List Char → List (List Char)
  | [] => []
  | '\n' :: cs => [] :: linesOf cs
  | '\r' :: '\n' :: cs => [] :: linesOf cs
  | c :: cs =>
    match linesOf cs with
    | [] => [[c]]
    | line :: lines => (c :: line) :: lines

/-- The lines of a text, as texts. -/
def lines (s : String) : List String := (linesOf s.toList).map String.ofList

end Mac1.Text
