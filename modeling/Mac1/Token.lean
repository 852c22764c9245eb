import Mac1.Text.Blank

/-! The lexical items of a line and where they stand. `scan` reads the longest item at each place and
    skips the blanks between items; it never fails, since a `/` that starts no comment is an item of
    its own, `stray`. Positions count the bytes of the UTF-8 form. -/

namespace Mac1

/-- A lexical item. A comment holds its marker and runs up to the next line feed. -/
inductive Token where
  | word (text : String)
  | comment (text : String)
  | hash
  | colon
  | addressMark
  | valueMark
  | stray
  deriving DecidableEq, Repr

namespace Token

/-- The text that an item is written as. -/
def text : Token → String
  | .word s => s
  | .comment s => s
  | .hash => "#"
  | .colon => ":"
  | .addressMark => "@"
  | .valueMark => "="
  | .stray => "/"

/-- The text of a word, and nothing for any other item. -/
def word? : Token → Option String
  | .word s => some s
  | _ => none

/-- The item that a punctuation character is. -/
def mark? (c : Char) : Option Token :=
  if c == '#' then some .hash
  else if c == ':' then some .colon
  else if c == '@' then some .addressMark
  else if c == '=' then some .valueMark
  else none

/-- The characters that words are made of: neither blank, nor punctuation, nor the start of a comment. -/
def isWordChar (c : Char) : Bool :=
  !Text.isBlank c && (mark? c).isNone && c != ';' && c != '/'

/-- A comment starts at `c`, followed by `cs`: with a semicolon or two slashes. -/
def startsComment (c : Char) (cs : List Char) : Bool :=
  c == ';' || (c == '/' && cs.head? == some '/')

/-- The item at a character that is not blank, and the characters after the item. -/
def read (c : Char) (cs : List Char) : Token × List Char :=
  match mark? c with
  | some mark => (mark, cs)
  | none =>
    if startsComment c cs then
      (.comment (String.ofList (c :: cs.takeWhile (· != '\n'))), cs.dropWhile (· != '\n'))
    else if c == '/' then (.stray, cs)
    else (.word (String.ofList (c :: cs.takeWhile isWordChar)), cs.dropWhile isWordChar)

/-- An item takes at least the character it is read at. -/
theorem length_read_le (c : Char) (cs : List Char) : (read c cs).2.length ≤ cs.length := by
  unfold read
  split
  · exact Nat.le_refl _
  · split
    · exact (List.dropWhile_suffix _).length_le
    · split
      · exact Nat.le_refl _
      · exact (List.dropWhile_suffix _).length_le

end Token

/-- A lexical item with the byte offset at which it starts. -/
structure Lexeme where
  token : Token
  start : Nat
  deriving DecidableEq, Repr

namespace Lexeme

/-- The byte offset just after an item. -/
def stop (l : Lexeme) : Nat := l.start + l.token.text.utf8ByteSize

/-- The items of a text whose first character stands at byte `offset`. -/
def scanFrom (offset : Nat) : List Char → List Lexeme
  | [] => []
  | c :: cs =>
    if Text.isBlank c then scanFrom (offset + c.utf8Size) cs
    else
      let item : Lexeme := ⟨(Token.read c cs).1, offset⟩
      item :: scanFrom item.stop (Token.read c cs).2
termination_by cs => cs.length
decreasing_by
  · simp
  · exact Nat.lt_succ_of_le (Token.length_read_le c cs)

/-- The lexical items of a line, in order. -/
def scan (line : String) : List Lexeme := scanFrom 0 line.toList

end Lexeme

end Mac1
