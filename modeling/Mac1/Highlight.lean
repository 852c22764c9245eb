import Mac1.Token

/-! Classifying the parts of a line, so that an editor can mark them while the line is being written.
    Every lexical item gets a role, also on a line that cannot be read: an item that may not stand where
    it does is `invalid`. -/

namespace Mac1

/-- The role of an item in its line. -/
inductive Role where
  | label
  | command
  | parameter
  | comment
  | aliasKeyword
  | aliasName
  | aliasAddress
  | aliasValue
  | punctuation
  | invalid
  deriving DecidableEq, Repr

namespace Role

/-- The roles of the items after the first `#` of an alias declaration, where `before` is the item before
    them and `words` is the number of words before them. -/
def ofClauses (before : Token) (words : Nat) : List Token → List Role
  | [] => []
  | item :: rest =>
    match item with
    | .word _ =>
      let role :=
        match before, words with
        | .addressMark, _ => .aliasAddress
        | .valueMark, _ => .aliasValue
        | _, 0 => .aliasKeyword
        | _, 1 => .aliasName
        | _, _ => .invalid
      role :: ofClauses item (words + 1) rest
    | .comment _ => .comment :: ofClauses item words rest
    | .addressMark | .valueMark => .punctuation :: ofClauses item words rest
    | .hash | .colon | .stray => .invalid :: ofClauses item words rest

/-- The roles of the items of a line of code after its label, where `words` is the number of words before
    them. -/
def ofWords (words : Nat) : List Token → List Role
  | [] => []
  | item :: rest =>
    match item with
    | .word _ =>
      let role :=
        match words with
        | 0 => .command
        | 1 => .parameter
        | _ => .invalid
      role :: ofWords (words + 1) rest
    | .comment _ => .comment :: ofWords words rest
    | .hash | .colon | .addressMark | .valueMark | .stray => .invalid :: ofWords words rest

/-- The roles of the items of a line. A line whose first item is `#` is taken for an alias declaration,
    and a word directly before a colon at its start for a label. -/
def ofItems : List Token → List Role
  | .hash :: rest => .punctuation :: ofClauses .hash 0 rest
  | .word _ :: .colon :: rest => .label :: .punctuation :: ofWords 0 rest
  | items => ofWords 0 items

end Role

/-- A part of a line, from byte `start` up to byte `stop`, and its role. -/
structure Segment where
  role : Role
  start : Nat
  stop : Nat
  deriving DecidableEq, Repr

/-- The parts of a line with their roles: one for each lexical item, in order. -/
def highlight (line : String) : List Segment :=
  let items := Lexeme.scan line
  (items.zip (Role.ofItems (items.map (·.token)))).map fun (item, role) => ⟨role, item.start, item.stop⟩

end Mac1
