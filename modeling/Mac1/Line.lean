import Mac1.Statement
import Mac1.Token
import Mac1.Text.Uppercase

/-! Reading one line. A line of code has the form `[label:] [command [parameter]]` and an alias declaration the
    form `#alias name [@address] [=value]`, where the two clauses may come in either order; a comment may
    follow. A line that has another form is refused for one reason, a `LineError`. -/

namespace Mac1

/-- Why a line is refused. -/
inductive LineError where
  | tooManyWords
  | malformedAlias
  | aliasNameIsDecimal
  | invalidAliasAddress
  | invalidAliasValue
  | malformedLabel
  | unexpectedMark
  | invalidSymbol
  deriving DecidableEq, Repr

namespace LineError

/-- What is wrong with the line. -/
def message : LineError → String
  | .tooManyWords => "parsed line has more than two parts"
  | .malformedAlias => "malformed alias declaration"
  | .aliasNameIsDecimal => "alias name cannot be an integer"
  | .invalidAliasAddress => "alias address is not an integer"
  | .invalidAliasValue => "alias value is not an integer"
  | .malformedLabel => "malformed label"
  | .unexpectedMark => "unexpected symbol outside of alias declaration"
  | .invalidSymbol => "unrecognized symbol"

/-- How the line can be put right. -/
def help : LineError → String
  | .tooManyWords => "an instruction consists of a mnemonic and at most one parameter"
  | .malformedAlias => "aliases are declared as `#alias name [@address] [=value]`"
  | .aliasNameIsDecimal =>
    "integer names would be ambiguous with literal addresses; try a name starting with a letter"
  | .invalidAliasAddress => "the address after `@` must be a decimal integer"
  | .invalidAliasValue => "the value after `=` must be a decimal integer"
  | .malformedLabel => "a label is a single word followed by a colon at the start of a line"
  | .unexpectedMark => "`@` and `=` can only be used in `#alias` declarations"
  | .invalidSymbol => "this char does not occur in any token in MAC-1 assembly"

/-- The reason taken where none is known. -/
instance : Inhabited LineError := ⟨.invalidSymbol⟩

end LineError

namespace AliasDeclaration

/-- Reads the clauses after the name, each kind at most once and in any order. -/
def readClauses (d : AliasDeclaration) : List Token → Except LineError AliasDeclaration
  | [] => .ok d
  | .addressMark :: .word w :: rest =>
    if d.address.isSome then .error .malformedAlias
    else
      match Word.ofDecimal? w with
      | none => .error .invalidAliasAddress
      | some a => readClauses { d with address := some a } rest
  | .valueMark :: .word w :: rest =>
    if d.value.isSome then .error .malformedAlias
    else
      match Word.ofDecimal? w with
      | none => .error .invalidAliasValue
      | some v => readClauses { d with value := some v } rest
  | _ => .error .malformedAlias

/-- Reads the items of a line that holds a `#`. -/
def read : List Token → Except LineError AliasDeclaration
  | .hash :: .word keyword :: .word name :: clauses =>
    if !Text.eqIgnoreAsciiCase keyword "alias" then .error .malformedAlias
    else if Decimal.isDecimal name then .error .aliasNameIsDecimal
    else readClauses { name } clauses
  | _ => .error .malformedAlias

end AliasDeclaration

namespace CodeLine

/-- Divides the items into the label and what follows its colon. -/
def splitLabel : List Token → Option String × List Token
  | .word label :: .colon :: rest => (some label, rest)
  | items => (none, items)

/-- Reads the items of a line without a `#`. -/
def read (items : List Token) : Except LineError CodeLine :=
  let (label, rest) := splitLabel items
  if Token.colon ∈ rest then .error .malformedLabel
  else
    match rest.mapM Token.word? with
    | none => .error .unexpectedMark
    | some [] => .ok { label }
    | some [command] => .ok { label, command }
    | some [command, parameter] => .ok { label, command, parameter }
    | some _ => .error .tooManyWords

end CodeLine

/-- Reads the items of a line, its comments left out. -/
def Statement.read (items : List Token) : Except LineError Statement :=
  if items.isEmpty then .ok .empty
  else if Token.hash ∈ items then .alias <$> AliasDeclaration.read items
  else .code <$> CodeLine.read items

/-- A line: what it says, and its comment with the comment's marker. -/
structure Line where
  statement : Statement := .empty
  comment : Option String := none
  deriving DecidableEq, Repr

namespace Line

/-- The comment among some items. A line feed ends a comment, so a text that holds line feeds may have
    several; the last one counts. -/
def commentOf (items : List Token) : Option String :=
  (items.filterMap fun
    | .comment text => some text
    | _ => none).getLast?

/-- The items that are no comments. -/
def code (items : List Token) : List Token :=
  items.filter fun
    | .comment _ => false
    | _ => true

/-- Reads a line. A symbol that belongs to no item is reported before anything else. -/
def read (line : String) : Except LineError Line :=
  let items := (Lexeme.scan line).map (·.token)
  if Token.stray ∈ items then .error .invalidSymbol
  else (Statement.read (code items)).map fun statement => { statement, comment := commentOf items }

end Line

end Mac1
