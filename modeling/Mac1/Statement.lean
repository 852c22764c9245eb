import Mac1.Text.Decimal

/-! What a line says, without its comment: nothing, an alias declaration, or a line of code with an
    optional label, command and parameter. Statements hold no positions. `render` writes a statement in
    its shortest form. -/

namespace Mac1

/-- An alias declaration: a name for a memory cell, perhaps with the cell's address and the value that
    the cell gets before the program's first command runs. -/
structure AliasDeclaration where
  name : String
  address : Option Word := none
  value : Option Word := none
  deriving DecidableEq, Repr

/-- A line of code. The three parts stand as they were written. -/
structure CodeLine where
  label : Option String := none
  command : Option String := none
  parameter : Option String := none
  deriving DecidableEq, Repr

/-- What a line says. -/
inductive Statement where
  | empty
  | alias (declaration : AliasDeclaration)
  | code (line : CodeLine)
  deriving DecidableEq, Repr

/-- The text of an alias declaration: the name, then the address, then the value. -/
def AliasDeclaration.render (d : AliasDeclaration) : String :=
  let address := d.address.elim "" fun a => " @" ++ a.render
  let value := d.value.elim "" fun v => " =" ++ v.render
  "#alias " ++ d.name ++ address ++ value

namespace CodeLine

/-- The line holds a command, so it takes a place in the program. -/
def hasCommand (l : CodeLine) : Bool := l.command.isSome

/-- The text of a line of code. A parameter is always preceded by a space, a command only if a label
    stands before it. -/
def render (l : CodeLine) : String :=
  let label := l.label.elim "" (· ++ ":")
  let gap := if l.label.isSome && l.command.isSome then " " else ""
  label ++ gap ++ l.command.getD "" ++ l.parameter.elim "" (" " ++ ·)

end CodeLine

/-- The text of a statement. -/
def Statement.render : Statement → String
  | .empty => ""
  | .alias declaration => declaration.render
  | .code line => line.render

end Mac1
