import Mac1.Assembly.Error
import Mac1.SpecialAddress

/-! The lines of a program, read and checked in order. A line is accepted if it can be read and if what it
    declares agrees with the lines before it; the first line that is not accepted gives the error, so
    the lines after it do not matter. -/

namespace Mac1

/-- A line of a program with its number, counted from 1, and its text. -/
structure SourceLine where
  number : Nat
  text : String
  statement : Statement
  deriving DecidableEq, Repr

namespace SourceLine

/-- The error with a given cause on this line. -/
def error (l : SourceLine) (cause : AssemblyError.Cause) : AssemblyError := ⟨cause, l.number, l.text⟩

/-- The label that a line declares. -/
def label? (l : SourceLine) : Option String :=
  match l.statement with
  | .code line => line.label
  | _ => none

/-- The alias that a line declares. -/
def alias? (l : SourceLine) : Option AliasDeclaration :=
  match l.statement with
  | .alias declaration => some declaration
  | _ => none

/-- The line holds a command, so it gives an instruction. -/
def hasCommand (l : SourceLine) : Bool :=
  match l.statement with
  | .code line => line.hasCommand
  | _ => false

/-- The number of the line that declares a label. -/
def labelLine? (lines : List SourceLine) (name : String) : Option Nat :=
  (lines.find? (·.label? == some name)).map (·.number)

/-- The number of the line that declares an alias. -/
def aliasLine? (lines : List SourceLine) (name : String) : Option Nat :=
  (lines.find? fun l => (l.alias?.map (·.name)) == some name).map (·.number)

/-- What a statement declares agrees with the lines before it and with the memory size: no name is
    declared twice, no alias has the name of a special address, and an address lies inside memory. -/
def checkDeclaration (memorySize : Nat) (before : List SourceLine) : Statement → Except DeclarationError Unit
  | .empty => .ok ()
  | .alias d =>
    if SpecialAddress.all.any (·.name == d.name) then .error (.aliasRedefined d.name none)
    else
      match aliasLine? before d.name with
      | some first => .error (.aliasRedefined d.name (some first))
      | none =>
        match d.address with
        | none => .ok ()
        | some a =>
          match Word.index? memorySize a with
          | none => .error (.aliasAddressOutOfRange a)
          | some _ => .ok ()
  | .code line =>
    match line.label with
    | none => .ok ()
    | some name =>
      match labelLine? before name with
      | some first => .error (.labelRedefined name first)
      | none => .ok ()

/-- The next line, given the lines before it. -/
def readNext (memorySize : Nat) (before : List SourceLine) (text : String) : Except AssemblyError SourceLine :=
  let number := before.length + 1
  match Line.read text with
  | .error e => .error ⟨.line e, number, text⟩
  | .ok line =>
    match checkDeclaration memorySize before line.statement with
    | .error e => .error ⟨.declaration e, number, text⟩
    | .ok () => .ok ⟨number, text, line.statement⟩

/-- The lines of a program, given those already read. -/
def readAll (memorySize : Nat) (before : List SourceLine) :
    List String → Except AssemblyError (List SourceLine)
  | [] => .ok before
  | text :: texts =>
    match readNext memorySize before text with
    | .error e => .error e
    | .ok line => readAll memorySize (before ++ [line]) texts

end SourceLine

end Mac1
