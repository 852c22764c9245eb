import Mac1.InstructionSet
import Mac1.Line

/-! Why a program cannot be assembled. A cause belongs to one of four stages: reading a line, declaring the
    names of a line, finding a command, resolving a parameter. An `AssemblyError` is a cause with the
    number and the text of the line that it is found on. -/

namespace Mac1

/-- Why a declaration is refused. -/
inductive DeclarationError where
  | labelRedefined (name : String) (firstLine : Nat)
  /-- The first line is missing if the name is that of a special address. -/
  | aliasRedefined (name : String) (firstLine : Option Nat)
  | aliasAddressOutOfRange (address : Word)
  | noFreeAddress
  deriving DecidableEq, Repr

namespace DeclarationError

/-- What is wrong with the declaration. -/
def message : DeclarationError → String
  | .labelRedefined name firstLine =>
    "label '" ++ name ++ "' was already defined on line #" ++ Decimal.render firstLine
  | .aliasRedefined name (some firstLine) =>
    "alias '" ++ name ++ "' was already defined on line #" ++ Decimal.render firstLine
  | .aliasRedefined name none => "alias '" ++ name ++ "' is a special address"
  | .aliasAddressOutOfRange address => "alias address " ++ address.render ++ " is outside of memory"
  | .noFreeAddress => "no free address left to allocate alias"

/-- How the declaration can be put right. -/
def help : DeclarationError → String
  | .labelRedefined _ _ => "labels must be unique within a program, try renaming one of the labels"
  | .aliasRedefined _ (some _) => "aliases must be unique within a program, try renaming one of the aliases"
  | .aliasRedefined _ none => "this name is reserved, try renaming the alias"
  | .aliasAddressOutOfRange _ => "the address must be non-negative and less than the memory size"
  | .noFreeAddress => "try giving some aliases an explicit address with `@address`"

end DeclarationError

/-- Why a parameter is refused. -/
inductive ParameterError where
  | labelNotFound (name : String)
  | invalid (token : String) (kind : ParameterKind)
  | outOfRange (value : Word) (kind : ParameterKind) (limit : Nat)
  | unresolved (token : String)
  deriving DecidableEq, Repr

namespace ParameterError

/-- What is wrong with the parameter. -/
def message : ParameterError → String
  | .labelNotFound name => "label '" ++ name ++ "' not found"
  | .invalid token kind => "parameter '" ++ token ++ "' is not a valid " ++ kind.description
  | .outOfRange value kind limit =>
    kind.description ++ " " ++ value.render ++ " is out of range [0, " ++ Decimal.render limit ++ ")"
  | .unresolved token => "'" ++ token ++ "' is neither an address nor a declared alias"

/-- How the parameter can be put right. -/
def help : ParameterError → String
  | .labelNotFound _ => "try declaring this label before an instruction"
  | .invalid _ .constant => "this command requires a decimal integer"
  | .invalid _ _ => "this command requires a decimal integer or an alias"
  | .outOfRange _ _ _ => "the value must be non-negative and less than the memory size"
  | .unresolved _ => "try declaring this alias with `#alias`"

end ParameterError

namespace AssemblyError

/-- Why a line of a program is refused. -/
inductive Cause where
  | line (error : LineError)
  | declaration (error : DeclarationError)
  | command (error : CommandError)
  | parameter (error : ParameterError)
  deriving DecidableEq, Repr

namespace Cause

/-- What is wrong with the line. -/
def message : Cause → String
  | .line e => e.message
  | .declaration e => e.message
  | .command e => e.message
  | .parameter e => e.message

/-- How the line can be put right, where there is advice. -/
def help : Cause → Option String
  | .line e => some e.help
  | .declaration e => some e.help
  | .command e => e.help
  | .parameter e => some e.help

end Cause

end AssemblyError

/-- A cause, and the line that it is found on. Lines are counted from 1. -/
structure AssemblyError where
  cause : AssemblyError.Cause
  lineNumber : Nat
  text : String
  deriving DecidableEq, Repr

namespace AssemblyError

/-- The cause with its line, which is quoted without the white space around it. -/
def message (e : AssemblyError) : String :=
  "Line #" ++ Decimal.render e.lineNumber ++ " '" ++ Text.trim e.text ++ "': " ++ e.cause.message

/-- How the line can be put right, where there is advice. -/
def help (e : AssemblyError) : Option String := e.cause.help

/-- The error of the line itself, if the line could not be read. -/
def lineError? (e : AssemblyError) : Option LineError :=
  match e.cause with
  | .line error => some error
  | _ => none

end AssemblyError

end Mac1
