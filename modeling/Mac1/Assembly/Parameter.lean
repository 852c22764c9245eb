import Mac1.Assembly.Symbols

/-! What the parameter of a command stands for. A parameter that is written as an integer is a number and
    never a name; anything else may name an alias, whatever it starts with. -/

namespace Mac1

namespace SymbolTable

/-- The text looks like a number: it starts with a digit or a sign. -/
def startsLikeDecimal (token : String) : Bool :=
  token.toList.head?.any fun c => c.isDigit || c == '-' || c == '+'

/-- The word that a parameter of a given kind stands for. An address or offset that is written as an
    integer is never the name of an alias, and has to lie inside memory. -/
def resolve (t : SymbolTable) (memorySize : Nat) (kind : ParameterKind) (token : String) :
    Except ParameterError Word :=
  match kind with
  | .absent => .ok 0
  | .constant =>
    match Word.ofDecimal? token with
    | some w => .ok w
    | none => .error (.invalid token kind)
  | .stackOffset | .address =>
    let value? := (Word.ofDecimal? token).or ((t.alias? token).map (Int64.ofNat ·.address))
    match value? with
    | none => .error (if startsLikeDecimal token then .invalid token kind else .unresolved token)
    | some w =>
      match Word.index? memorySize w with
      | some _ => .ok w
      | none => .error (.outOfRange w kind memorySize)
  | .label =>
    match t.label? token with
    | some label => .ok (Int64.ofNat label.index)
    | none => .error (.labelNotFound token)

end SymbolTable

end Mac1
