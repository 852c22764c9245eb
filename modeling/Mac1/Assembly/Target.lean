import Mac1.Assembly.Parameter
import Mac1.Assembly.Program
import Mac1.Text.Lines

/-! Assembling. The instructions that set the initial values of aliases come first, in the order of the
    declarations; then comes one instruction for each line with a command. A parameter is resolved
    against the symbols of the whole program, so a name may be used before the line that declares it. -/

namespace Mac1

/-- The machine that a program is assembled for. -/
structure Target where
  instructionSet : InstructionSet := .standard
  memorySize : Nat := 65536

namespace Target

/-- The effect and the canonical mnemonic of a command with its parameter. -/
def effect (target : Target) (symbols : SymbolTable) (command : String) (parameter : Option String) :
    Except AssemblyError.Cause (Effect × String) :=
  if Text.eqIgnoreAsciiCase command haltMnemonic then
    match parameter with
    | some _ => .error (.command (.parameterUnwanted haltMnemonic))
    | none => .ok (.halt, haltMnemonic)
  else
    match target.instructionSet.find command parameter.isSome with
    | .error e => .error (.command e)
    | .ok op =>
      match parameter with
      | none => .ok (.apply op 0, op.mnemonic)
      | some token =>
        match symbols.resolve target.memorySize op.parameterKind token with
        | .error e => .error (.parameter e)
        | .ok x => .ok (.apply op x, op.mnemonic)

/-- The instructions of some lines, where `next` is the index of the first one. -/
def instructionsFrom (target : Target) (symbols : SymbolTable) (next : Nat) :
    List SourceLine → Except AssemblyError (List Instruction)
  | [] => .ok []
  | l :: lines =>
    match l.statement with
    | .code { label, command := some command, parameter } =>
      match target.effect symbols command parameter with
      | .error cause => .error (l.error cause)
      | .ok (effect, mnemonic) =>
        let caption := Instruction.heading label next ++ { command := mnemonic, parameter : CodeLine }.render
        (instructionsFrom target symbols (next + 1) lines).map (⟨effect, caption, l.number⟩ :: ·)
    | _ => instructionsFrom target symbols next lines

/-- The instructions that set the initial values of some aliases, where `next` is the index of the first
    one. -/
def initializersFrom (next : Nat) : List Alias → List Instruction
  | [] => []
  | a :: aliases =>
    match a.value with
    | some value => .ofInitial a value next :: initializersFrom (next + 1) aliases
    | none => initializersFrom next aliases

/-- Assembles the lines of a program, or reports the first thing that is wrong: first every line is read
    and its declarations are checked, then addresses are allocated, and last the commands are resolved. -/
def assemble (target : Target) (texts : List String) : Except AssemblyError Program := do
  let lines ← SourceLine.readAll target.memorySize [] texts
  let symbols ← SymbolTable.ofLines target.memorySize lines
  let initializers := initializersFrom 0 symbols.aliases
  let instructions ← target.instructionsFrom symbols initializers.length lines
  return ⟨(initializers ++ instructions).toArray, symbols⟩

/-- Assembles the lines of a text. -/
def assembleText (target : Target) (text : String) : Except AssemblyError Program :=
  target.assemble (Text.lines text)

end Target

end Mac1
