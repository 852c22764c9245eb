import Std.Data.HashMap.AdditionalOperations
import Mac1.Assembly.Symbols

/-! The draft of a symbol table. While lines are read it grows: aliases in an array, the place of each in a map beside
    it, and labels in a map of their own. Neither is final. An alias without an address stands at address 0 and is
    noted, and labels are counted from the first command. When all lines are read, the labels move behind the initial
    values, and the noted aliases get the free addresses one after the other. -/

namespace Mac1

/-- The index of the instruction that a label stands for, and the line that declares it. -/
structure LabelEntry where
  index : Nat
  line : Nat
  deriving DecidableEq, Repr

/-- A symbol table while it is made, with the lines read so far. -/
structure Draft where
  lines : Array SourceLine := #[]
  labels : Std.HashMap String LabelEntry := ∅
  aliases : Array Alias := #[]
  /-- The place of each alias by its name. -/
  places : Std.HashMap String Nat := ∅
  /-- The place of each alias that has no address yet, with the position of its line. -/
  unplaced : Array (Nat × Nat) := #[]
  /-- The numbers of initial values and of commands so far. -/
  initials : Nat := 0
  commands : Nat := 0

namespace Draft

/-- Why a draft is given up: the program is wrong, or a place or a position lies outside of its array. -/
inductive Failure where
  | refused (error : AssemblyError)
  | outside (position : Nat)
  deriving DecidableEq, Repr

def refuse {α : Type} (l : SourceLine) (error : DeclarationError) : Except Failure α :=
  .error (.refused (l.error (.declaration error)))

/-- The alias at a place, which has to lie in the array. -/
def aliasAt (d : Draft) (place : Nat) : Except Failure Alias :=
  match d.aliases[place]? with
  | none => .error (.outside place)
  | some a => .ok a

/-- The line at a position, which has to lie in the array. -/
def lineAt (d : Draft) (position : Nat) : Except Failure SourceLine :=
  match d.lines[position]? with
  | none => .error (.outside position)
  | some l => .ok l

def pushAlias (d : Draft) (a : Alias) : Draft :=
  { d with aliases := d.aliases.push a, places := d.places.insert a.name d.aliases.size }

/-- The draft before any line holds the special addresses. -/
def start : Draft := (SpecialAddress.all.map Alias.ofSpecial).foldl pushAlias {}

/-! ### Reading lines -/

/-- Enters the alias that a line declares, and counts its initial value. If its address is open, it stands at address 0
    and is noted. -/
def addAlias (d : Draft) (l : SourceLine) (declared : AliasDeclaration) (address : Option Nat) : Draft :=
  { d.pushAlias ⟨declared.name, address.getD 0, declared.value, some l.number⟩ with
    unplaced := if address.isNone then d.unplaced.push (d.aliases.size, d.lines.size) else d.unplaced
    initials := if declared.value.isSome then d.initials + 1 else d.initials }

/-- Enters the alias that a line declares, unless its name has a place or its address lies outside of memory. -/
def enterAlias (memorySize : Nat) (d : Draft) (l : SourceLine) (declared : AliasDeclaration) : Except Failure Draft :=
  match d.places[declared.name]? with
  | some place => do
    let first ← d.aliasAt place
    refuse l (.aliasRedefined declared.name first.line)
  | none =>
    match declared.address with
    | none => .ok (d.addAlias l declared none)
    | some a =>
      match Word.index? memorySize a with
      | none => refuse l (.aliasAddressOutOfRange a)
      | some address => .ok (d.addAlias l declared (some address))

/-- Enters the label that a line declares, with the index of the next command, unless there is an entry. -/
def enterLabel (d : Draft) (l : SourceLine) (name : String) : Except Failure Draft :=
  match d.labels[name]? with
  | some first => refuse l (.labelRedefined name first.line)
  | none => .ok { d with labels := d.labels.insert name ⟨d.commands, l.number⟩ }

/-- Enters what a line declares, and counts its command. -/
def enter (memorySize : Nat) (d : Draft) (l : SourceLine) : Except Failure Draft :=
  match l.statement with
  | .empty => .ok d
  | .alias declared => d.enterAlias memorySize l declared
  | .code line => do
    let entered ← match line.label with
      | some name => d.enterLabel l name
      | none => .ok d
    return { entered with commands := if line.hasCommand then entered.commands + 1 else entered.commands }

def readLine (memorySize : Nat) (d : Draft) (text : String) : Except Failure Draft :=
  let number := d.lines.size + 1
  match Line.read text with
  | .error e => .error (.refused ⟨.line e, number, text⟩)
  | .ok line => do
    let l : SourceLine := ⟨number, text, line.statement⟩
    let entered ← d.enter memorySize l
    return { entered with lines := entered.lines.push l }

/-! ### Later changes -/

/-- Moves the labels behind the instructions that set initial values. -/
def shiftLabels (d : Draft) : Draft :=
  { d with labels := d.labels.map fun _ b => { b with index := b.index + d.initials } }

/-- The addresses that no alias gets: the special ones, and those of the aliases that are not noted. -/
def taken (d : Draft) : List Nat :=
  SpecialAddress.all.map (·.address) ++
    (d.aliases.toList.zipIdx.filter fun x => x.2 ∉ d.unplaced.toList.map (·.1)).map (·.1.address)

def setAlias (d : Draft) (place : Nat) (a : Alias) : Draft := { d with aliases := d.aliases.setIfInBounds place a }

/-- Gives the noted aliases the free addresses, one after the other. -/
def allocate (d : Draft) : (unplaced : List (Nat × Nat)) → (free : List Nat) → Except Failure Draft
  | [], _ => .ok d
  | (_, position) :: _, [] => do
    let l ← d.lineAt position
    refuse l .noFreeAddress
  | (place, _) :: unplaced, address :: free => do
    let a ← d.aliasAt place
    (d.setAlias place { a with address }).allocate unplaced free

/-- Drafts the table of a program. -/
def ofTexts (memorySize : Nat) (texts : List String) : Except Failure Draft := do
  let read ← texts.foldlM (readLine memorySize) start
  let shifted := read.shiftLabels
  shifted.allocate shifted.unplaced.toList ((List.range memorySize).filter (· ∉ shifted.taken))

/-! ### Looking names up -/

def alias? (d : Draft) (name : String) : Except Failure (Option Alias) :=
  match d.places[name]? with
  | none => .ok none
  | some place => (d.aliasAt place).map some

def label? (d : Draft) (name : String) : Option Nat := d.labels[name]?.map (·.index)

def labelLine? (d : Draft) (name : String) : Option Nat := d.labels[name]?.map (·.line)

/-- The labels in the order in which the map gives them. -/
def listLabels (d : Draft) : List Label := d.labels.toList.map fun x => ⟨x.1, x.2.index, x.2.line⟩

end Draft

end Mac1
