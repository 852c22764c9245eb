import Mac1.Assembly.SourceLine

/-! The labels and aliases of a program. Labels stand for indices of instructions; since the instructions
    that set initial values come first, every index is counted from their number. An alias declared
    without an address gets the lowest address that is free: neither special nor declared anywhere in the
    program, before or after. -/

namespace Mac1

/-- A label: the index of the instruction that it stands for, and the line that declares it. -/
structure Label where
  name : String
  index : Nat
  line : Nat
  deriving DecidableEq, Repr

/-- An alias with its address. A special address has no line. -/
structure Alias where
  name : String
  address : Nat
  value : Option Word
  line : Option Nat
  deriving DecidableEq, Repr

namespace Alias

/-- The alias of a special address. Its value is no initial value: the machine sets it. -/
def ofSpecial (s : SpecialAddress) : Alias := ⟨s.name, s.address, none, none⟩

/-- The declaration of an alias, with its address. -/
def declaration (a : Alias) : AliasDeclaration :=
  { name := a.name, address := some (Int64.ofNat a.address), value := a.value }

end Alias

/-- The labels in the order of their lines, and the aliases: special addresses first, then in the order of
    their lines. -/
structure SymbolTable where
  labels : List Label
  aliases : List Alias
  deriving DecidableEq, Repr

namespace SymbolTable

/-- The labels of some lines, where `next` is the index of the first instruction of the lines. -/
def labelsFrom (next : Nat) : List SourceLine → List Label
  | [] => []
  | l :: lines =>
    let rest := labelsFrom (if l.hasCommand then next + 1 else next) lines
    match l.label? with
    | some name => ⟨name, next, l.number⟩ :: rest
    | none => rest

/-- The number of aliases with an initial value. -/
def initialCount (lines : List SourceLine) : Nat :=
  lines.countP fun l => l.alias?.any (·.value.isSome)

/-- The addresses that no alias without an address may get. -/
def takenAddresses (lines : List SourceLine) : List Nat :=
  SpecialAddress.all.map (·.address) ++ lines.filterMap fun l =>
    (l.alias?.bind (·.address)).map (·.toInt.toNat)

/-- The lowest `count` addresses below `memorySize` that are not taken, or all of them if there are fewer.
    They lie below the number of taken addresses plus `count`. -/
def freeAddresses (memorySize : Nat) (taken : List Nat) (count : Nat) : List Nat :=
  ((List.range (min memorySize (taken.length + count))).filter (· ∉ taken)).take count

/-- The aliases that some lines declare, where those without an address get the addresses of `free`, in
    order. -/
def allocate (free : List Nat) : List SourceLine → Except AssemblyError (List Alias)
  | [] => .ok []
  | l :: lines =>
    match l.alias? with
    | none => allocate free lines
    | some d =>
      match d.address, free with
      | some a, _ => (allocate free lines).map (⟨d.name, a.toInt.toNat, d.value, some l.number⟩ :: ·)
      | none, a :: free => (allocate free lines).map (⟨d.name, a, d.value, some l.number⟩ :: ·)
      | none, [] => .error (l.error (.declaration .noFreeAddress))

/-- The symbols of the lines of a program. -/
def ofLines (memorySize : Nat) (lines : List SourceLine) : Except AssemblyError SymbolTable :=
  let count := lines.countP fun l => l.alias?.any (·.address.isNone)
  let free := freeAddresses memorySize (takenAddresses lines) count
  (allocate free lines).map fun declared =>
    { labels := labelsFrom (initialCount lines) lines
      aliases := SpecialAddress.all.map Alias.ofSpecial ++ declared }

/-- The label with a given name. Case matters. -/
def label? (t : SymbolTable) (name : String) : Option Label := t.labels.find? (·.name == name)

/-- The alias with a given name. Case matters. -/
def alias? (t : SymbolTable) (name : String) : Option Alias := t.aliases.find? (·.name == name)

/-- The labels sorted by index, those of one index by name. -/
def sortedLabels (t : SymbolTable) : List Label :=
  t.labels.mergeSort fun a b => a.index < b.index || (a.index == b.index && decide (a.name ≤ b.name))

end SymbolTable

end Mac1
