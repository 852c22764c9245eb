import Mac1.Proofs.Assembly.FreeAddresses
import Mac1.Proofs.Execution.Accounting
import Mac1.Proofs.Execution.Faults

/-! How a run begins. The first instructions of a program set the initial values of its aliases, one each, in the order
    of the declarations. Several aliases may share a cell, also with a special address; then the last value stays. No
    other cell changes, nor does any register but the program counter, and the trace shows the declarations. -/

namespace Mac1

open SourceLine

/-- An alias with its initial value, if it has one. -/
def Alias.initial? (a : Alias) : Option (Alias × Word) := a.value.map (a, ·)

/-- The initial values of a program, with their aliases, in the order of the declarations. -/
def Program.initials (p : Program) : List (Alias × Word) := p.symbols.aliases.filterMap Alias.initial?

/-- What a trace shows when the initial value of an alias is set by the instruction with a given index: the declaration
    with the address of the alias, and the change. -/
def Alias.initialLines (a : Alias) (value : Word) (index : Nat) : List String :=
  ["(" ++ Decimal.render index ++ "): #alias " ++ a.name ++ " @" ++ Decimal.render a.address ++ " =" ++ value.render,
    "    m[" ++ Decimal.render a.address ++ "] := " ++ value.render]

/-- The initial values come from the declarations of the lines, and each goes to the address of its alias. -/
structure InitialsOf (lines : List SourceLine) (p : Program) : Prop where
  declared : p.initials.map (fun x => (x.1.name, x.2)) = (aliases lines).filterMap fun d => d.value.map (d.name, ·)
  found : ∀ x ∈ p.initials, p.symbols.alias? x.1.name = some x.1

/-- What becomes of an execution when the initial values of a program are set. -/
structure Initialized (p : Program) (e e' : Execution) : Prop where
  pc : e'.machine.pc.toInt = p.initials.length
  ac : e'.machine.ac = e.machine.ac
  sp : e'.machine.sp = e.machine.sp
  running : e'.machine.halted = false
  log : e'.machine.log = #[]
  count : e'.count = e.count + UInt64.ofNat p.initials.length
  size : e'.machine.memory.size = e.machine.memory.size
  last : ∀ before a value after, p.initials = before ++ (a, value) :: after →
    (∀ x ∈ after, x.1.address ≠ a.address) → e'.machine.memory.get? a.address = some value
  others : ∀ address, (∀ x ∈ p.initials, x.1.address ≠ address) →
    e'.machine.memory.get? address = e.machine.memory.get? address
  sent : ∃ lines : List TraceLine, e.trace.Receives lines e'.trace ∧
    lines.map TraceLine.render = p.initials.zipIdx.flatMap fun x => x.1.1.initialLines x.1.2 x.2

/-! ### Memory -/

namespace Memory
variable {m : Memory} {initials after : List (Alias × Word)} {address : Nat}

/-- The memory after some initial values have been stored, one after the other. -/
def storeAll (m : Memory) (initials : List (Alias × Word)) : Memory :=
  initials.foldl (fun m x => m.set x.1.address x.2) m

theorem size_storeAll (m : Memory) (initials : List (Alias × Word)) : (m.storeAll initials).size = m.size := by
  induction initials generalizing m with
  | nil => rfl
  | cons x initials ih => exact (ih _).trans (size_set _ _ _)

theorem get?_storeAll_of_ne (h : ∀ x ∈ initials, x.1.address ≠ address) :
    (m.storeAll initials).get? address = m.get? address := by
  induction initials generalizing m with
  | nil => rfl
  | cons x initials ih =>
    have hne := h x List.mem_cons_self
    refine (ih fun y hy => h y (List.mem_cons_of_mem x hy)).trans ?_
    rw [get?_set, if_neg fun hsame => hne hsame.1.symm]

theorem get?_storeAll_of_last {before : List (Alias × Word)} {a : Alias} {value : Word} (hsize : a.address < m.size)
    (h : ∀ x ∈ after, x.1.address ≠ a.address) :
    (m.storeAll (before ++ (a, value) :: after)).get? a.address = some value := by
  have hsplit : m.storeAll (before ++ (a, value) :: after) =
      ((m.storeAll before).set a.address value).storeAll after := by
    rw [storeAll, List.foldl_append]
    rfl
  rw [hsplit, get?_storeAll_of_ne h, get?_set, if_pos ⟨rfl, by rwa [size_storeAll]⟩]

end Memory

/-! ### Instructions -/

section Instructions
variable {target : Target} {lines : List SourceLine} {p : Program} {x : Alias × Word}

theorem Program.mem_initials : x ∈ p.initials ↔ x.1 ∈ p.symbols.aliases ∧ x.1.value = some x.2 := by
  rw [initials, List.mem_filterMap]
  constructor
  · rintro ⟨a, ha, hx⟩
    obtain ⟨value, hvalue, rfl⟩ := Option.map_eq_some_iff.mp hx
    exact ⟨ha, hvalue⟩
  · rintro ⟨ha, hvalue⟩
    exact ⟨x.1, ha, by rw [Alias.initial?, hvalue, Option.map_some]⟩

theorem Target.initializersFrom_eq_map (aliases : List Alias) (next : Nat) : initializersFrom next aliases =
    ((aliases.filterMap Alias.initial?).zipIdx next).map fun x => .ofInitial x.1.1 x.1.2 x.2 := by
  induction aliases generalizing next with
  | nil => rfl
  | cons a aliases ih =>
    rw [initializersFrom]
    cases hvalue : a.value with
    | none => simp [Alias.initial?, hvalue, ih]
    | some value => simp [Alias.initial?, hvalue, ih]

theorem Emitted.instructions_eq (h : Emitted target lines p) : ∃ commands,
    p.instructions.toList = (p.initials.zipIdx.map fun x => .ofInitial x.1.1 x.1.2 x.2) ++ commands := by
  obtain ⟨initializers, commands, hp, hinitializers, -⟩ := h.instructions
  refine ⟨commands, ?_⟩
  rw [hp, ← Target.initializersFrom_eq_iff.mpr hinitializers, Target.initializersFrom_eq_map]
  rfl

theorem Emitted.initial (h : Emitted target lines p) {j : Nat} (hx : p.initials[j]? = some x) :
    p.instructions[j]? = some (.ofInitial x.1 x.2 j) := by
  obtain ⟨commands, hp⟩ := h.instructions_eq
  have hfirst : (p.initials.zipIdx.map fun x => Instruction.ofInitial x.1.1 x.1.2 x.2)[j]? =
      some (.ofInitial x.1 x.2 j) := by
    rw [List.getElem?_map, List.getElem?_zipIdx, hx, Option.map_some, Option.map_some, Nat.zero_add]
  obtain ⟨hlt, -⟩ := List.getElem?_eq_some_iff.mp hfirst
  rw [← Array.getElem?_toList, hp, List.getElem?_append_left hlt, hfirst]

theorem Emitted.length_initials (h : Emitted target lines p) :
    p.initials.length = SymbolTable.initialCount lines := by
  rw [← Target.countP_aliases h.symbols, Program.initials, List.length_filterMap_eq_countP]
  refine List.countP_congr ?_
  intro a _
  rw [Alias.hasInitial, Alias.initial?, Option.isSome_map]

theorem Emitted.initialsOf (h : Emitted target lines p) (hc : Consistent target.memorySize lines) :
    InitialsOf lines p where
  declared := by
    obtain ⟨declared, haliases, hdeclared⟩ := h.symbols.aliases
    have hsame : declared.map (fun a => (a.name, a.value)) = (aliases lines).map fun d => (d.name, d.value) := by
      rw [aliases, List.map_filterMap]
      exact map_of_placed_isAlias (fun name value _ => (name, value)) hdeclared
    have hspecial : (SpecialAddress.all.map Alias.ofSpecial).filterMap Alias.initial? = [] := by decide
    have hvalued := congrArg (List.filterMap fun x => x.2.map (x.1, ·)) hsame
    rw [List.filterMap_map, List.filterMap_map] at hvalued
    rw [Program.initials, haliases, List.filterMap_append, hspecial, List.nil_append, List.map_filterMap]
    simpa [Function.comp_def, Alias.initial?] using hvalued
  found x hx := h.symbols.alias?_of_mem hc (Program.mem_initials.mp hx).1

theorem Emitted.initial_lt (h : Emitted target lines p) (hc : Consistent target.memorySize lines)
    (hx : x ∈ p.initials) : x.1.address < target.memorySize := by
  obtain ⟨ha, hvalue⟩ := Program.mem_initials.mp hx
  rcases h.symbols.address_lt hc ha with ⟨s, -, hspecial⟩ | hlt
  · rw [hspecial] at hvalue
    cases hvalue
  · exact hlt

end Instructions

/-! ### Running -/

section Running
variable {p : Program} {m : Machine} {a : Alias} {value : Word} {index : Nat}

/-- What it is to execute the instruction that sets an initial value. -/
def Alias.executed (a : Alias) (value : Word) (index : Nat) (m : Machine) : Execution.Executed where
  index := index
  instruction := .ofInitial a value index
  mutations := [.cell a.address value]
  ending := .done
  left := { m with pc := m.pc + 1, memory := m.memory.set a.address value, log := #[] }

theorem Alias.executes (h : p.Fetches m index (.ofInitial a value index)) (hsize : a.address < m.memory.size)
    (hword : (Int64.ofNat a.address).toInt = a.address) : Execution.Executes p m (a.executed value index m) :=
  .done h rfl (Machine.storeInitial_eq (m := m.fetched) hsize hword value)

theorem Alias.lines_executed (hword : (Int64.ofNat a.address).toInt = a.address) (hvalue : a.value = some value) :
    (a.executed value index m).lines = a.initialLines value index := by
  have hcaption (rest : String) : "): " ++ ("#alias " ++ rest) = "): #alias " ++ rest := by
    rw [← String.append_assoc]
    rfl
  have hchange (rest : String) : "    " ++ ("m[" ++ rest) = "    m[" ++ rest := by
    rw [← String.append_assoc]
    rfl
  simp [Execution.Executed.lines, executed, initialLines, Instruction.ofInitial, Instruction.heading, declaration,
    AliasDeclaration.render, hvalue, Mutation.render, Word.render, hword, hcaption, hchange, String.append_assoc]

/-- Setting some initial values one after the other is a run of as many instructions. -/
theorem Execution.exists_runs_initials {next : Nat} {initials : List (Alias × Word)} (hpc : m.pc.toInt = next)
    (hrunning : m.halted = false) (hlog : m.log = #[]) (hbound : next + initials.length < 2 ^ 63)
    (hfound : ∀ j x, initials[j]? = some x → p.instructions[next + j]? = some (.ofInitial x.1 x.2 (next + j)))
    (hvalues : ∀ x ∈ initials, x.1.value = some x.2) (hsizes : ∀ x ∈ initials, x.1.address < m.memory.size)
    (hwords : ∀ x ∈ initials, (Int64.ofNat x.1.address).toInt = x.1.address) :
    ∃ xs, Runs p initials.length m xs
        { m with pc := Int64.ofNat (next + initials.length), memory := m.memory.storeAll initials, log := #[] } ∧
      counted xs = initials.length ∧
      xs.flatMap Executed.lines = (initials.zipIdx next).flatMap fun x => x.1.1.initialLines x.1.2 x.2 := by
  induction initials generalizing next m with
  | nil =>
    refine ⟨[], ?_, rfl, rfl⟩
    have hsame : Int64.ofNat next = m.pc := by rw [← Int64.ofInt_toInt m.pc, hpc, Int64.ofInt_eq_ofNat]
    rw [List.length_nil, Nat.add_zero, hsame, ← hlog]
    exact .limit m
  | cons x initials ih =>
    have hmem : x ∈ x :: initials := List.mem_cons_self
    have hrest {y : Alias × Word} (hy : y ∈ initials) : y ∈ x :: initials := List.mem_cons_of_mem x hy
    have hfetch : p.Fetches m next (.ofInitial x.1 x.2 next) := ⟨hrunning, hpc, hfound 0 x rfl⟩
    have hx := Alias.executes hfetch (hsizes x hmem) (hwords x hmem)
    have hshift (j : Nat) : next + (j + 1) = next + 1 + j := by omega
    rw [List.length_cons, hshift] at hbound ⊢
    have hnext : (m.pc + 1).toInt = (next + 1 : Nat) := by
      rw [← Word.ofNat_succ hpc, Int64.toInt_ofNat_of_lt (by omega)]
    obtain ⟨xs, hruns, hcounted, hlines⟩ := ih (m := (x.1.executed x.2 next m).left) hnext hrunning rfl hbound
      (fun j y hy => hshift j ▸ hfound (j + 1) y hy) (fun y hy => hvalues y (hrest hy))
      (fun y hy => (Memory.size_set _ _ _).symm ▸ hsizes y (hrest hy)) fun y hy => hwords y (hrest hy)
    refine ⟨x.1.executed x.2 next m :: xs, .next hx rfl hruns, ?_, ?_⟩
    · rw [counted, List.countP_cons_of_pos (by rfl), ← counted, hcounted]
    · rw [List.flatMap_cons, Alias.lines_executed (hwords x hmem) (hvalues x hmem), hlines, List.zipIdx_cons,
        List.flatMap_cons]

/-- Once the initial values are set, the run is over exactly if the program has no other instruction. -/
theorem Program.isOver_eq_of_pc {count : Nat} (hrunning : m.halted = false) (hpc : m.pc.toInt = count)
    (hcount : count ≤ p.size) : p.isOver m = decide (p.size = count) := by
  rw [isOver, hrunning, Bool.false_or]
  by_cases hsize : p.size = count
  · have hindex : Word.index? p.size m.pc = none := by
      rw [Option.eq_none_iff_forall_ne_some]
      intro index hindex
      have := Word.index?_eq_some_iff.mp hindex
      omega
    rw [hindex, decide_eq_true hsize]
    rfl
  · have hindex : Word.index? p.size m.pc = some count := Word.index?_eq_some_iff.mpr ⟨hpc, by omega⟩
    rw [hindex, decide_eq_false hsize]
    rfl

end Running

/-- A program that starts on a machine with enough memory first sets the initial values that its lines declare, without a
    fault, and does nothing else in as many instructions. The lines must be few enough to be counted in a word. -/
theorem Execution.initial_values_set {target : Target} {texts : List String} {p : Program} {e : Execution}
    (hp : target.assemble texts = .ok p) (hlength : texts.length < 2 ^ 63)
    (hmemory : target.memorySize ≤ e.machine.memory.size) (hpc : e.machine.pc = 0) (hlog : e.machine.log = #[])
    (hrunning : e.machine.halted = false) :
    (∃ lines, Reads texts lines ∧ InitialsOf lines p) ∧
      (e.batch p p.initials.length).1 = .ok (decide (p.size = p.initials.length)) ∧
      Initialized p e (e.batch p p.initials.length).2 := by
  obtain ⟨lines, hreads, hwell, hemitted⟩ := Target.assemble_eq_ok_iff.mp hp
  have hc := hwell.toConsistent
  have hlines : lines.length < 2 ^ 63 := hreads.length_eq ▸ hlength
  have hcount := hemitted.length_initials
  have hbound : p.initials.length < 2 ^ 63 := by
    have : SymbolTable.initialCount lines ≤ lines.length := List.countP_le_length
    rw [hcount]
    exact Nat.lt_of_le_of_lt this hlines
  have hsizes (x : Alias × Word) (hx : x ∈ p.initials) : x.1.address < e.machine.memory.size :=
    Nat.lt_of_lt_of_le (hemitted.initial_lt hc hx) hmemory
  have hwords (x : Alias × Word) (hx : x ∈ p.initials) : (Int64.ofNat x.1.address).toInt = x.1.address :=
    hemitted.symbols.toInt_address hc hlines (Program.mem_initials.mp hx).1
  have hstart : e.machine.pc.toInt = (0 : Nat) := by rw [hpc]; rfl
  have hfound (j : Nat) (x : Alias × Word) (hx : p.initials[j]? = some x) :
      p.instructions[0 + j]? = some (.ofInitial x.1 x.2 (0 + j)) := by
    rw [Nat.zero_add]
    exact hemitted.initial hx
  obtain ⟨xs, hruns, hcounted, hshown⟩ := exists_runs_initials hstart hrunning hlog (by rwa [Nat.zero_add]) hfound
    (fun x hx => (Program.mem_initials.mp hx).2) hsizes hwords
  obtain ⟨hmachine, haccount⟩ := hruns.accounts e rfl hlog
  rw [Nat.zero_add] at hmachine
  have hset : Initialized p e (e.batch p p.initials.length).2 := by
    constructor
    case pc => rw [hmachine, Int64.toInt_ofNat_of_lt hbound]
    case ac => rw [hmachine]
    case sp => rw [hmachine]
    case running => rw [hmachine, hrunning]
    case log => rw [hmachine]
    case count => rw [haccount.count, hcounted]
    case size => rw [hmachine, Memory.size_storeAll]
    case last =>
      intro before a value after hsplit hafter
      have hmem : (a, value) ∈ p.initials := by rw [hsplit]; simp
      rw [hmachine, hsplit]
      exact Memory.get?_storeAll_of_last (hsizes _ hmem) hafter
    case others =>
      intro address haddress
      rw [hmachine]
      exact Memory.get?_storeAll_of_ne haddress
    case sent =>
      obtain ⟨sent, htrace, hrender⟩ := haccount.sent
      exact ⟨sent, htrace, hrender.trans hshown⟩
  refine ⟨⟨lines, hreads, hemitted.initialsOf hc⟩, ?_, hset⟩
  have hle : p.initials.length ≤ p.size := by
    rw [hcount, hemitted.size_eq]
    exact Nat.le_add_right _ _
  cases hanswer : (e.batch p p.initials.length).1 with
  | error error =>
    have hhalted := haccount.failed error hanswer
    rw [hset.running] at hhalted
    cases hhalted
  | ok ended => rw [haccount.answered ended hanswer, Program.isOver_eq_of_pc hset.running hset.pc hle]

/-- Two of these aliases share a cell, and the third one has that of a special address. -/
def sharing : List String := ["#alias first @3 =1", "#alias unit @0 =5", "#alias second @3 =2"]

/-- A machine with four cells. -/
def Execution.small : Execution := { machine := { ac := 7, sp := 2, memory := ⟨#[1, 0, 9, 0]⟩ }, trace := .empty }

theorem Execution.initial_values_set_sharing : ∃ p, Target.assemble { memorySize := 4 } sharing = .ok p ∧
    (small.batch p 3).1 = .ok true ∧ Initialized p small (small.batch p 3).2 ∧
    (small.batch p 3).2.machine.memory.get? 3 = some 2 ∧ (small.batch p 3).2.machine.memory.get? 2 = some 9 := by
  have hvalues : (Target.assemble { memorySize := 4 } sharing).toOption.map (fun p => (p.size, p.initials)) =
      some (3, [(⟨"first", 3, some 1, some 1⟩, 1), (⟨"unit", 0, some 5, some 2⟩, 5), (⟨"second", 3, some 2, some 3⟩, 2)]) := by
    decide +kernel
  obtain ⟨p, hp, hsame⟩ := exists_eq_ok_of_map_toOption hvalues
  obtain ⟨hsize, hinitials⟩ := Prod.mk.inj hsame
  obtain ⟨-, hanswer, hset⟩ := Execution.initial_values_set (e := small) hp (by decide) (by decide) rfl rfl rfl
  have hcount : p.initials.length = 3 := by rw [hinitials]; rfl
  rw [hcount] at hanswer hset
  have hlast := hset.last [_, _] _ _ [] hinitials (by simp)
  have hother := hset.others 2 (by rw [hinitials]; decide)
  exact ⟨p, hp, by rw [hanswer, hsize]; rfl, hset, hlast, hother⟩

end Mac1
