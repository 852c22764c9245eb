import Mac1.Proofs.Assembly.Meaning

/-! The program that some lines give. `Emitted` says which instructions it holds: first one for each initial
    value, in the order of the declarations, then one for each command, in the order of the lines. The
    passes that make the instructions, and number them as they go, make exactly these. -/

namespace Mac1

open SourceLine

/-- The alias has an initial value. -/
def Alias.hasInitial (a : Alias) : Bool := a.value.isSome

/-- The instruction sets the initial value of the alias at position `n`. -/
def IsInitializer (aliases : List Alias) (n : Nat) (a : Alias) (i : Instruction) : Prop :=
  ∃ value, a.value = some value ∧
    i = ⟨.store a.address value,
      Instruction.heading none ((aliases.take n).countP Alias.hasInitial) ++ a.declaration.render, a.line⟩

/-- The instruction is that of the command on the line at position `n`, where `means` tells what commands mean and
    `first` is the index of the first instruction of the lines. -/
def IsInstruction (means : String → Option String → Effect → String → Prop) (first : Nat) (lines : List SourceLine)
    (n : Nat) (l : SourceLine) (i : Instruction) : Prop :=
  ∃ code command effect mnemonic, l.statement = .code code ∧ code.command = some command ∧
    means command code.parameter effect mnemonic ∧
    i = ⟨effect, Instruction.heading code.label (instructionIndex first lines n) ++ mnemonic ++
      code.parameter.elim "" (" " ++ ·), some l.number⟩

/-- The program holds the symbols and the instructions that the lines give. -/
structure Emitted (target : Target) (lines : List SourceLine) (p : Program) : Prop where
  symbols : p.symbols.Tabulates target.memorySize lines
  instructions : ∃ initializers commands, p.instructions.toList = initializers ++ commands ∧
    Placed Alias.hasInitial (IsInitializer p.symbols.aliases) p.symbols.aliases initializers ∧
    Placed hasCommand (IsInstruction (Means target lines) (SymbolTable.initialCount lines) lines) lines commands

/-! ### Instructions -/

theorem hasCommand_iff {l : SourceLine} :
    l.hasCommand = true ↔ ∃ code command, l.statement = .code code ∧ code.command = some command := by
  obtain ⟨number, text, statement⟩ := l
  cases statement with
  | code line => simp [hasCommand, CodeLine.hasCommand, Option.isSome_iff_exists]
  | _ => simp [hasCommand]

theorem CodeLine.render_command (mnemonic : String) (parameter : Option String) :
    ({ command := mnemonic, parameter : CodeLine }).render = mnemonic ++ parameter.elim "" (" " ++ ·) := by
  simp [CodeLine.render]

namespace Target
variable {target : Target} {t : SymbolTable}

theorem placed_initializersFrom (aliases : List Alias) (next : Nat) :
    Placed Alias.hasInitial (fun n a i => ∃ value, a.value = some value ∧
      i = .ofInitial a value (next + (aliases.take n).countP Alias.hasInitial)) aliases
      (initializersFrom next aliases) := by
  induction aliases generalizing next with
  | nil => exact placed_nil.mpr rfl
  | cons a aliases ih =>
    rw [initializersFrom]
    cases hvalue : a.value with
    | none =>
      have ha : ¬a.hasInitial = true := by simp [Alias.hasInitial, hvalue]
      refine (placed_cons_of_neg ha).mpr ((ih next).imp ?_)
      rintro n b i - - ⟨value, hb, rfl⟩
      exact ⟨value, hb, by rw [List.take_succ_cons, List.countP_cons_of_neg ha]⟩
    | some value =>
      have ha : a.hasInitial = true := by simp [Alias.hasInitial, hvalue]
      refine (placed_cons_of_pos ha).mpr ⟨_, _, rfl, ⟨value, hvalue, rfl⟩, (ih (next + 1)).imp ?_⟩
      rintro n b i - - ⟨value, hb, rfl⟩
      refine ⟨value, hb, ?_⟩
      rw [List.take_succ_cons, List.countP_cons_of_pos ha, Nat.add_assoc, Nat.add_comm 1]

/-- The initial values are set by the instructions from index 0 on. -/
theorem initializersFrom_eq_iff {aliases : List Alias} {out : List Instruction} :
    initializersFrom 0 aliases = out ↔ Placed Alias.hasInitial (IsInitializer aliases) aliases out := by
  have hplaced : Placed Alias.hasInitial (IsInitializer aliases) aliases (initializersFrom 0 aliases) := by
    refine (placed_initializersFrom aliases 0).imp fun n a i _ _ ⟨value, hvalue, hi⟩ => ⟨value, hvalue, ?_⟩
    rw [Nat.zero_add] at hi
    exact hi
  constructor
  · rintro rfl
    exact hplaced
  · intro h
    refine hplaced.unique h ?_
    rintro n a i i' - ⟨value, hvalue, rfl⟩ ⟨value', hvalue', rfl⟩
    rw [Option.some.inj (hvalue.symm.trans hvalue')]

/-- The pass over the commands succeeds exactly if each has an effect, and gives each its instruction. -/
theorem instructionsFrom_eq_ok_iff {lines : List SourceLine} {first : Nat} {out : List Instruction} :
    target.instructionsFrom t first lines = .ok out ↔
      Placed hasCommand (IsInstruction (fun c p e m => target.effect t c p = .ok (e, m)) first lines) lines out := by
  induction lines generalizing first out with
  | nil => simp [instructionsFrom, placed_nil, eq_comm]
  | cons l lines ih =>
    have hshift : (fun n =>
        IsInstruction (fun c p e m => target.effect t c p = .ok (e, m)) first (l :: lines) (n + 1)) =
        IsInstruction (fun c p e m => target.effect t c p = .ok (e, m)) (if l.hasCommand then first + 1 else first)
          lines := by
      funext n b i
      simp only [IsInstruction, instructionIndex_cons]
    rw [instructionsFrom]
    split
    · next label command parameter hl =>
      have hcommand : l.hasCommand = true := hasCommand_iff.mpr ⟨_, _, hl, rfl⟩
      rw [placed_cons_of_pos hcommand, hshift, if_pos hcommand]
      constructor
      · intro h
        split at h
        · cases h
        · next effect mnemonic heffect =>
          obtain ⟨tail, htail, rfl⟩ := map_cons_eq_ok_iff.mp h
          refine ⟨_, tail, rfl, ⟨_, command, effect, mnemonic, hl, rfl, heffect, ?_⟩, ih.mp htail⟩
          rw [CodeLine.render_command, String.append_assoc]
          rfl
      · rintro ⟨i, tail, rfl, ⟨code, command', effect, mnemonic, hl', hcommand', heffect, rfl⟩, htail⟩
        obtain rfl := Statement.code.inj (hl.symm.trans hl')
        cases hcommand'
        simp only [heffect]
        rw [map_cons_eq_ok_iff]
        refine ⟨tail, ih.mpr htail, ?_⟩
        rw [CodeLine.render_command, String.append_assoc]
        rfl
    · next hl =>
      have hcommand : ¬l.hasCommand = true := by
        rw [hasCommand_iff]
        rintro ⟨⟨label, command, parameter⟩, _, hcode, rfl⟩
        exact hl _ _ _ hcode
      rw [placed_cons_of_neg hcommand, hshift, if_neg hcommand, ih]

/-! ### Programs -/

section Programs
variable {lines : List SourceLine} {texts : List String} {p : Program}

theorem countP_aliases (h : t.Tabulates target.memorySize lines) :
    t.aliases.countP Alias.hasInitial = SymbolTable.initialCount lines := by
  obtain ⟨declared, haliases, hdeclared⟩ := h.aliases
  have hspecial : (SpecialAddress.all.map Alias.ofSpecial).countP Alias.hasInitial = 0 := by decide
  rw [haliases, List.countP_append, hspecial, Nat.zero_add]
  refine hdeclared.countP_eq (fun l hl => ?_) fun n l a _ ⟨d, address, hd, _, ha⟩ => by simp [Alias.hasInitial, hd, ha]
  unfold declaresAlias
  cases hd : l.alias? with
  | none => simp [hd] at hl
  | some d => rfl

/-- Assembling takes three passes, each of which has to succeed. -/
theorem assemble_eq_ok_iff_passes : target.assemble texts = .ok p ↔
    ∃ lines, readAll target.memorySize [] texts = .ok lines ∧
      SymbolTable.ofLines target.memorySize lines = .ok p.symbols ∧
      ∃ commands, target.instructionsFrom p.symbols (initializersFrom 0 p.symbols.aliases).length lines = .ok commands ∧
        p.instructions.toList = initializersFrom 0 p.symbols.aliases ++ commands := by
  unfold assemble
  rw [bind_eq_ok_iff]
  refine exists_congr fun lines => and_congr_right fun _ => ?_
  rw [bind_eq_ok_iff]
  constructor
  · rintro ⟨symbols, hsymbols, h⟩
    obtain ⟨commands, hcommands, hp⟩ := bind_eq_ok_iff.mp h
    cases hp
    exact ⟨hsymbols, commands, hcommands, rfl⟩
  · rintro ⟨hsymbols, commands, hcommands, hp⟩
    refine ⟨p.symbols, hsymbols, bind_eq_ok_iff.mpr ⟨commands, hcommands, ?_⟩⟩
    rw [← hp]
    rfl

theorem means_eq (h : t.Tabulates target.memorySize lines) (hc : Consistent target.memorySize lines) :
    (fun c p e m => target.effect t c p = .ok (e, m)) = Means target lines := by
  funext c p e m
  exact propext (effect_eq_ok_iff h hc)

/-- For lines that agree, the instructions that the passes make are those that are emitted. -/
theorem emitted_iff (hc : Consistent target.memorySize lines) (ht : p.symbols.Tabulates target.memorySize lines) :
    (∃ commands, target.instructionsFrom p.symbols (initializersFrom 0 p.symbols.aliases).length lines = .ok commands ∧
      p.instructions.toList = initializersFrom 0 p.symbols.aliases ++ commands) ↔ Emitted target lines p := by
  have hlength : (initializersFrom 0 p.symbols.aliases).length = SymbolTable.initialCount lines := by
    rw [(initializersFrom_eq_iff.mp rfl).1, countP_aliases ht]
  rw [hlength]
  simp only [instructionsFrom_eq_ok_iff, means_eq ht hc]
  constructor
  · rintro ⟨commands, hcommands, hp⟩
    exact ⟨ht, _, commands, hp, initializersFrom_eq_iff.mp rfl, hcommands⟩
  · rintro ⟨-, initializers, commands, hp, hinitializers, hcommands⟩
    exact ⟨commands, hcommands, by rw [hp, initializersFrom_eq_iff.mpr hinitializers]⟩

end Programs

end Target

/-! ### Positions in the program -/

namespace Emitted
variable {target : Target} {lines : List SourceLine} {p : Program}

theorem exists_split (h : Emitted target lines p) :
    ∃ initializers commands, p.instructions.toList = initializers ++ commands ∧
      initializers.length = SymbolTable.initialCount lines ∧
      Placed Alias.hasInitial (IsInitializer p.symbols.aliases) p.symbols.aliases initializers ∧
      Placed hasCommand (IsInstruction (Means target lines) (SymbolTable.initialCount lines) lines) lines commands := by
  obtain ⟨initializers, commands, hp, hinitializers, hcommands⟩ := h.instructions
  have hlength : initializers.length = SymbolTable.initialCount lines := by
    rw [hinitializers.1, Target.countP_aliases h.symbols]
  exact ⟨initializers, commands, hp, hlength, hinitializers, hcommands⟩

theorem size_eq (h : Emitted target lines p) :
    p.size = SymbolTable.initialCount lines + lines.countP hasCommand := by
  obtain ⟨initializers, commands, hp, hlength, -, hcommands⟩ := h.exists_split
  rw [Program.size, ← Array.length_toList, hp, List.length_append, hlength, hcommands.1]

theorem exists_instruction (h : Emitted target lines p) {n : Nat} {l : SourceLine} (hl : lines[n]? = some l)
    (hcommand : l.hasCommand = true) :
    ∃ i, p.instructions[instructionIndex (SymbolTable.initialCount lines) lines n]? = some i ∧
      IsInstruction (Means target lines) (SymbolTable.initialCount lines) lines n l i := by
  obtain ⟨initializers, commands, hp, hlength, -, hcommands⟩ := h.exists_split
  obtain ⟨i, hi, hinstruction⟩ := hcommands.2 n l hl hcommand
  refine ⟨i, ?_, hinstruction⟩
  rw [← Array.getElem?_toList, hp, instructionIndex, ← hlength, List.getElem?_append_right (Nat.le_add_right _ _),
    Nat.add_sub_cancel_left, hi]

/-- Each instruction sets an initial value, and then stands before those of the commands, or is that of a
    command. -/
theorem initializer_or_command (h : Emitted target lines p) {j : Nat} {i : Instruction}
    (hi : p.instructions[j]? = some i) :
    (j < SymbolTable.initialCount lines ∧ ∃ n a, p.symbols.aliases[n]? = some a ∧
        (p.symbols.aliases.take n).countP Alias.hasInitial = j ∧ IsInitializer p.symbols.aliases n a i) ∨
      ∃ n l, lines[n]? = some l ∧ l.hasCommand = true ∧
        instructionIndex (SymbolTable.initialCount lines) lines n = j ∧
        IsInstruction (Means target lines) (SymbolTable.initialCount lines) lines n l i := by
  obtain ⟨initializers, commands, hp, hlength, hinitializers, hcommands⟩ := h.exists_split
  rw [← Array.getElem?_toList, hp] at hi
  rcases Nat.lt_or_ge j initializers.length with hj | hj
  · rw [List.getElem?_append_left hj] at hi
    obtain ⟨n, a, hmem, -, hn, ha⟩ := hinitializers.exists_item hi
    exact .inl ⟨hlength ▸ hj, n, a, hmem, hn, ha⟩
  · rw [List.getElem?_append_right hj] at hi
    obtain ⟨n, l, hl, hcommand, hn, hinstruction⟩ := hcommands.exists_item hi
    refine .inr ⟨n, l, hl, hcommand, ?_, hinstruction⟩
    rw [instructionIndex, hn]
    omega

end Emitted

end Mac1
