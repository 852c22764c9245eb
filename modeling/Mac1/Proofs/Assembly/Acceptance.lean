import Mac1.Proofs.Assembly.Emission

/-! Which programs are assembled. `WellFormed` says what the lines of a program have to satisfy. Assembling
    yields exactly the program that is emitted for lines that are well-formed, and nothing for other
    lines. -/

namespace Mac1

open SourceLine

/-- A command is known: it halts and has no parameter, or it names an operation that takes a parameter exactly if
    one is given. -/
def Target.Known (target : Target) (command : String) (parameter : Option String) : Prop :=
  (Text.eqIgnoreAsciiCase command haltMnemonic = true ∧ parameter = none) ∨
    ∃ op, target.instructionSet.Names command op ∧ (parameter.isSome = true ↔ op.parameterKind ≠ .absent)

/-- The lines can be assembled: their declarations agree, there is an address for each alias, each command is known
    and each parameter denotes a word. -/
structure WellFormed (target : Target) (lines : List SourceLine) : Prop extends
    Consistent target.memorySize lines where
  room : lines.countP needsAddress ≤ (unclaimed target.memorySize lines).length
  commands : ∀ l ∈ lines, ∀ code command, l.statement = .code code → code.command = some command →
    target.Known command code.parameter
  parameters : ∀ l ∈ lines, ∀ code command token op, l.statement = .code code → code.command = some command →
    code.parameter = some token → target.instructionSet.Names command op →
    ∃ x, Denotes target.memorySize lines op.parameterKind token x

/-! ### Known commands -/

theorem Target.exists_means_iff {target : Target} {lines : List SourceLine} {command : String}
    {parameter : Option String} :
    (∃ effect mnemonic, Means target lines command parameter effect mnemonic) ↔
      target.Known command parameter ∧ ∀ token op, parameter = some token →
        target.instructionSet.Names command op → ∃ x, Denotes target.memorySize lines op.parameterKind token x := by
  constructor
  · rintro ⟨effect, mnemonic, hmeans⟩
    cases hmeans with
    | halt hhalt => exact ⟨.inl ⟨hhalt, rfl⟩, nofun⟩
    | plain hnames hk => exact ⟨.inr ⟨_, hnames, by simp [hk]⟩, nofun⟩
    | applied hnames hx =>
      refine ⟨.inr ⟨_, hnames, by simp [hx.ne_absent]⟩, fun token op htoken hnames' => ?_⟩
      cases htoken
      obtain rfl := Opcode.mnemonic_injective (hnames.2.trans hnames'.2.symm)
      exact ⟨_, hx⟩
  · rintro ⟨⟨hhalt, rfl⟩ | ⟨op, hnames, hk⟩, hparameter⟩
    · exact ⟨_, _, .halt hhalt⟩
    · cases parameter with
      | none => exact ⟨_, _, .plain hnames (by simpa using hk)⟩
      | some token =>
        obtain ⟨x, hx⟩ := hparameter token op rfl hnames
        exact ⟨_, _, .applied hnames hx⟩

/-! ### Programs -/

section Programs
variable {target : Target} {lines : List SourceLine} {texts : List String} {p : Program}

theorem Emitted.wellFormed (h : Emitted target lines p) (hc : Consistent target.memorySize lines)
    (hroom : lines.countP needsAddress ≤ (unclaimed target.memorySize lines).length) : WellFormed target lines := by
  obtain ⟨initializers, commands, -, -, hcommands⟩ := h.instructions
  have means : ∀ l ∈ lines, ∀ code command, l.statement = .code code → code.command = some command →
      ∃ effect mnemonic, Means target lines command code.parameter effect mnemonic := by
    intro l hl code command hcode hcommand
    obtain ⟨n, hn⟩ := List.mem_iff_getElem?.mp hl
    obtain ⟨i, -, code', command', effect, mnemonic, hcode', hcommand', hmeans, -⟩ :=
      hcommands.2 n l hn (hasCommand_iff.mpr ⟨code, command, hcode, hcommand⟩)
    obtain rfl := Statement.code.inj (hcode.symm.trans hcode')
    obtain rfl := Option.some.inj (hcommand.symm.trans hcommand')
    exact ⟨effect, mnemonic, hmeans⟩
  refine ⟨hc, hroom, ?_, ?_⟩
  · intro l hl code command hcode hcommand
    exact (Target.exists_means_iff.mp (means l hl code command hcode hcommand)).1
  · intro l hl code command token op hcode hcommand htoken
    exact (Target.exists_means_iff.mp (means l hl code command hcode hcommand)).2 token op htoken

theorem WellFormed.exists_emitted (h : WellFormed target lines) : ∃ p, Emitted target lines p := by
  obtain ⟨t, ht⟩ := SymbolTable.exists_tabulates h.room
  obtain ⟨commands, hcommands⟩ : ∃ commands, Placed hasCommand
      (IsInstruction (Means target lines) (SymbolTable.initialCount lines) lines) lines commands := by
    refine Placed.exists_of_forall fun n l hl hcommand => ?_
    obtain ⟨code, command, hcode, hcommand⟩ := hasCommand_iff.mp hcommand
    have hmem := List.mem_of_getElem? hl
    obtain ⟨effect, mnemonic, hmeans⟩ := Target.exists_means_iff.mpr ⟨h.commands l hmem code command hcode hcommand,
      fun token op => h.parameters l hmem code command token op hcode hcommand⟩
    exact ⟨_, code, command, effect, mnemonic, hcode, hcommand, hmeans, rfl⟩
  exact ⟨⟨(Target.initializersFrom 0 t.aliases ++ commands).toArray, t⟩, ht, _, commands, rfl,
    Target.initializersFrom_eq_iff.mp rfl, hcommands⟩

/-- Assembling some texts gives exactly the program that is emitted for their lines, if these are well-formed. -/
theorem Target.assemble_eq_ok_iff : target.assemble texts = .ok p ↔
    ∃ lines, Reads texts lines ∧ WellFormed target lines ∧ Emitted target lines p := by
  rw [assemble_eq_ok_iff_passes]
  refine exists_congr fun lines => ?_
  rw [readAll_eq_ok_iff, and_assoc]
  refine and_congr_right fun _ => ?_
  constructor
  · rintro ⟨hc, hsymbols, hcommands⟩
    obtain ⟨hroom, ht⟩ := (SymbolTable.ofLines_eq_ok_iff hc).mp hsymbols
    have hemitted := (emitted_iff hc ht).mp hcommands
    exact ⟨hemitted.wellFormed hc hroom, hemitted⟩
  · rintro ⟨hw, hemitted⟩
    exact ⟨hw.toConsistent, (SymbolTable.ofLines_eq_ok_iff hw.toConsistent).mpr ⟨hw.room, hemitted.symbols⟩,
      (emitted_iff hw.toConsistent hemitted.symbols).mpr hemitted⟩

theorem Target.exists_assemble_iff :
    (∃ p, target.assemble texts = .ok p) ↔ ∃ lines, Reads texts lines ∧ WellFormed target lines := by
  constructor
  · rintro ⟨p, hp⟩
    obtain ⟨lines, hreads, hwell, -⟩ := assemble_eq_ok_iff.mp hp
    exact ⟨lines, hreads, hwell⟩
  · rintro ⟨lines, hreads, hwell⟩
    obtain ⟨p, hp⟩ := hwell.exists_emitted
    exact ⟨p, assemble_eq_ok_iff.mpr ⟨lines, hreads, hwell, hp⟩⟩

end Programs

/-- A text is assembled exactly if its lines can be read and are well-formed, and then to the program that is
    emitted for them. -/
theorem Target.assemble_exact (target : Target) (texts : List String) :
    ((∃ p, target.assemble texts = .ok p) ↔ ∃ lines, Reads texts lines ∧ WellFormed target lines) ∧
      ∀ p, target.assemble texts = .ok p ↔
        ∃ lines, Reads texts lines ∧ WellFormed target lines ∧ Emitted target lines p :=
  ⟨exists_assemble_iff, fun _ => assemble_eq_ok_iff⟩

end Mac1
