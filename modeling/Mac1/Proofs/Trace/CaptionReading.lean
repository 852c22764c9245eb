import Mac1.Proofs.InstructionSet.Mnemonics
import Mac1.Proofs.Assembly.Errors
import Mac1.Proofs.Assembly.FreeAddresses
import Mac1.Proofs.Assembly.Labels
import Mac1.Proofs.Trace.Captions

/-! Reading captions back. A caption is a line in its shortest form behind the index of its instruction. The mnemonic is the
    one of the instruction set and the parameter stands as it was written, so by the symbols of the program the line
    means what the instruction does, and nothing else. -/

namespace Mac1

open SourceLine

/-- The statement means an effect by some symbols: it declares an alias that has just the address and value which are
    stored, it halts, or it names an operation and a parameter that is resolved to the operand. -/
inductive Statement.Restates (target : Target) (symbols : SymbolTable) : Statement → Effect → Prop where
  | store {name : String} {a : Alias} {w value : Word} (found : symbols.alias? name = some a)
    (address : w = Int64.ofNat a.address) (initial : a.value = some value) :
    Restates target symbols (.alias { name, address := some w, value := some value }) (.store a.address value)
  | halt {label : Option String} : Restates target symbols (.code { label, command := some haltMnemonic }) .halt
  | plain {label : Option String} {command : String} {op : Opcode}
    (found : target.instructionSet.find command false = .ok op) :
    Restates target symbols (.code { label, command := some command }) (.apply op 0)
  | applied {label : Option String} {command token : String} {op : Opcode} {x : Word}
    (found : target.instructionSet.find command true = .ok op)
    (resolved : symbols.resolve target.memorySize op.parameterKind token = .ok x) :
    Restates target symbols (.code { label, command := some command, parameter := some token }) (.apply op x)

/-- The caption of the instruction at an index starts with the index, after the label of its line if there is one, which
    has to have this index. What is left says the statement, with the label put before it again. -/
inductive Instruction.Captioned (i : Instruction) (symbols : SymbolTable) (index : Nat) :
    Option String → Statement → Prop where
  | plain {rest : String} {s : Statement} (caption : i.caption = "(" ++ Decimal.render index ++ "): " ++ rest)
    (read : Line.read rest = .ok ⟨s, none⟩) : Captioned i symbols index none s
  | labelled {name rest : String} {code : CodeLine}
    (caption : i.caption = name ++ "(=" ++ Decimal.render index ++ "): " ++ rest)
    (found : (symbols.label? name).map (·.index) = some index)
    (read : Line.read (name ++ ": " ++ rest) = .ok ⟨.code code, none⟩) (label : code.label = some name) :
    Captioned i symbols index (some name) (.code code)

/-! ### Mnemonics -/

namespace Opcode

theorem isWord_mnemonic (op : Opcode) : Token.IsWord op.mnemonic := by
  apply Token.isWord_of_all
  cases op <;> decide

end Opcode

section Mnemonics
variable {target : Target} {lines : List SourceLine} {t : SymbolTable} {command mnemonic : String}
  {parameter : Option String} {effect : Effect}

/-- A set that has an operation finds it by its mnemonic. -/
theorem InstructionSet.Names.find_mnemonic {s : InstructionSet} {op : Opcode} (h : s.Names command op)
    {hasParameter : Bool} (hrequired : op.parameterKind.isRequired = hasParameter) :
    s.find op.mnemonic hasParameter = .ok op :=
  find_eq_ok_iff.mpr ⟨⟨h.1, op.upper_mnemonic.symm⟩, hrequired⟩

theorem SourceLine.Means.isWord_mnemonic (h : Means target lines command parameter effect mnemonic) :
    Token.IsWord mnemonic := by
  cases h with
  | halt => exact Token.isWord_of_all (by decide)
  | plain | applied => exact Opcode.isWord_mnemonic _

theorem SourceLine.Means.restates (h : Means target lines command parameter effect mnemonic)
    (ht : t.Tabulates target.memorySize lines) (hc : Consistent target.memorySize lines) (label : Option String) :
    (Statement.code { label, command := some mnemonic, parameter }).Restates target t effect := by
  cases h with
  | halt => exact .halt
  | plain hnames hk => exact .plain (hnames.find_mnemonic (bne_eq_false_iff_eq.mpr hk))
  | applied hnames hx =>
    exact .applied (hnames.find_mnemonic (bne_iff_ne.mpr hx.ne_absent)) ((ht.resolve_eq_ok_iff hc hx.ne_absent).mpr hx)

end Mnemonics

theorem Statement.Restates.unique {target : Target} {symbols : SymbolTable} {s : Statement} {effect effect' : Effect}
    (h : s.Restates target symbols effect) (h' : s.Restates target symbols effect') : effect = effect' := by
  have not_halt {op : Opcode} (hfind : target.instructionSet.find haltMnemonic false = .ok op) : False :=
    (InstructionSet.find_eq_ok_iff.mp hfind).1.not_halt (beq_self_eq_true _)
  cases h with
  | store found =>
    cases h' with
    | store found' => rw [Option.some.inj (found.symm.trans found')]
  | halt =>
    cases h' with
    | halt => rfl
    | plain found => exact (not_halt found).elim
  | plain found =>
    cases h' with
    | halt => exact (not_halt found).elim
    | plain found' => rw [Except.ok.inj (found.symm.trans found')]
  | applied found resolved =>
    cases h' with
    | applied found' resolved' =>
      obtain rfl := Except.ok.inj (found.symm.trans found')
      rw [Except.ok.inj (resolved.symm.trans resolved')]

/-! ### Captions -/

section Captions
variable {target : Target} {texts : List String} {lines : List SourceLine} {p : Program}

theorem CodeLine.render_labelled (name mnemonic : String) (parameter : Option String) :
    ({ label := name, command := mnemonic, parameter : CodeLine }).render =
      name ++ ": " ++ (mnemonic ++ parameter.elim "" (" " ++ ·)) := by
  have hmark : ": " = ":" ++ " " := by decide
  simp [CodeLine.render, hmark, String.append_assoc]

theorem Statement.Legal.with_command {code : CodeLine} (h : (Statement.code code).Legal) {command : String}
    (hword : Token.IsWord command) : (Statement.code { code with command := some command }).Legal := by
  cases h with
  | code hwords =>
    refine .code (fun w hw => ?_) (.inr rfl) fun _ => rfl
    simp only [List.mem_cons, List.not_mem_nil, or_false, Option.some.injEq] at hw
    rcases hw with hw | rfl | hw
    · exact hwords w (by simp [hw])
    · exact Token.isWord_iff.mp hword
    · exact hwords w (by simp [hw])

theorem Alias.legal_declaration {a : Alias} {d : AliasDeclaration} (h : (Statement.alias d).Legal) (hname : a.name = d.name) :
    (Statement.alias a.declaration).Legal := by
  cases h with
  | declares hword hname' =>
    refine .declares ?_ ?_ <;> rw [declaration, hname]
    · exact hword
    · exact hname'

/-- An initial value is captioned with the declaration of its alias, the address written down. -/
theorem IsInitializer.captioned {a : Alias} {n j : Nat} {i : Instruction} (h : IsInitializer p.symbols.aliases n a i)
    (hindex : (p.symbols.aliases.take n).countP Alias.hasInitial = j) (hlegal : (Statement.alias a.declaration).Legal)
    (hfound : p.symbols.alias? a.name = some a) :
    i.Captioned p.symbols j none (.alias a.declaration) ∧
      (Statement.alias a.declaration).Restates target p.symbols i.effect := by
  obtain ⟨value, hvalue, rfl⟩ := h
  refine ⟨.plain ?_ hlegal.read_render, ?_⟩
  · rw [hindex]
    rfl
  · rw [Alias.declaration, hvalue]
    exact .store hfound rfl hvalue

/-- A command is captioned with its line, its mnemonic put for the command as it was written. -/
theorem IsInstruction.captioned {l : SourceLine} {n j : Nat} {i : Instruction} {first : Nat}
    (h : IsInstruction (Means target lines) first lines n l i) (hindex : instructionIndex first lines n = j)
    (ht : p.symbols.Tabulates target.memorySize lines) (hc : Consistent target.memorySize lines)
    (hlegal : l.statement.Legal)
    (hfound : ∀ name, l.label? = some name → (p.symbols.label? name).map (·.index) = some j) :
    ∃ s, i.Captioned p.symbols j l.label? s ∧ s.Restates target p.symbols i.effect := by
  obtain ⟨code, command, effect, mnemonic, hcode, hcommand, hmeans, rfl⟩ := h
  rw [hcode] at hlegal
  have hlabel : l.label? = code.label := by rw [label?, hcode]
  rw [hlabel] at hfound ⊢
  have hread := (hlegal.with_command hmeans.isWord_mnemonic).read_render
  refine ⟨_, ?_, hmeans.restates ht hc code.label⟩
  obtain ⟨label, command', parameter⟩ := code
  dsimp only [Statement.render] at hread hfound ⊢
  rw [hindex, String.append_assoc]
  cases label with
  | none =>
    rw [CodeLine.render_command] at hread
    exact .plain rfl hread
  | some name =>
    rw [CodeLine.render_labelled] at hread
    exact .labelled rfl (hfound name rfl) hread rfl

/-- Every instruction of a program has the caption of its line. -/
theorem Emitted.captioned (h : Emitted target lines p) (hr : Reads texts lines)
    (hc : Consistent target.memorySize lines) {j : Nat} {i : Instruction} (hi : p.instructions[j]? = some i) :
    ∃ l ∈ lines, i.line = some l.number ∧ ∃ s, i.Captioned p.symbols j l.label? s ∧ s.Restates target p.symbols i.effect := by
  have hlegal : ∀ l ∈ lines, l.statement.Legal := by
    intro l hl
    obtain ⟨comment, hread⟩ := hr.statements l hl
    exact Statement.legal_of_read hread
  rcases h.initializer_or_command hi with ⟨-, n, a, ha, hindex, hinitial⟩ | ⟨n, l, hl, -, hindex, hinstruction⟩
  · have hfound := h.symbols.alias?_of_mem hc (List.mem_of_getElem? ha)
    rcases (h.symbols.alias?_eq_some_iff hc).mp hfound with ⟨s, -, -, hspecial⟩ | ⟨n', l, d, address, hl, hd, hname, -, haddress⟩
    · -- special addresses have no initial values
      obtain ⟨value, hvalue, -⟩ := hinitial
      rw [hspecial] at hvalue
      cases hvalue
    · have hstatement := alias?_eq_some_iff.mp hd
      have hdeclared : (Statement.alias d).Legal := hstatement ▸ hlegal l (List.mem_of_getElem? hl)
      have hlabel : l.label? = none := by rw [label?, hstatement]
      have hline : i.line = some l.number := by
        obtain ⟨value, -, rfl⟩ := hinitial
        exact congrArg Alias.line haddress
      refine ⟨l, List.mem_of_getElem? hl, hline, .alias a.declaration, ?_⟩
      rw [hlabel]
      exact hinitial.captioned hindex (Alias.legal_declaration hdeclared hname.symm) hfound
  · refine ⟨l, List.mem_of_getElem? hl, hinstruction.line_eq, ?_⟩
    refine hinstruction.captioned hindex h.symbols hc (hlegal l (List.mem_of_getElem? hl)) fun name hname => ?_
    rw [(h.symbols.label?_eq_some_iff hc).mpr ⟨n, l, hl, hname, rfl⟩, Option.map_some, hindex]

/-- The address of every initial value fits in a word, as long as the text has fewer lines than there are such words. -/
theorem Emitted.toInt_address (h : Emitted target lines p) (hc : Consistent target.memorySize lines)
    (hlength : lines.length < 2 ^ 63) {j : Nat} {i : Instruction} (hi : p.instructions[j]? = some i) {address : Nat}
    {value : Word} (heffect : i.effect = .store address value) : (Int64.ofNat address).toInt = address := by
  rcases h.initializer_or_command hi with ⟨-, n, a, ha, -, hinitial⟩ | ⟨n, l, -, -, -, hinstruction⟩
  · obtain ⟨value, -, rfl⟩ := hinitial
    cases heffect
    exact h.symbols.toInt_address hc hlength (List.mem_of_getElem? ha)
  · obtain ⟨code, command, effect, mnemonic, -, -, hmeans, rfl⟩ := hinstruction
    exact absurd heffect (hmeans.ne_store address value)

end Captions

/-- The captions of a program say what its instructions do: behind the index, and after the label of the line if there
    is one, stands a line that means the effect of the instruction and no other, by the symbols of the program. -/
theorem Target.captions_restate {target : Target} {texts : List String} {p : Program}
    (h : target.assemble texts = .ok p) :
    (∀ (j : Nat) (i : Instruction), p.instructions[j]? = some i → ∃ l s, IsLine texts l ∧ i.line = some l.number ∧
      i.Captioned p.symbols j l.label? s ∧ ∀ effect, s.Restates target p.symbols effect ↔ effect = i.effect) ∧
    (texts.length < 2 ^ 63 → ∀ (j : Nat) (i : Instruction) (address : Nat) (value : Word), p.instructions[j]? = some i →
      i.effect = .store address value → (Int64.ofNat address).toInt = address) ∧ p.captions.Nodup := by
  obtain ⟨lines, hreads, hwell, hemitted⟩ := assemble_eq_ok_iff.mp h
  refine ⟨fun j i hi => ?_, fun hlength j i address value hi heffect => ?_, (hemitted.legible hreads).distinct⟩
  · obtain ⟨l, hl, hline, s, hcaption, hrestates⟩ := hemitted.captioned hreads hwell.toConsistent hi
    refine ⟨l, s, hreads.mem_iff.mp hl, hline, hcaption, fun effect => ⟨fun h' => h'.unique hrestates, ?_⟩⟩
    rintro rfl
    exact hrestates
  · exact hemitted.toInt_address hwell.toConsistent (hreads.length_eq ▸ hlength) hi heffect

/-- A program with an initial value, whose commands are not written as they are captioned. -/
def lowercase : List String := ["start: lodd n", "#alias n =5", "end ; done"]

/-- The second caption says what the second instruction does. -/
theorem Target.captions_restate_lowercase : ∃ p, Target.assemble {} lowercase = .ok p ∧
    p.captions = ["(0): #alias n @1 =5", "start(=1): LODD n", "(2): END"] ∧
    ∃ i l s, p.instructions[1]? = some i ∧ IsLine lowercase l ∧ i.Captioned p.symbols 1 l.label? s ∧
      s.Restates {} p.symbols i.effect := by
  have hok : (Target.assemble {} lowercase).toOption.map (·.captions) =
      some ["(0): #alias n @1 =5", "start(=1): LODD n", "(2): END"] := by decide +kernel
  obtain ⟨p, hp, hcaptions⟩ := exists_eq_ok_of_map_toOption hok
  obtain ⟨i, hi, -⟩ : ∃ i, p.instructions[1]? = some i ∧ i.caption = "start(=1): LODD n" := by
    have hcaption : p.captions[1]? = some "start(=1): LODD n" := by rw [hcaptions]; rfl
    rwa [Program.captions, List.getElem?_map, Array.getElem?_toList, Option.map_eq_some_iff] at hcaption
  obtain ⟨l, s, hl, -, hcaption, hrestates⟩ := (captions_restate hp).1 1 i hi
  exact ⟨p, hp, hcaptions, i, l, s, hi, hl, hcaption, (hrestates i.effect).mpr rfl⟩

end Mac1
