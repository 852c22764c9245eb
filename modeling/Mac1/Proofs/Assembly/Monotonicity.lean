import Mac1.Proofs.Assembly.Acceptance

/-! Larger targets. A memory with more cells has the same unclaimed addresses and more behind them, and a larger
    instruction set knows the same commands and more. Every check that a program passes for one target it therefore
    passes for a larger one, and nothing that is made of its lines depends on what was added. -/

namespace Mac1

open SourceLine

/-- A target has every operation of another, registered in whichever order, and at least as much memory. -/
structure Target.Le (target target' : Target) : Prop where
  opcodes : ∀ op ∈ target.instructionSet.opcodes, op ∈ target'.instructionSet.opcodes
  memorySize : target.memorySize ≤ target'.memorySize

/-! ### More memory -/

section Memory
variable {memorySize memorySize' : Nat} (h : memorySize ≤ memorySize') {lines : List SourceLine}
include h

theorem Word.Inside.mono {w : Word} (hw : Inside memorySize w) : Inside memorySize' w :=
  ⟨hw.1, Int.lt_of_lt_of_le hw.2 (Int.ofNat_le.mpr h)⟩

theorem SourceLine.Consistent.mono (hc : Consistent memorySize lines) : Consistent memorySize' lines where
  labels := hc.labels
  names := hc.names
  unreserved := hc.unreserved
  addresses d hd w hw := (hc.addresses d hd w hw).mono h

theorem SourceLine.unclaimed_prefix_of_le (lines : List SourceLine) :
    unclaimed memorySize lines <+: unclaimed memorySize' lines := by
  obtain ⟨more, rfl⟩ := Nat.exists_eq_add_of_le h
  rw [unclaimed, unclaimed, List.range_add, List.filter_append]
  exact List.prefix_append _ _

theorem SourceLine.Assigned.mono {n : Nat} {d : AliasDeclaration} {address : Nat}
    (ha : Assigned (unclaimed memorySize lines) lines n d address) :
    Assigned (unclaimed memorySize' lines) lines n d address := by
  unfold Assigned at ha ⊢
  cases hd : d.address with
  | some w =>
    rw [hd] at ha
    exact ha
  | none =>
    rw [hd] at ha
    obtain ⟨more, hmore⟩ := unclaimed_prefix_of_le h lines
    have hlt := (List.getElem?_eq_some_iff.mp ha).1
    rw [← hmore]
    exact (List.getElem?_append_left hlt).trans ha

theorem SymbolTable.Tabulates.mono {t : SymbolTable} (ht : t.Tabulates memorySize lines) :
    t.Tabulates memorySize' lines where
  labels := ht.labels
  aliases := by
    obtain ⟨declared, haliases, hdeclared⟩ := ht.aliases
    refine ⟨declared, haliases, hdeclared.imp ?_⟩
    rintro n l a - - ⟨d, address, hd, haddress, rfl⟩
    exact ⟨d, address, hd, haddress.mono h, rfl⟩

theorem SourceLine.NamesAddress.mono {name : String} {address : Nat} (hn : NamesAddress memorySize lines name address) :
    NamesAddress memorySize' lines name address := by
  rcases hn with hspecial | ⟨n, l, d, hl, hd, hname, haddress⟩
  · exact .inl hspecial
  · exact .inr ⟨n, l, d, hl, hd, hname, haddress.mono h⟩

theorem SourceLine.Denotes.mono {kind : ParameterKind} {token : String} {x : Word}
    (hx : Denotes memorySize lines kind token x) : Denotes memorySize' lines kind token x := by
  cases hx with
  | constant hdecimal => exact .constant hdecimal
  | literal hk hdecimal inside => exact .literal hk hdecimal (inside.mono h)
  | name hk hdecimal hname inside => exact .name hk hdecimal (hname.mono h) (inside.mono h)
  | label hl hlabel => exact .label hl hlabel

end Memory

/-! ### Larger targets -/

section Targets
variable {target target' : Target} (h : target.Le target') {lines : List SourceLine} {p : Program}
include h

theorem InstructionSet.Names.mono {command : String} {op : Opcode} (hop : target.instructionSet.Names command op) :
    target'.instructionSet.Names command op :=
  ⟨h.opcodes op hop.1, hop.2⟩

theorem SourceLine.Means.mono {command mnemonic : String} {parameter : Option String} {effect : Effect}
    (hm : Means target lines command parameter effect mnemonic) :
    Means target' lines command parameter effect mnemonic := by
  cases hm with
  | halt hhalt => exact .halt hhalt
  | plain hop hk => exact .plain (hop.mono h) hk
  | applied hop hx => exact .applied (hop.mono h) (hx.mono h.memorySize)

theorem Emitted.mono (hp : Emitted target lines p) : Emitted target' lines p where
  symbols := hp.symbols.mono h.memorySize
  instructions := by
    obtain ⟨initializers, commands, hsplit, hinitializers, hcommands⟩ := hp.instructions
    refine ⟨initializers, commands, hsplit, hinitializers, hcommands.imp ?_⟩
    rintro n l i - - ⟨code, command, effect, mnemonic, hcode, hcommand, hmeans, rfl⟩
    exact ⟨code, command, effect, mnemonic, hcode, hcommand, hmeans.mono h, rfl⟩

end Targets

/-- What is assembled for a target is assembled for every larger one, to the same program. -/
theorem Target.assemble_mono {target target' : Target} (h : target.Le target') {texts : List String} {p : Program}
    (hp : target.assemble texts = .ok p) : target'.assemble texts = .ok p := by
  obtain ⟨lines, hreads, hwell, hemitted⟩ := assemble_eq_ok_iff.mp hp
  have hc := hwell.toConsistent.mono h.memorySize
  have hroom := Nat.le_trans hwell.room (unclaimed_prefix_of_le h.memorySize lines).length_le
  exact assemble_eq_ok_iff.mpr ⟨lines, hreads, (hemitted.mono h).wellFormed hc hroom, hemitted.mono h⟩

/-- A program with two commands, for which three cells of memory are just enough. -/
def tight : List String := ["again: LODD total", "JUMP again", "#alias step @1 =4", "#alias total"]

theorem Target.assemble_mono_tight : ∃ p,
    Target.assemble { instructionSet := .ofList [.lodd, .jump], memorySize := 3 } tight = .ok p ∧
    Target.assemble { instructionSet := .ofList [.jump, .addd, .lodd], memorySize := 4096 } tight = .ok p := by
  have hsize : (Target.assemble { instructionSet := .ofList [.lodd, .jump], memorySize := 3 } tight).toOption.map
      (·.size) = some 3 := by
    decide +kernel
  obtain ⟨p, hp, -⟩ := exists_eq_ok_of_map_toOption hsize
  exact ⟨p, hp, Target.assemble_mono ⟨by decide, by decide⟩ hp⟩

end Mac1
