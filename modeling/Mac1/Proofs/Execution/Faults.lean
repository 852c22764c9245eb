import Mac1.Proofs.Assembly.Acceptance
import Mac1.Proofs.Execution.Batches
import Mac1.Proofs.Execution.Invariant
import Mac1.Proofs.Machine.Faults
import Mac1.Proofs.Trace.Record

/-! Where the runs of an assembled program can fail. The addresses that are written in a program, or allocated for it,
    have been compared with the size of memory when it was assembled, so on a machine that is large enough they are
    those of cells. What is left are the addresses that come from a register while the program runs. -/

namespace Mac1

open SourceLine

/-! ### Addresses in a program -/

/-- The address of an instruction, if it has one, lies below `size`. -/
def Effect.Fits (size : Nat) : Effect → Prop
  | .apply op x => op.parameterKind.IsPlace → Word.Inside size x
  | .store address _ => address < size
  | .halt => True

theorem Effect.Fits.mono {size size' : Nat} {effect : Effect} (h : effect.Fits size) (hle : size ≤ size') :
    effect.Fits size' := by
  cases effect with
  | apply op x =>
    intro hplace
    obtain ⟨hlow, hhigh⟩ := h hplace
    exact ⟨hlow, Int.lt_of_lt_of_le hhigh (Int.ofNat_le.mpr hle)⟩
  | store address value => exact Nat.lt_of_lt_of_le h hle
  | halt => trivial

section Addresses
variable {memorySize : Nat} {lines : List SourceLine}

theorem SourceLine.Assigned.lt (hc : Consistent memorySize lines) {n address : Nat} {d : AliasDeclaration}
    (hd : d ∈ aliases lines) (h : Assigned (unclaimed memorySize lines) lines n d address) : address < memorySize := by
  unfold Assigned at h
  cases ha : d.address with
  | some a =>
    rw [ha] at h
    have hinside := hc.addresses d hd a ha
    obtain ⟨hlow, hhigh⟩ := hinside
    omega
  | none =>
    rw [ha] at h
    have hmem := List.mem_of_getElem? h
    exact List.mem_range.mp (List.mem_filter.mp hmem).1

/-- An alias that the lines declare lies inside memory, whether its address is written or allocated. -/
theorem SymbolTable.Tabulates.address_lt {t : SymbolTable} (h : t.Tabulates memorySize lines)
    (hc : Consistent memorySize lines) {a : Alias} (ha : a ∈ t.aliases) :
    (∃ s ∈ SpecialAddress.all, a = Alias.ofSpecial s) ∨ a.address < memorySize := by
  obtain ⟨declared, haliases, hdeclared⟩ := h.aliases
  rw [haliases, List.mem_append] at ha
  rcases ha with hspecial | ha
  · obtain ⟨s, hs, hsame⟩ := List.mem_map.mp hspecial
    exact .inl ⟨s, hs, hsame.symm⟩
  · obtain ⟨n, l, hl, -, -, d, address, hd, haddress, hsame⟩ := hdeclared.mem_iff.mp ha
    subst hsame
    exact .inr (haddress.lt hc (mem_aliases.mpr ⟨l, List.mem_of_getElem? hl, hd⟩))

theorem SourceLine.Means.fits {target : Target} {command mnemonic : String} {parameter : Option String}
    {effect : Effect} (h : Means target lines command parameter effect mnemonic) :
    effect.Fits target.memorySize := by
  cases h with
  | halt => trivial
  | plain _ hk => exact fun hplace => by rcases hplace with h | h <;> rw [hk] at h <;> cases h
  | applied _ hx => exact fun hplace => ((denotes_place_iff hplace).mp hx).2

theorem Emitted.fits {target : Target} {p : Program} (h : Emitted target lines p)
    (hc : Consistent target.memorySize lines) {i : Instruction} (hi : i ∈ p.instructions) :
    i.effect.Fits target.memorySize := by
  obtain ⟨initializers, commands, hp, -, hinitializers, hcommands⟩ := h.exists_split
  rw [← Array.mem_toList_iff, hp, List.mem_append] at hi
  rcases hi with hi | hi
  · obtain ⟨n, a, ha, -, -, value, hvalue, hsame⟩ := hinitializers.mem_iff.mp hi
    subst hsame
    rcases h.symbols.address_lt hc (List.mem_of_getElem? ha) with ⟨s, -, hspecial⟩ | hlt
    · rw [hspecial] at hvalue
      cases hvalue
    · exact hlt
  · obtain ⟨n, l, -, -, -, code, command, effect, mnemonic, -, -, hmeans, hsame⟩ := hcommands.mem_iff.mp hi
    subst hsame
    exact hmeans.fits

end Addresses

/-! ### Instructions -/

namespace Machine

/-- The address comes from a register: it is an offset from the stack pointer, or the accumulator. -/
def FromRegister (m : Machine) (op : Opcode) (x address : Word) : Prop :=
  (op ∈ [.lodl, .stol, .addl, .subl] ∧ address.toInt = m.sp + x.toInt) ∨ (op ∈ [.pshi, .popi] ∧ address = m.ac)

variable {m : Machine}

theorem storeInitial_eq {address : Nat} (hsize : address < m.memory.size)
    (hword : (Int64.ofNat address).toInt = address) (value : Word) : m.storeInitial address value =
      .ok () { m with memory := m.memory.set address value, log := m.log.push (.cell address value) } := by
  have hindex := Word.index?_eq_some_iff.mpr ⟨hword, hsize⟩
  have hcheck : MicroOp.check (Int64.ofNat address) m = .ok address m := by
    simp only [MicroOp.check, Memory.check, hindex]
  exact MicroOp.bind_of_ok hcheck

section Small
variable (hsize : m.memory.size < 2 ^ 60)
include hsize

theorem exists_storeInitial_eq {address : Nat} (haddress : address < m.memory.size) (value : Word) :
    ∃ m', m.storeInitial address value = .ok () m' :=
  ⟨_, storeInitial_eq haddress (Int64.toInt_ofNat_of_lt (by omega)) value⟩

theorem fromRegister_of_error (h : m.StackInside) {op : Opcode} {x : Word}
    (hx : op.parameterKind.IsPlace → Word.Inside m.memory.size x) {fault : Fault} {m' : Machine}
    (hfault : m.apply op x = .error fault m') :
    ∃ address, fault = .outOfBounds address ∧ ¬Word.Inside m.memory.size address ∧ m.FromRegister op x address := by
  obtain ⟨address, hchecked, hinside, hfault, -⟩ := (apply_eq_error_iff h).mp hfault
  refine ⟨address, hfault, hinside, ?_⟩
  -- an offset below the memory size is too small for the sum to wrap around
  have stack (hx : Word.Inside m.memory.size x) : (Int64.ofNat m.sp + x).toInt = m.sp + x.toInt := by
    have hlt : m.sp < m.memory.size := h
    have hsp : (Int64.ofNat m.sp).toInt = m.sp := Int64.toInt_ofNat_of_lt (by omega)
    obtain ⟨hlow, hhigh⟩ := hx
    rw [Int64.toInt_add, hsp, Int.bmod_def]
    split <;> omega
  cases op with
  | lodd | stod | addd | subd =>
    cases hchecked
    exact absurd (hx (.inr rfl)) hinside
  | lodl | stol | addl | subl =>
    cases hchecked
    exact .inl ⟨by decide, stack (hx (.inl rfl))⟩
  | pshi | popi =>
    cases hchecked
    exact .inr ⟨by decide, rfl⟩
  | _ => cases hchecked

end Small

end Machine

/-! ### Runs -/

namespace Execution
variable {p : Program} {e : Execution} {error : RuntimeError}

/-- A batch that fails runs some instructions, and the next one fails. -/
theorem exists_failing_step {limit : Nat} (h : (batch p limit e).1 = .error error) :
    ∃ k e', k < limit ∧ batch p k e = (.ok false, e') ∧ step p e' = (.failed error, (batch p limit e).2) := by
  induction limit generalizing e with
  | zero => cases h
  | succ limit ih =>
    rw [batch] at h ⊢
    cases hstep : step p e with
    | mk progress e' =>
      rw [hstep] at h
      cases progress with
      | running =>
        obtain ⟨k, e'', hk, hbatch, hfails⟩ := ih h
        refine ⟨k + 1, e'', Nat.succ_lt_succ hk, ?_, hfails⟩
        rw [batch, hstep]
        exact hbatch
      | «over» => cases h
      | failed error' =>
        cases h
        -- no step was made before, so the run is not over: else the step would not have failed
        have hover : p.isOver e.machine = false := by
          cases hover : p.isOver e.machine with
          | false => rfl
          | true =>
            rw [step_of_isOver hover] at hstep
            cases hstep
        exact ⟨0, e, Nat.succ_pos limit, by rw [batch, hover], hstep⟩

theorem settle_failed {index : Nat} {caption : String} {count : UInt64} {trace : Trace}
    {r : EStateM.Result Fault Machine Unit} {e' : Execution}
    (h : settle index caption count trace r = (.failed error, e')) :
    ∃ fault m, r = .error fault m ∧ error = ⟨fault, index, caption⟩ := by
  cases r with
  | ok _ m => cases h
  | error fault m =>
    cases h
    exact ⟨fault, m, rfl, rfl⟩

/-- The instruction that fails on a machine, and the address that it uses. -/
structure FailsAt (p : Program) (m : Machine) (error : RuntimeError) (i : Instruction) (op : Opcode)
    (x address : Word) : Prop where
  fetched : p.next? m = some (error.index, i)
  caption : error.caption = i.caption
  effect : i.effect = .apply op x
  fault : error.fault = .outOfBounds address
  outside : ¬Word.Inside m.memory.size address
  fromRegister : m.FromRegister op x address

theorem exists_failsAt {e' : Execution} (hp : ∀ i ∈ p.instructions, i.effect.Fits e.machine.memory.size)
    (h : e.machine.StackInside) (hsize : e.machine.memory.size < 2 ^ 60) (hstep : step p e = (.failed error, e')) :
    ∃ i op x address, FailsAt p e.machine error i op x address := by
  rw [step] at hstep
  cases hnext : p.next? e.machine with
  | none =>
    rw [hnext] at hstep
    cases hstep
  | some found =>
    obtain ⟨index, i⟩ := found
    rw [hnext] at hstep
    dsimp only at hstep
    have hfits := hp i (Array.mem_of_getElem? (Program.next?_eq_some_iff.mp hnext).2.2)
    have hfetched : Machine.StackInside { e.machine with pc := e.machine.pc + 1 } := h
    cases heffect : i.effect with
    | apply op x =>
      rw [heffect] at hstep hfits
      obtain ⟨fault, m, hfault, rfl⟩ := settle_failed hstep
      obtain ⟨address, rfl, houtside, hregister⟩ := Machine.fromRegister_of_error (m := { e.machine with pc := e.machine.pc + 1 })
        hsize hfetched hfits hfault
      exact ⟨i, op, x, address, hnext, rfl, heffect, rfl, houtside, hregister⟩
    | store address value =>
      rw [heffect] at hstep hfits
      obtain ⟨fault, m, hfault, rfl⟩ := settle_failed hstep
      obtain ⟨m', hok⟩ := Machine.exists_storeInitial_eq (m := { e.machine with pc := e.machine.pc + 1 }) hsize hfits value
      rw [hok] at hfault
      cases hfault
    | halt =>
      rw [heffect] at hstep
      cases hstep

end Execution

/-- A program that was assembled for no more cells than the machine has fails at an address that comes from a register
    and is that of no cell. Its initial values are always stored, and the operations whose address is written in the
    program always succeed. -/
theorem Execution.faults_from_registers {target : Target} {texts : List String} {p : Program}
    (hp : target.assemble texts = .ok p) :
    (∀ (e : Execution) (limit : Nat) (error : RuntimeError), target.memorySize ≤ e.machine.memory.size →
      e.machine.memory.size < 2 ^ 60 → e.machine.StackInside → (e.batch p limit).1 = .error error →
      ∃ k e' i op x address, k < limit ∧ e.batch p k = (.ok false, e') ∧
        e'.step p = (.failed error, (e.batch p limit).2) ∧ e'.machine.memory.size = e.machine.memory.size ∧
        FailsAt p e'.machine error i op x address) ∧
    ∀ i ∈ p.instructions, ∀ m : Machine, target.memorySize ≤ m.memory.size → m.memory.size < 2 ^ 60 → m.StackInside →
      (∀ address value, i.effect = .store address value → ∃ m', m.storeInitial address value = .ok () m') ∧
      ∀ op x, i.effect = .apply op x → op ∈ [.lodd, .stod, .addd, .subd] → ∃ m', m.apply op x = .ok () m' := by
  obtain ⟨lines, -, hwell, hemitted⟩ := Target.assemble_eq_ok_iff.mp hp
  have fits (i : Instruction) (hi : i ∈ p.instructions) {size : Nat} (hsize : target.memorySize ≤ size) :
      i.effect.Fits size := (hemitted.fits hwell.toConsistent hi).mono hsize
  refine ⟨fun e limit error hroom hsize h hfails => ?_, fun i hi m hroom hsize h => ⟨?_, ?_⟩⟩
  · obtain ⟨k, e', hk, hbatch, hstep⟩ := exists_failing_step hfails
    have hkept := kept_batch (p := p) h hsize k
    rw [hbatch] at hkept
    obtain ⟨i, op, x, address, hfailsAt⟩ := exists_failsAt (fun i hi => hkept.size ▸ fits i hi hroom) hkept.inside
      (hkept.size ▸ hsize) hstep
    exact ⟨k, e', i, op, x, address, hk, hbatch, hstep, hkept.size, hfailsAt⟩
  · intro address value heffect
    have haddress := fits i hi hroom
    rw [heffect] at haddress
    exact Machine.exists_storeInitial_eq hsize haddress value
  · intro op x heffect hop
    have hx := fits i hi hroom
    rw [heffect] at hx
    cases hresult : m.apply op x with
    | ok _ m' => exact ⟨m', rfl⟩
    | error fault m' =>
      have hother : ¬(op ∈ [.lodl, .stol, .addl, .subl] ∨ op ∈ [.pshi, .popi]) := by
        revert hop
        cases op <;> decide
      obtain ⟨address, -, -, hregister⟩ := Machine.fromRegister_of_error hsize h hx hresult
      exact absurd (hregister.imp And.left And.left) hother

/-- After a push, an offset that the assembler accepts leads out of a memory of six cells. -/
theorem Execution.faults_from_registers_offset : ∃ p k e' i op x,
    Target.assemble { memorySize := 6 } ["#alias x =4", "PUSH", "LODL 5", "END"] = .ok p ∧
    Execution.batch p k ⟨{ memory := .ofFn 6 fun _ => 0 }, 0, .discarded⟩ = (.ok false, e') ∧
    FailsAt p e'.machine ⟨.outOfBounds 10, 2, "(2): LODL 5"⟩ i op x 10 := by
  have hfails : ((Target.assemble { memorySize := 6 } ["#alias x =4", "PUSH", "LODL 5", "END"]).toOption.map fun p =>
      (Execution.batch p 9 ⟨{ memory := .ofFn 6 fun _ => 0 }, 0, .discarded⟩).1) =
        some (.error ⟨.outOfBounds 10, 2, "(2): LODL 5"⟩) := by
    decide +kernel
  cases hp : Target.assemble { memorySize := 6 } ["#alias x =4", "PUSH", "LODL 5", "END"] with
  | error e => rw [hp] at hfails; cases hfails
  | ok p =>
    rw [hp] at hfails
    obtain ⟨k, e', i, op, x, address, -, hbatch, -, -, hfailsAt⟩ := (Execution.faults_from_registers hp).1
      ⟨{ memory := .ofFn 6 fun _ => 0 }, 0, .discarded⟩ 9 _ (by decide) (by decide) (Nat.succ_pos 5)
      (Option.some.inj hfails)
    obtain rfl : (10 : Word) = address := Fault.outOfBounds.inj hfailsAt.fault
    exact ⟨p, k, e', i, op, x, rfl, hbatch, hfailsAt⟩

end Mac1
