import Mathlib.Data.List.Basic
import Mac1.Proofs.Assembly.Acceptance

/-! Where aliases are declared does not matter. Every pass over the lines looks at declarations only or at code only, and
    passes over everything else. Two programs with the same declarations and the same code are therefore assembled
    alike, however the ones stand between the others; only the numbers of the lines are not the same. -/

namespace Mac1

open SourceLine

/-! ### Lists that select the same -/

/-- Two lists hold items with the same keys in the same order, between other items that have no key. -/
inductive Alike {α β : Type} (key? : α → Option β) : List α → List α → Prop
  | nil : Alike key? [] []
  | left {a : α} {l l' : List α} (ha : key? a = none) (h : Alike key? l l') : Alike key? (a :: l) l'
  | right {a' : α} {l l' : List α} (ha' : key? a' = none) (h : Alike key? l l') : Alike key? l (a' :: l')
  | both {a a' : α} {k : β} {l l' : List α} (ha : key? a = some k) (ha' : key? a' = some k) (h : Alike key? l l') :
    Alike key? (a :: l) (a' :: l')

theorem alike_of_filterMap_eq {α β : Type} {key? : α → Option β} {l l' : List α}
    (h : l.filterMap key? = l'.filterMap key?) : Alike key? l l' := by
  induction l generalizing l' with
  | nil =>
    induction l' with
    | nil => exact .nil
    | cons a' l' ih =>
      -- no key is left, so the other list has none either
      have hnone := List.filterMap_eq_nil_iff.mp h.symm
      exact .right (hnone a' List.mem_cons_self)
        (ih (List.filterMap_eq_nil_iff.mpr fun b hb => hnone b (List.mem_cons_of_mem a' hb)).symm)
  | cons a l ih =>
    cases ha : key? a with
    | none => exact .left ha (ih (by rwa [List.filterMap_cons_none ha] at h))
    | some k =>
      -- the partner of the first item is behind those of the other list that have no key
      induction l' with
      | nil => simp [ha] at h
      | cons a' l' ih' =>
        cases ha' : key? a' with
        | none => exact .right ha' (ih' (by rwa [List.filterMap_cons_none ha'] at h))
        | some k' =>
          rw [List.filterMap_cons_some ha, List.filterMap_cons_some ha', List.cons.injEq] at h
          exact .both ha (h.1 ▸ ha') (ih h.2)

/-! ### Programs without the numbers of their lines

No pass reads the number of a line again, so the numbers can be left out before or after it. -/

def Label.unnumbered (b : Label) : Label := { b with line := 0 }

def Alias.unnumbered (a : Alias) : Alias := { a with line := none }

def Instruction.unnumbered (i : Instruction) : Instruction := { i with line := none }

def SymbolTable.unnumbered (t : SymbolTable) : SymbolTable :=
  ⟨t.labels.map Label.unnumbered, t.aliases.map Alias.unnumbered⟩

/-- Two programs do the same, show the same and name the same, each possibly from other lines. -/
structure SameButLines (p p' : Program) : Prop where
  effects : p'.instructions.toList.map (·.effect) = p.instructions.toList.map (·.effect)
  captions : p'.captions = p.captions
  labels : ∀ name, (p'.symbols.label? name).map (·.index) = (p.symbols.label? name).map (·.index)
  aliases : p'.symbols.aliases.map (fun a => (a.name, a.address, a.value)) =
    p.symbols.aliases.map fun a => (a.name, a.address, a.value)

namespace SymbolTable
variable {t t' : SymbolTable} {memorySize : Nat} {kind : ParameterKind} {name token : String}

theorem label?_unnumbered : t.unnumbered.label? name = (t.label? name).map Label.unnumbered := by
  rw [label?, unnumbered, List.find?_map]
  rfl

theorem alias?_unnumbered : t.unnumbered.alias? name = (t.alias? name).map Alias.unnumbered := by
  rw [alias?, unnumbered, List.find?_map]
  rfl

/-- What a parameter stands for does not depend on the lines of the symbols. -/
theorem resolve_unnumbered : t.unnumbered.resolve memorySize kind token = t.resolve memorySize kind token := by
  have hplace : (t.unnumbered.alias? token).map (Int64.ofNat ·.address) =
      (t.alias? token).map (Int64.ofNat ·.address) := by
    rw [alias?_unnumbered, Option.map_map]
    rfl
  cases kind with
  | absent => rfl
  | constant => rfl
  | stackOffset => simp only [resolve, hplace]
  | address => simp only [resolve, hplace]
  | label =>
    rw [resolve, resolve, label?_unnumbered]
    cases t.label? token <;> rfl

end SymbolTable

/-! ### What the lines of a text select -/

namespace SourceLine

def code? (l : SourceLine) : Option CodeLine :=
  match l.statement with
  | .code code => some code
  | _ => none

theorem code?_eq_some_iff {l : SourceLine} {code : CodeLine} : l.code? = some code ↔ l.statement = .code code := by
  unfold code?
  cases l.statement <;> simp

theorem label?_eq (l : SourceLine) : l.label? = l.code?.bind (·.label) := by
  unfold label? code?
  cases l.statement <;> rfl

theorem hasCommand_eq (l : SourceLine) : l.hasCommand = l.code?.any (·.hasCommand) := by
  unfold hasCommand code?
  cases l.statement <;> rfl

end SourceLine

/-- The declaration that a text reads as. -/
def Line.declaration? (text : String) : Option AliasDeclaration :=
  match Line.read text with
  | .ok ⟨.alias d, _⟩ => some d
  | _ => none

/-- The code that a text reads as. -/
def Line.code? (text : String) : Option CodeLine :=
  match Line.read text with
  | .ok ⟨.code code, _⟩ => some code
  | _ => none

/-- Two texts have the same declarations in the same order, and the same code in the same order. All other lines of the
    second text say nothing. -/
structure Rearranged (texts texts' : List String) : Prop where
  declarations : texts'.filterMap Line.declaration? = texts.filterMap Line.declaration?
  code : texts'.filterMap Line.code? = texts.filterMap Line.code?
  readable : ∀ text ∈ texts', (Line.read text).isOk = true

section Select
variable {memorySize : Nat} {texts texts' : List String} {lines lines' : List SourceLine}

theorem SourceLine.Reads.filterMap_eq {β : Type} {key? : SourceLine → Option β} {textKey? : String → Option β}
    (h : Reads texts lines)
    (hkey : ∀ l comment, Line.read l.text = .ok ⟨l.statement, comment⟩ → key? l = textKey? l.text) :
    lines.filterMap key? = texts.filterMap textKey? := by
  rw [← h.texts, List.filterMap_map]
  refine List.filterMap_congr fun l hl => ?_
  obtain ⟨comment, hread⟩ := h.statements l hl
  exact hkey l comment hread

theorem SourceLine.alias?_of_read {l : SourceLine} {comment : Option String}
    (h : Line.read l.text = .ok ⟨l.statement, comment⟩) : l.alias? = Line.declaration? l.text := by
  rw [Line.declaration?, h, alias?]
  cases l.statement <;> rfl

theorem SourceLine.Reads.aliases_eq (h : Reads texts lines) : aliases lines = texts.filterMap Line.declaration? :=
  h.filterMap_eq fun _ _ hread => alias?_of_read hread

theorem SourceLine.Reads.code_eq (h : Reads texts lines) : lines.filterMap (·.code?) = texts.filterMap Line.code? := by
  refine h.filterMap_eq fun l comment hread => ?_
  rw [Line.code?, hread, code?]
  cases l.statement <;> rfl

/-- A text each of whose lines can be read has source lines. -/
theorem SourceLine.exists_reads (h : ∀ text ∈ texts', (Line.read text).isOk = true) :
    ∃ lines, Reads texts' lines := by
  suffices hmore : ∀ texts before, Reads texts before → ∃ lines, Reads (texts ++ texts') lines from hmore [] [] reads_nil
  induction texts' with
  | nil => exact fun texts before hbefore => ⟨before, by rwa [List.append_nil]⟩
  | cons text texts' ih =>
    intro texts before hbefore
    have hok := h text List.mem_cons_self
    cases hread : Line.read text with
    | error e => rw [hread] at hok; cases hok
    | ok line =>
      have hnext : Reads (texts ++ [text]) (before ++ [⟨before.length + 1, text, line.statement⟩]) :=
        hbefore.concat rfl rfl ⟨line.comment, hread⟩
      obtain ⟨lines, hlines⟩ := ih (fun t ht => h t (List.mem_cons_of_mem text ht)) _ _ hnext
      exact ⟨lines, by rwa [List.append_assoc] at hlines⟩

theorem SourceLine.labels_eq (lines : List SourceLine) :
    labels lines = (lines.filterMap (·.code?)).filterMap (·.label) := by
  rw [labels, List.filterMap_filterMap]
  exact List.filterMap_congr fun l _ => l.label?_eq

/-- Whether declarations agree depends on the declarations only. -/
theorem SourceLine.Consistent.of_eq (h : Consistent memorySize lines) (haliases : aliases lines' = aliases lines)
    (hcode : lines'.filterMap (·.code?) = lines.filterMap (·.code?)) : Consistent memorySize lines' where
  labels := by
    rw [labels_eq, hcode, ← labels_eq]
    exact h.labels
  names := haliases ▸ h.names
  unreserved := haliases ▸ h.unreserved
  addresses := haliases ▸ h.addresses

theorem SourceLine.countP_alias? (lines : List SourceLine) (q : AliasDeclaration → Bool) :
    lines.countP (fun l => l.alias?.any q) = (aliases lines).countP q := by
  rw [aliases, List.countP_filterMap]
  exact List.countP_congr fun l _ => by cases l.alias? <;> rfl

theorem SymbolTable.takenAddresses_eq (lines : List SourceLine) : takenAddresses lines =
    SpecialAddress.all.map (·.address) ++ (SourceLine.aliases lines).filterMap fun d => d.address.map (·.toInt.toNat) := by
  rw [takenAddresses, SourceLine.aliases, List.filterMap_filterMap]
  refine congrArg _ (List.filterMap_congr fun l _ => ?_)
  cases l.alias? <;> rfl

/-! What is counted before the addresses are allocated depends on the declarations only. -/

section Congr
variable (haliases : SourceLine.aliases lines' = SourceLine.aliases lines)
include haliases

theorem SourceLine.countP_alias?_congr (q : AliasDeclaration → Bool) :
    lines'.countP (fun l => l.alias?.any q) = lines.countP (fun l => l.alias?.any q) := by
  rw [countP_alias?, haliases, ← countP_alias?]

theorem SymbolTable.initialCount_congr : initialCount lines' = initialCount lines := countP_alias?_congr haliases _

theorem SymbolTable.takenAddresses_congr : takenAddresses lines' = takenAddresses lines := by
  rw [takenAddresses_eq, haliases, ← takenAddresses_eq]

end Congr

end Select

/-! ### The passes over rearranged lines -/

/-- Two passes that write the same first entry, but for what `erase` leaves out, and go on in the same way. -/
theorem exists_map_cons {α γ ε : Type} {erase : α → γ} {a a' : α} {rest rest' : Except ε (List α)} {out : List α}
    (h : rest.map (a :: ·) = .ok out) (ha : erase a' = erase a)
    (hrest : ∀ {tail}, rest = .ok tail → ∃ tail', rest' = .ok tail' ∧ tail'.map erase = tail.map erase) :
    ∃ out', rest'.map (a' :: ·) = .ok out' ∧ out'.map erase = out.map erase := by
  obtain ⟨tail, htail, rfl⟩ := map_cons_eq_ok_iff.mp h
  obtain ⟨tail', htail', hsame⟩ := hrest htail
  exact ⟨a' :: tail', map_cons_eq_ok_iff.mpr ⟨tail', htail', rfl⟩, by rw [List.map_cons, List.map_cons, ha, hsame]⟩

section Passes
variable {target : Target} {memorySize : Nat} {lines lines' : List SourceLine} {t t' : SymbolTable}

/-- Aliases get their addresses in the order of their declarations, whatever stands between these. -/
theorem SymbolTable.allocate_of_alike (h : Alike (·.alias?) lines lines') {free : List Nat} {out : List Alias}
    (hout : allocate free lines = .ok out) :
    ∃ out', allocate free lines' = .ok out' ∧ out'.map Alias.unnumbered = out.map Alias.unnumbered := by
  induction h generalizing free out with
  | nil => exact ⟨out, hout, rfl⟩
  | left ha _ ih =>
    rw [allocate, ha] at hout
    exact ih hout
  | right ha' _ ih =>
    rw [allocate, ha']
    exact ih hout
  | @both l l' d lines lines' ha ha' _ ih =>
    rw [allocate, ha] at hout
    rw [allocate, ha']
    dsimp only at hout ⊢
    split at hout
    · exact exists_map_cons hout rfl ih
    · exact exists_map_cons hout rfl ih
    · cases hout

/-- Labels count the commands before them and nothing else. -/
theorem SymbolTable.labelsFrom_of_alike (h : Alike (·.code?) lines lines') (next : Nat) :
    (labelsFrom next lines').map Label.unnumbered = (labelsFrom next lines).map Label.unnumbered := by
  induction h generalizing next with
  | nil => rfl
  | left ha _ ih =>
    rw [labelsFrom, label?_eq, hasCommand_eq, ha]
    exact ih next
  | right ha' _ ih =>
    rw [labelsFrom, label?_eq, hasCommand_eq, ha']
    exact ih next
  | @both l l' code lines lines' ha ha' _ ih =>
    rw [labelsFrom, labelsFrom, label?_eq, label?_eq, hasCommand_eq, hasCommand_eq, ha, ha', Option.bind_some,
      Option.any_some]
    cases code.label with
    | none => exact ih _
    | some name =>
      rw [List.map_cons, List.map_cons, ih]
      rfl

theorem SymbolTable.ofLines_of_eq (haliases : SourceLine.aliases lines' = SourceLine.aliases lines)
    (hcode : lines'.filterMap (·.code?) = lines.filterMap (·.code?)) (h : ofLines memorySize lines = .ok t) :
    ∃ t', ofLines memorySize lines' = .ok t' ∧ t'.unnumbered = t.unnumbered := by
  rw [ofLines] at h
  rw [ofLines, takenAddresses_congr haliases, initialCount_congr haliases, countP_alias?_congr haliases]
  cases hdeclared : allocate (freeAddresses memorySize (takenAddresses lines)
      (lines.countP fun l => l.alias?.any (·.address.isNone))) lines with
  | error e =>
    rw [hdeclared] at h
    cases h
  | ok declared =>
    rw [hdeclared] at h
    cases h
    obtain ⟨declared', hdeclared', hsame⟩ := allocate_of_alike (alike_of_filterMap_eq haliases.symm) hdeclared
    rw [hdeclared']
    refine ⟨_, rfl, ?_⟩
    rw [unnumbered, unnumbered, labelsFrom_of_alike (alike_of_filterMap_eq hcode.symm), List.map_append, List.map_append,
      hsame]

namespace Target

/-- The initial values are set in the order of the aliases. -/
theorem initializersFrom_unnumbered (aliases : List Alias) (next : Nat) :
    initializersFrom next (aliases.map Alias.unnumbered) =
      (initializersFrom next aliases).map Instruction.unnumbered := by
  induction aliases generalizing next with
  | nil => rfl
  | cons a aliases ih =>
    rw [List.map_cons, initializersFrom, initializersFrom]
    have hvalue : a.unnumbered.value = a.value := rfl
    rw [hvalue]
    cases a.value with
    | none => exact ih next
    | some value =>
      dsimp only
      rw [List.map_cons, ih]
      rfl

theorem effect_eq (h : t'.unnumbered = t.unnumbered) (command : String) (parameter : Option String) :
    target.effect t' command parameter = target.effect t command parameter := by
  have hresolve (kind : ParameterKind) (token : String) :
      t'.resolve target.memorySize kind token = t.resolve target.memorySize kind token := by
    rw [← SymbolTable.resolve_unnumbered, h, SymbolTable.resolve_unnumbered]
  simp only [effect, hresolve]

theorem instructionsFrom_of_not_hasCommand {l : SourceLine} {next : Nat} (h : ¬l.hasCommand = true) :
    target.instructionsFrom t next (l :: lines) = target.instructionsFrom t next lines := by
  rw [instructionsFrom]
  split
  · next hl => exact absurd (hasCommand_iff.mpr ⟨_, _, hl, rfl⟩) h
  · rfl

theorem instructionsFrom_of_none {l : SourceLine} {next : Nat} (h : l.code? = none) :
    target.instructionsFrom t next (l :: lines) = target.instructionsFrom t next lines :=
  instructionsFrom_of_not_hasCommand (by simp [hasCommand_eq, h])

theorem instructionsFrom_of_some {l : SourceLine} {next : Nat} {code : CodeLine} (h : l.code? = some code) :
    target.instructionsFrom t next (l :: lines) =
      match code.command with
      | none => target.instructionsFrom t next lines
      | some command =>
        match target.effect t command code.parameter with
        | .error cause => .error (l.error cause)
        | .ok (effect, mnemonic) =>
          (target.instructionsFrom t (next + 1) lines).map (⟨effect, Instruction.heading code.label next ++
            { command := mnemonic, parameter := code.parameter : CodeLine }.render, l.number⟩ :: ·) := by
  obtain ⟨label, command, parameter⟩ := code
  rw [instructionsFrom, code?_eq_some_iff.mp h]
  cases command <;> rfl

/-- Commands are resolved and numbered one after the other, whatever stands between them. -/
theorem instructionsFrom_of_alike (h : Alike (·.code?) lines lines') (ht : t'.unnumbered = t.unnumbered) {next : Nat}
    {out : List Instruction} (hout : target.instructionsFrom t next lines = .ok out) :
    ∃ out', target.instructionsFrom t' next lines' = .ok out' ∧
      out'.map Instruction.unnumbered = out.map Instruction.unnumbered := by
  induction h generalizing next out with
  | nil => exact ⟨out, hout, rfl⟩
  | left ha _ ih =>
    rw [instructionsFrom_of_none ha] at hout
    exact ih hout
  | right ha' _ ih =>
    rw [instructionsFrom_of_none ha']
    exact ih hout
  | @both l l' code lines lines' ha ha' _ ih =>
    rw [instructionsFrom_of_some ha] at hout
    rw [instructionsFrom_of_some ha']
    cases hcommand : code.command with
    | none =>
      rw [hcommand] at hout
      exact ih hout
    | some command =>
      rw [hcommand] at hout
      dsimp only at hout ⊢
      rw [effect_eq ht]
      cases heffect : target.effect t command code.parameter with
      | error cause =>
        rw [heffect] at hout
        cases hout
      | ok found =>
        rw [heffect] at hout
        exact exists_map_cons hout rfl ih

end Target

end Passes

/-! ### The rearranged program -/

section Program
variable {target : Target} {texts texts' : List String} {p p' : Program}

theorem SameButLines.of_unnumbered (hsymbols : p'.symbols.unnumbered = p.symbols.unnumbered)
    (hinstructions : p'.instructions.toList.map Instruction.unnumbered =
      p.instructions.toList.map Instruction.unnumbered) : SameButLines p p' where
  effects := by simpa [Function.comp_def, Instruction.unnumbered] using congrArg (List.map (·.effect)) hinstructions
  captions := by
    simpa [Function.comp_def, Instruction.unnumbered, Program.captions] using congrArg (List.map (·.caption)) hinstructions
  labels name := by
    have hlabel := congrArg (fun t => (t.label? name).map (·.index)) hsymbols
    simp only [SymbolTable.label?_unnumbered, Option.map_map] at hlabel
    exact hlabel
  aliases := by
    have haliases := congrArg (fun t => t.aliases.map fun a => (a.name, a.address, a.value)) hsymbols
    simp only [SymbolTable.unnumbered, List.map_map] at haliases
    exact haliases

/-- A program whose declarations stand between its code in other places is assembled to the same program, but for the
    numbers of the lines. -/
theorem Target.assemble_rearranged (h : target.assemble texts = .ok p) (hr : Rearranged texts texts') :
    ∃ p', target.assemble texts' = .ok p' ∧ SameButLines p p' := by
  obtain ⟨lines, hread, hsymbols, commands, hcommands, hp⟩ := assemble_eq_ok_iff_passes.mp h
  obtain ⟨hreads, hc⟩ := readAll_eq_ok_iff.mp hread
  obtain ⟨lines', hreads'⟩ := exists_reads hr.readable
  have haliases : aliases lines' = aliases lines := by rw [hreads'.aliases_eq, hr.declarations, ← hreads.aliases_eq]
  have hcode : lines'.filterMap (·.code?) = lines.filterMap (·.code?) := by
    rw [hreads'.code_eq, hr.code, ← hreads.code_eq]
  -- pass by pass, what is made of the second text is what is made of the first, without the numbers
  obtain ⟨t', hsymbols', ht⟩ := SymbolTable.ofLines_of_eq haliases hcode hsymbols
  have hinitializers : (initializersFrom 0 t'.aliases).map Instruction.unnumbered =
      (initializersFrom 0 p.symbols.aliases).map Instruction.unnumbered := by
    rw [← initializersFrom_unnumbered, ← initializersFrom_unnumbered]
    exact congrArg (fun t => initializersFrom 0 t.aliases) ht
  have hlength : (initializersFrom 0 t'.aliases).length = (initializersFrom 0 p.symbols.aliases).length := by
    simpa using congrArg List.length hinitializers
  obtain ⟨commands', hcommands', hsame⟩ :=
    instructionsFrom_of_alike (alike_of_filterMap_eq hcode.symm) ht hcommands
  refine ⟨⟨(initializersFrom 0 t'.aliases ++ commands').toArray, t'⟩, ?_, .of_unnumbered ht ?_⟩
  · exact assemble_eq_ok_iff_passes.mpr ⟨lines', readAll_eq_ok_iff.mpr ⟨hreads', hc.of_eq haliases hcode⟩, hsymbols',
      commands', hlength ▸ hcommands', rfl⟩
  · rw [hp, List.map_append, List.map_append, hinitializers, hsame]

end Program

/-- A program that declares what it uses at the end. -/
def declaredLast : List String :=
  ["LODD total", "more: ADDD step", "JNEG more", "#alias step =2", "#alias total =-9 @7", "END"]

/-- The same program with its declarations at the start and in the middle, with lines that say nothing. -/
def declaredEarlier : List String :=
  ["; counts up", "#alias step =2", "LODD total", "more: ADDD step", "", "#alias total =-9 @7", "JNEG more", "END", "  "]

theorem Target.assemble_rearranged_declaredLast : ∃ p p', Target.assemble {} declaredLast = .ok p ∧
    Target.assemble {} declaredEarlier = .ok p' ∧ SameButLines p p' ∧
    (p'.symbols.label? "more").map (·.index) = some 3 := by
  have hindex : ((Target.assemble {} declaredLast).toOption.bind (·.symbols.label? "more")).map (·.index) = some 3 := by
    decide +kernel
  have hr : Rearranged declaredLast declaredEarlier := ⟨by decide +kernel, by decide +kernel, by decide +kernel⟩
  cases hp : Target.assemble {} declaredLast with
  | error e => rw [hp] at hindex; cases hindex
  | ok p =>
    rw [hp] at hindex
    obtain ⟨p', hp', hsame⟩ := Target.assemble_rearranged hp hr
    exact ⟨p, p', rfl, hp', hsame, (hsame.labels "more").trans hindex⟩

end Mac1
