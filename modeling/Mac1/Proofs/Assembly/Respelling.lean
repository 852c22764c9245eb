import Mac1.Proofs.Assembly.Rearrangement
import Mac1.Proofs.Line.Respacing
import Mac1.Proofs.Text.Case

/-! Respelling. No pass looks at the text of a line again once it is read, except to quote it in an error, and a command
    counts up to the case of its letters. So if the lines of two texts say the same one by one, the texts give the
    same program, or fail for one cause on lines of one number. -/

namespace Mac1

open SourceLine

/-- Two attempts end alike: with results that are related, or for one cause on lines of one number. The errors may quote
    different texts. -/
inductive EndAlike {α β : Type} (R : α → β → Prop) : Except AssemblyError α → Except AssemblyError β → Prop where
  | ok {a : α} {b : β} (h : R a b) : EndAlike R (.ok a) (.ok b)
  | error (cause : AssemblyError.Cause) (number : Nat) (text text' : String) :
    EndAlike R (.error ⟨cause, number, text⟩) (.error ⟨cause, number, text'⟩)

/-- The second statement is the first one, up to the case of the ASCII letters of its command. -/
inductive Statement.Recased : Statement → Statement → Prop where
  | same (s : Statement) : Recased s s
  | command {label parameter : Option String} {command command' : String}
    (h : Text.eqIgnoreAsciiCase command' command = true) :
    Recased (.code { label, command := some command, parameter }) (.code { label, command := some command', parameter })

/-- Two texts say the same as lines, up to the case of a command, or are refused for the same reason. -/
inductive Line.Respelled (text text' : String) : Prop where
  | accepted {s s' : Statement} (h : content text = .ok s) (h' : content text' = .ok s') (recased : s.Recased s')
  | refused {e : LineError} (h : content text = .error e) (h' : content text' = .error e)

/-- A source line before and after it is spelled anew. -/
structure SourceLine.Respelled (l l' : SourceLine) : Prop where
  number : l'.number = l.number
  recased : l.statement.Recased l'.statement

/-! ### How attempts end -/

namespace EndAlike
variable {α β γ δ : Type} {R : α → β → Prop} {S : γ → δ → Prop} {x : Except AssemblyError α}
  {y : Except AssemblyError β}

theorem bind {f : α → Except AssemblyError γ} {g : β → Except AssemblyError δ} (h : EndAlike R x y)
    (hfg : ∀ a b, R a b → EndAlike S (f a) (g b)) : EndAlike S (x >>= f) (y >>= g) := by
  cases h with
  | ok h => exact hfg _ _ h
  | error cause number text text' => exact .error cause number text text'

theorem map {f : α → γ} {x x' : Except AssemblyError α} (h : EndAlike Eq x x') : EndAlike Eq (x.map f) (x'.map f) := by
  cases h with
  | ok h => exact .ok (congrArg f h)
  | error cause number text text' => exact .error cause number text text'

end EndAlike

/-! ### Lines -/

section Lines
variable {s s' : Statement} {l l' : SourceLine} {text text' : String}

theorem Line.Respelled.of_content_eq (h : content text' = content text) : Line.Respelled text text' := by
  cases hread : content text with
  | ok s => exact .accepted hread (h.trans hread) (.same s)
  | error e => exact .refused hread (h.trans hread)

namespace SourceLine.Respelled
variable (h : l.Respelled l')
include h

theorem statement_cases : l'.statement = l.statement ∨ ∃ (code : CodeLine) (command command' : String),
    Text.eqIgnoreAsciiCase command' command = true ∧ l.statement = .code { code with command := some command } ∧
      l'.statement = .code { code with command := some command' } := by
  obtain ⟨number, text, statement⟩ := l
  obtain ⟨number', text', statement'⟩ := l'
  obtain ⟨-, hrecased⟩ := h
  cases hrecased with
  | same => exact .inl rfl
  | @command label parameter command command' hcase =>
    exact .inr ⟨{ label, parameter }, command, command', hcase, rfl, rfl⟩

theorem label?_eq : l'.label? = l.label? := by
  rw [label?, label?]
  rcases h.statement_cases with hs | ⟨code, command, command', -, hs, hs'⟩
  · rw [hs]
  · rw [hs, hs']

theorem alias?_eq : l'.alias? = l.alias? := by
  rw [alias?, alias?]
  rcases h.statement_cases with hs | ⟨code, command, command', -, hs, hs'⟩
  · rw [hs]
  · rw [hs, hs']

theorem hasCommand_eq : l'.hasCommand = l.hasCommand := by
  rw [hasCommand, hasCommand]
  rcases h.statement_cases with hs | ⟨code, command, command', -, hs, hs'⟩
  · rw [hs]
  · rw [hs, hs']
    rfl

/-- Neither line has a command, or both do, and it is the same up to its case. -/
theorem command_cases : (¬l.hasCommand = true ∧ ¬l'.hasCommand = true) ∨ ∃ (code : CodeLine) (command command' : String),
    Text.eqIgnoreAsciiCase command' command = true ∧ l.statement = .code { code with command := some command } ∧
      l'.statement = .code { code with command := some command' } := by
  rcases h.statement_cases with hs | hcommand
  · by_cases hl : l.hasCommand = true
    · obtain ⟨⟨label, _, parameter⟩, command, hcode, rfl⟩ := hasCommand_iff.mp hl
      exact .inr ⟨{ label, parameter }, command, command, beq_self_eq_true _, hcode, hs.trans hcode⟩
    · exact .inl ⟨hl, by rwa [h.hasCommand_eq]⟩
  · exact .inr hcommand

theorem error {α β : Type} {R : α → β → Prop} (cause : AssemblyError.Cause) :
    EndAlike R (.error (l.error cause)) (.error (l'.error cause)) := by
  rw [SourceLine.error, SourceLine.error, h.number]
  exact .error cause l.number l.text l'.text

end SourceLine.Respelled

end Lines

/-! ### Reading -/

section Reading
variable {memorySize : Nat} {before before' : List SourceLine} {texts texts' : List String} {text text' : String}
  {s s' : Statement}

theorem SourceLine.map_number_find? {p p' : SourceLine → Bool} (h : List.Forall₂ Respelled before before')
    (hp : ∀ l l', Respelled l l' → p' l' = p l) :
    (before'.find? p').map (·.number) = (before.find? p).map (·.number) := by
  induction h with
  | nil => rfl
  | cons hl _ ih =>
    rw [List.find?_cons, List.find?_cons, hp _ _ hl]
    split
    · rw [Option.map_some, Option.map_some, hl.number]
    · exact ih

theorem SourceLine.checkDeclaration_of_respelled (h : List.Forall₂ Respelled before before') (hs : s.Recased s') :
    checkDeclaration memorySize before' s' = checkDeclaration memorySize before s := by
  have hlabel (name : String) : labelLine? before' name = labelLine? before name :=
    map_number_find? h fun l l' hl => by rw [hl.label?_eq]
  have halias (name : String) : aliasLine? before' name = aliasLine? before name :=
    map_number_find? h fun l l' hl => by rw [hl.alias?_eq]
  cases hs with
  | same =>
    unfold checkDeclaration
    simp only [hlabel, halias]
  | command => simp only [checkDeclaration, hlabel]

theorem SourceLine.readNext_of_respelled (h : List.Forall₂ Respelled before before') (ht : Line.Respelled text text') :
    EndAlike Respelled (readNext memorySize before text) (readNext memorySize before' text') := by
  unfold readNext
  rw [h.length_eq]
  cases ht with
  | refused hread hread' =>
    rw [Line.content_eq_error_iff.mp hread, Line.content_eq_error_iff.mp hread']
    exact .error _ _ text text'
  | accepted hread hread' hs =>
    obtain ⟨comment, hread⟩ := Line.content_eq_ok_iff.mp hread
    obtain ⟨comment', hread'⟩ := Line.content_eq_ok_iff.mp hread'
    simp only [hread, hread', checkDeclaration_of_respelled h hs]
    split
    · exact .error _ _ text text'
    · exact .ok ⟨rfl, hs⟩

theorem SourceLine.readAll_of_respelled (h : List.Forall₂ Respelled before before')
    (ht : List.Forall₂ Line.Respelled texts texts') :
    EndAlike (List.Forall₂ Respelled) (readAll memorySize before texts) (readAll memorySize before' texts') := by
  induction ht generalizing before before' with
  | nil => exact .ok h
  | @cons text text' texts texts' hline _ ih =>
    rw [readAll, readAll]
    have hnext : EndAlike Respelled (readNext memorySize before text) (readNext memorySize before' text') :=
      readNext_of_respelled h hline
    generalize readNext memorySize before text = next, readNext memorySize before' text' = next' at hnext
    cases hnext with
    | error cause number quoted quoted' => exact .error cause number quoted quoted'
    | ok hl => exact ih (List.rel_append h (.cons hl .nil))

end Reading

/-! ### Symbols -/

section Symbols
variable {memorySize : Nat} {lines lines' : List SourceLine} (h : List.Forall₂ SourceLine.Respelled lines lines')
include h

theorem SourceLine.aliases_of_respelled : aliases lines' = aliases lines := by
  have hmap := map_eq_of_forall₂ h fun _ _ hl => hl.alias?_eq
  simpa [aliases, List.filterMap_map] using congrArg (List.filterMap id) hmap

theorem SymbolTable.labelsFrom_of_respelled (next : Nat) : labelsFrom next lines' = labelsFrom next lines := by
  induction h generalizing next with
  | nil => rfl
  | cons hl _ ih => rw [labelsFrom, labelsFrom, hl.label?_eq, hl.hasCommand_eq, hl.number, ih]

theorem SymbolTable.allocate_of_respelled (free : List Nat) :
    EndAlike Eq (allocate free lines) (allocate free lines') := by
  induction h generalizing free with
  | nil => exact .ok rfl
  | @cons l l' lines lines' hl _ ih =>
    rw [allocate, allocate, hl.alias?_eq]
    cases l.alias? with
    | none => exact ih _
    | some d =>
      dsimp only
      rw [hl.number]
      split
      · exact (ih _).map
      · exact (ih _).map
      · exact hl.error _

theorem SymbolTable.ofLines_of_respelled : EndAlike Eq (ofLines memorySize lines) (ofLines memorySize lines') := by
  have haliases := SourceLine.aliases_of_respelled h
  rw [ofLines, ofLines, takenAddresses_congr haliases, initialCount_congr haliases, countP_alias?_congr haliases,
    labelsFrom_of_respelled h]
  exact (allocate_of_respelled h _).map

end Symbols

/-! ### Commands -/

section Commands
variable {target : Target} {symbols : SymbolTable} {lines lines' : List SourceLine} {texts texts' : List String}

theorem InstructionSet.find_of_upper_eq (s : InstructionSet) {name name' : String} (h : Text.upper name' = Text.upper name)
    (hasParameter : Bool) : s.find name' hasParameter = s.find name hasParameter := by
  rw [find, find, get?, get?, h]

/-- A command has the same effect in any case, and the same mnemonic is shown for it. -/
theorem Target.effect_of_eqIgnoreAsciiCase {command command' : String}
    (h : Text.eqIgnoreAsciiCase command' command = true) (parameter : Option String) :
    target.effect symbols command' parameter = target.effect symbols command parameter := by
  have hhalt : Text.eqIgnoreAsciiCase command' haltMnemonic = Text.eqIgnoreAsciiCase command haltMnemonic := by
    rw [Text.eqIgnoreAsciiCase, Text.eqIgnoreAsciiCase, beq_iff_eq.mp h]
  unfold effect
  rw [hhalt, InstructionSet.find_of_upper_eq _ (Text.upper_eq_of_eqIgnoreAsciiCase h)]

theorem Target.instructionsFrom_of_respelled (h : List.Forall₂ SourceLine.Respelled lines lines') (next : Nat) :
    EndAlike Eq (target.instructionsFrom symbols next lines) (target.instructionsFrom symbols next lines') := by
  induction h generalizing next with
  | nil => exact .ok rfl
  | @cons l l' lines lines' hl _ ih =>
    rcases hl.command_cases with ⟨hnone, hnone'⟩ | ⟨code, command, command', hcase, hs, hs'⟩
    · rw [instructionsFrom_of_not_hasCommand hnone, instructionsFrom_of_not_hasCommand hnone']
      exact ih next
    · rw [instructionsFrom_of_some (code?_eq_some_iff.mpr hs), instructionsFrom_of_some (code?_eq_some_iff.mpr hs')]
      dsimp only
      rw [effect_of_eqIgnoreAsciiCase hcase, hl.number]
      cases target.effect symbols command code.parameter with
      | error cause => exact hl.error cause
      | ok result => exact (ih _).map

/-- If the lines of two texts say the same, the texts are assembled alike. -/
theorem Target.assemble_of_respelled (h : List.Forall₂ Line.Respelled texts texts') :
    EndAlike Eq (target.assemble texts) (target.assemble texts') := by
  refine (SourceLine.readAll_of_respelled .nil h).bind fun lines lines' hlines => ?_
  refine (SymbolTable.ofLines_of_respelled hlines).bind ?_
  rintro symbols _ rfl
  refine (instructionsFrom_of_respelled hlines _).bind ?_
  rintro instructions _ rfl
  exact .ok rfl

end Commands

end Mac1
