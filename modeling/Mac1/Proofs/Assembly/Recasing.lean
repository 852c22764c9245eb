import Mathlib.Data.List.Nodup
import Mac1.Proofs.Assembly.Respelling
import Mac1.Proofs.Line.Trailing

/-! Case. A command, and the keyword of an alias declaration, may be written in capital or small letters: the items of a
    line stay the same but for this word, and the line still says the same. So in whatever case the commands and
    keywords of a program are written, it is assembled alike. -/

namespace Mac1

open String (utf8Len)

/-- How many items, comments left out, stand before the word whose case does not matter: the command of a line of code,
    behind a label and its colon, or the keyword of a declaration, behind the `#`. -/
def Statement.caseFree? : Statement → Option Nat
  | .empty => none
  | .alias _ => some 1
  | .code l => l.command.map fun _ => if l.label.isSome then 2 else 0

/-- The second text is the first one, or differs from it in the case of ASCII letters in its command or keyword. -/
inductive Line.Recased : String → String → Prop where
  | same (text : String) : Recased text text
  | word {before word word' after : String} {front back : List Lexeme} {s : Statement}
    (hscan : Lexeme.scan (before ++ word ++ after) = front ++ ⟨.word word, before.utf8ByteSize⟩ :: back)
    (hread : content (before ++ word ++ after) = .ok s)
    (hplace : s.caseFree? = some (code (front.map (·.token))).length)
    (hcase : Text.eqIgnoreAsciiCase word' word = true) : Recased (before ++ word ++ after) (before ++ word' ++ after)

/-! ### Items in another case -/

namespace Token
variable {before after after' : List Char} {t : Token} {c d : Char} {word word' : String}

theorem mem_separators_of_toLower_eq (h : d.toLower = c.toLower) (hd : d ∈ separators) : c ∈ separators := by
  have hlower : (separators.all fun d => d.toLower = d) = true := by decide
  have hd' : d.toLower = d := of_decide_eq_true (List.all_eq_true.mp hlower d hd)
  rw [hd'] at h
  by_cases hascii : c.toNat < 128
  · exact Text.forall_ascii (P := fun c => c.toLower ∈ separators → c ∈ separators) (by decide) hascii (h ▸ hd)
  · rw [Text.toLower_of_not_ascii hascii] at h
    exact h ▸ hd

/-- Whether a word fits does not depend on its case. -/
theorem Fits.recased (h : (Token.word word).Fits before after) (hcase : Text.eqIgnoreAsciiCase word' word = true) :
    (Token.word word').Fits before after := by
  obtain ⟨⟨hne, hword⟩, hends⟩ := h
  have hlower : word'.toList.map Char.toLower = word.toList.map Char.toLower := beq_iff_eq.mp hcase
  refine ⟨⟨fun hnil => ?_, fun d hd hseparator => ?_⟩, hends⟩
  · rw [hnil, List.map_nil, eq_comm, List.map_eq_nil_iff] at hlower
    exact hne hlower
  · have hmem : d.toLower ∈ word.toList.map Char.toLower := hlower ▸ List.mem_map_of_mem hd
    obtain ⟨c, hc, hcd⟩ := List.mem_map.mp hmem
    exact hword c hc (mem_separators_of_toLower_eq hcd.symm hseparator)

/-- The characters start with one that words are made of. -/
def StartsWord (cs : List Char) : Prop := ∃ c, cs.head? = some c ∧ c ∉ separators

theorem Fits.startsWord (h : (Token.word word).Fits before after) : StartsWord (word.toList ++ after) := by
  obtain ⟨⟨hne, hword⟩, -⟩ := h
  obtain ⟨c, cs, hchars⟩ := List.exists_cons_of_ne_nil hne
  exact ⟨c, by rw [hchars]; rfl, hword c (by simp [hchars])⟩

/-- What fits before one word fits before another one. -/
theorem Fits.before_word (h : t.Fits before after) (hafter : StartsWord after) (hafter' : StartsWord after') :
    t.Fits before after' := by
  obtain ⟨c, hc, hword⟩ := hafter
  cases t with
  | hash | colon | addressMark | valueMark => trivial
  | stray =>
    intro hslash
    obtain ⟨d, hd, hword'⟩ := hafter'
    obtain rfl : d = '/' := Option.some.inj (hd.symm.trans hslash)
    exact hword' (by decide)
  | comment text =>
    obtain rfl : c = '\n' := h.2.2 c hc
    exact absurd (by decide) hword
  | word text => exact absurd (h.2.2 c hc) hword

end Token

namespace Lexeme
variable {offset : Nat} {cs cs' : List Char} {l : Lexeme}

theorem le_start_of_mem_scanFrom (h : l ∈ scanFrom offset cs) : offset ≤ l.start := by
  fun_induction scanFrom offset cs with
  | case1 => cases h
  | case2 offset c cs hblank ih => exact Nat.le_trans (Nat.le_add_right _ _) (ih h)
  | case3 offset c cs hblank item ih =>
    rcases List.mem_cons.mp h with rfl | h
    · exact Nat.le_refl _
    · exact Nat.le_trans (Nat.le_add_right _ _) (ih h)

theorem nodup_scan (line : String) : (scan line).Nodup := by
  refine (tiles_scan line).apart.imp_of_mem fun hl _ hle heq => ?_
  exact Nat.lt_irrefl _ (Nat.lt_of_lt_of_le (start_lt_stop hl) (heq ▸ hle))

/-- An item that starts further on stands behind all of the first item. -/
theorem exists_between {before rest : List Char} {t : Token} (hfits : t.Fits [] rest)
    (hchars : before ++ cs = t.text.toList ++ rest) (hne : before ≠ []) (hl : l ∈ scanFrom offset (before ++ cs))
    (hstart : l.start = offset + utf8Len before) :
    ∃ between, before = t.text.toList ++ between ∧ rest = between ++ cs ∧
      l ∈ scanFrom (offset + utf8Len t.text.toList) (between ++ cs) ∧
      l.start = offset + utf8Len t.text.toList + utf8Len between := by
  rw [hchars, scanFrom_text_append hfits] at hl
  have hmem : l ∈ scanFrom (offset + utf8Len t.text.toList) rest := by
    refine (List.mem_cons.mp hl).resolve_left ?_
    rintro rfl
    exact hne (String.utf8Len_eq_zero.mp (Nat.left_eq_add.mp hstart))
  have hstop := le_start_of_mem_scanFrom hmem
  rw [hstart] at hstop
  obtain ⟨between, rfl, rfl⟩ := exists_append_of_utf8Len_le hchars.symm (Nat.le_of_add_le_add_left hstop)
  exact ⟨between, rfl, rfl, hmem, by rw [hstart, String.utf8Len_append, Nat.add_assoc]⟩

/-- The items before a word do not depend on the word. -/
theorem exists_scanFrom_append {before : List Char} (hcs : Token.StartsWord cs) (hcs' : Token.StartsWord cs')
    (hl : l ∈ scanFrom offset (before ++ cs)) (hstart : l.start = offset + utf8Len before) :
    ∃ front, scanFrom offset (before ++ cs) = front ++ scanFrom (offset + utf8Len before) cs ∧
      scanFrom offset (before ++ cs') = front ++ scanFrom (offset + utf8Len before) cs' := by
  induction hn : before.length using Nat.strongRecOn generalizing before offset with
  | ind n ih =>
    cases before with
    | nil => exact ⟨[], rfl, rfl⟩
    | cons c rest =>
      by_cases hblank : Text.isBlank c = true
      · rw [List.cons_append, scanFrom_of_blank hblank] at hl
        rw [List.cons_append, List.cons_append, scanFrom_of_blank hblank, scanFrom_of_blank hblank, String.utf8Len_cons,
          Nat.add_comm (utf8Len rest), ← Nat.add_assoc]
        rw [String.utf8Len_cons, Nat.add_comm (utf8Len rest), ← Nat.add_assoc] at hstart
        exact ih rest.length (by simp [← hn]) hl hstart rfl
      · obtain ⟨hchars, hfits⟩ := Token.fits_read [] (rest ++ cs) hblank (by simp)
        generalize (Token.read c (rest ++ cs)).1 = t, (Token.read c (rest ++ cs)).2 = left at hchars hfits
        obtain ⟨between, hbefore, rfl, hmem, hstart'⟩ := exists_between hfits hchars (List.cons_ne_nil _ _) hl hstart
        have hfits' : t.Fits [] (between ++ cs') := by
          cases between with
          | nil => exact hfits.before_word hcs hcs'
          | cons d between => exact hfits.of_head?_eq rfl
        have hshorter : between.length < n := by
          have := List.length_pos_of_ne_nil hfits.text_ne_nil
          rw [← hn, hbefore, List.length_append]
          omega
        obtain ⟨front, hfront, hfront'⟩ := ih between.length hshorter hmem hstart' rfl
        rw [hbefore, String.utf8Len_append, ← Nat.add_assoc, List.append_assoc, List.append_assoc,
          scanFrom_text_append hfits, scanFrom_text_append hfits', hfront, hfront']
        exact ⟨⟨t, offset⟩ :: front, rfl, rfl⟩

section Word
variable {before word word' after : String} {front back : List Lexeme}
  (h : scan (before ++ word ++ after) = front ++ ⟨.word word, before.utf8ByteSize⟩ :: back)
include h

theorem fits_of_scan_eq : (Token.word word).Fits before.toList after.toList := by
  obtain ⟨start, rest, hchars, hstart, hfits⟩ :=
    (tiles_scan (before ++ word ++ after)).placed ⟨.word word, before.utf8ByteSize⟩ (by rw [h]; simp)
  have hlength : utf8Len start = utf8Len before.toList := by simpa [String.utf8Len_toList] using hstart.symm
  rw [String.toList_append, String.toList_append, List.append_assoc, List.append_assoc] at hchars
  obtain ⟨between, hbetween, hrest⟩ := exists_append_of_utf8Len_le hchars hlength.ge
  obtain rfl : between = [] := by
    rw [hbetween, String.utf8Len_append] at hlength
    exact String.utf8Len_eq_zero.mp (by omega)
  obtain rfl : start = before.toList := by simpa using hbetween
  obtain rfl : after.toList = rest := List.append_cancel_left hrest
  exact hfits

/-- The items of a line with one word in another case. -/
theorem map_token_scan_recased (hcase : Text.eqIgnoreAsciiCase word' word = true) :
    (scan (before ++ word' ++ after)).map (·.token) =
      front.map (·.token) ++ .word word' :: back.map (·.token) := by
  have hfits := fits_of_scan_eq h
  have hfits' := hfits.recased hcase
  have hchars (w : String) : scan (before ++ w ++ after) = scanFrom 0 (before.toList ++ (w.toList ++ after.toList)) := by
    simp [scan]
  have hitem {w : String} (hw : (Token.word w).Fits before.toList after.toList) :
      scanFrom (0 + utf8Len before.toList) (w.toList ++ after.toList) =
        ⟨.word w, before.utf8ByteSize⟩ :: scanFrom (before.utf8ByteSize + utf8Len w.toList) after.toList := by
    rw [Nat.zero_add, String.utf8Len_toList]
    exact scanFrom_text_append hw
  have hmem : ⟨.word word, before.utf8ByteSize⟩ ∈ scanFrom 0 (before.toList ++ (word.toList ++ after.toList)) := by
    rw [← hchars, h]
    simp
  obtain ⟨front', hscan, hscan'⟩ := exists_scanFrom_append hfits.startsWord hfits'.startsWord hmem
    (by simp [String.utf8Len_toList])
  rw [← hchars, hitem hfits] at hscan
  rw [← hchars, hitem hfits'] at hscan'
  -- the item at the word stands only once among the items
  have hnodup := List.nodup_cons.mp (List.nodup_middle.mp (h ▸ nodup_scan (before ++ word ++ after)))
  obtain ⟨hfront, hback⟩ := not_or.mp (mt List.mem_append.mpr hnodup.1)
  obtain ⟨rfl, -, rfl⟩ := (List.append_cons_inj_of_notMem hfront hback).mp (h.symm.trans hscan)
  rw [hscan', List.map_append, List.map_cons]
  exact congrArg (fun rest => front.map (·.token) ++ .word word' :: rest) (map_token_scanFrom _ _ _)

end Word

end Lexeme

/-! ### What the line says -/

section Statements
variable {word word' : String} {front back items : List Token} {s : Statement}

theorem Line.code_append_word : code (front ++ .word word :: back) = code front ++ .word word :: code back := by
  rw [code, List.filter_append]
  rfl

/-- The word is the command of the line. -/
theorem IsCode.recased {l : CodeLine} (h : IsCode (front ++ .word word :: back) l)
    (hplace : (Statement.code l).caseFree? = some front.length) (word' : String) :
    l.command = some word ∧ IsCode (front ++ .word word' :: back) { l with command := some word' } := by
  obtain ⟨label, command, parameter⟩ := l
  obtain ⟨hitems, hparameter⟩ := h
  obtain ⟨command, rfl, hlength⟩ := Option.map_eq_some_iff.mp hplace
  cases label with
  | none =>
    obtain rfl : front = [] := List.length_eq_zero_iff.mp hlength.symm
    have hwords : .word word :: back = .word command :: parameter.toList.map .word := hitems
    cases hwords
    exact ⟨rfl, rfl, hparameter⟩
  | some label =>
    obtain ⟨t, t', rfl⟩ := List.length_eq_two.mp hlength.symm
    have hwords : t :: t' :: .word word :: back = .word label :: .colon :: .word command :: parameter.toList.map .word :=
      hitems
    cases hwords
    exact ⟨rfl, rfl, hparameter⟩

/-- The word is the keyword of the declaration, which says the same in any case. -/
theorem DeclaresAlias.recased {d : AliasDeclaration} (h : DeclaresAlias (front ++ .word word :: back) d)
    (hplace : front.length = 1) (hcase : Text.eqIgnoreAsciiCase word' word = true) :
    DeclaresAlias (front ++ .word word' :: back) d := by
  obtain ⟨rest, hopens, hname, hclauses⟩ := h
  refine ⟨rest, ?_, hname, hclauses⟩
  obtain ⟨t, rfl⟩ := List.length_eq_one_iff.mp hplace
  cases hopens with
  | mk hkeyword => exact .mk (Text.eqIgnoreAsciiCase_trans hcase hkeyword)

theorem Verdict.recased (h : Verdict (front ++ .word word :: back) (.ok s)) (hplace : s.caseFree? = some front.length)
    (hcase : Text.eqIgnoreAsciiCase word' word = true) :
    ∃ s', Verdict (front ++ .word word' :: back) (.ok s') ∧ s.Recased s' := by
  cases h with
  | empty h => cases hplace
  | declares h => exact ⟨_, .declares (h.recased (Option.some.inj hplace).symm hcase), .same _⟩
  | @code l hne h =>
    obtain ⟨hcommand, hcode⟩ := h.recased hplace word'
    refine ⟨_, .code (by simp) hcode, ?_⟩
    obtain ⟨label, command, parameter⟩ := l
    cases hcommand
    exact .command hcase

theorem Line.Recased.respelled {text text' : String} (h : Recased text text') : Respelled text text' := by
  cases h with
  | same => exact .of_content_eq rfl
  | @word before word word' after front back s hscan hread hplace hcase =>
    have hverdict := (read_statement_iff _ _).mp hread
    rw [hscan, List.map_append, List.map_cons, code_append_word] at hverdict
    obtain ⟨s', hverdict', hrecased⟩ := hverdict.recased hplace hcase
    refine .accepted hread ((read_statement_iff _ _).mpr ?_) hrecased
    rwa [Lexeme.map_token_scan_recased hscan hcase, code_append_word]

/-! ### Where the word stands -/

theorem Lexeme.exists_of_getElem?_code {items : List Lexeme} {n : Nat} {t : Token}
    (h : (Line.code (items.map (·.token)))[n]? = some t) :
    ∃ front l back, items = front ++ l :: back ∧ l.token = t ∧ (Line.code (front.map (·.token))).length = n := by
  induction items generalizing n with
  | nil => cases h
  | cons l items ih =>
    rw [List.map_cons] at h
    by_cases hcomment : ∃ text, l.token = .comment text
    · obtain ⟨text, hl⟩ := hcomment
      rw [hl, Line.code_cons_comment] at h
      obtain ⟨front, l', back, rfl, ht, hn⟩ := ih h
      exact ⟨l :: front, l', back, rfl, ht, by rwa [List.map_cons, hl, Line.code_cons_comment]⟩
    · have hplain : ∀ text, l.token ≠ .comment text := not_exists.mp hcomment
      rw [Line.code_cons_of_ne_comment hplain] at h
      cases n with
      | zero => exact ⟨[], l, items, rfl, Option.some.inj h, rfl⟩
      | succ n =>
        obtain ⟨front, l', back, rfl, ht, hn⟩ := ih h
        refine ⟨l :: front, l', back, rfl, ht, ?_⟩
        rw [List.map_cons, Line.code_cons_of_ne_comment hplain, List.length_cons, hn]

/-- A word at this place of a line may be written in any case. -/
theorem Line.exists_recased {text : String} {n : Nat} (hread : content text = .ok s) (hplace : s.caseFree? = some n)
    (hword : (code ((Lexeme.scan text).map (·.token)))[n]? = some (.word word)) :
    ∃ before after, text = before ++ word ++ after ∧
      ∀ word', Text.eqIgnoreAsciiCase word' word = true → Recased text (before ++ word' ++ after) := by
  obtain ⟨front, l, back, hscan, hl, rfl⟩ := Lexeme.exists_of_getElem?_code hword
  have hmem : l ∈ Lexeme.scan text := by rw [hscan]; simp
  obtain ⟨before, after, htext, hstart⟩ := Lexeme.exists_of_mem_scan hmem
  rw [hl] at htext
  obtain rfl : text = before ++ word ++ after := htext
  have hitem : l = ⟨.word word, before.utf8ByteSize⟩ := congr (congrArg Lexeme.mk hl) hstart
  exact ⟨before, after, rfl, fun word' hcase => .word (hitem ▸ hscan) hread hplace hcase⟩

theorem IsCode.command_getElem? {l : CodeLine} {command : String} (h : IsCode items l) (hcommand : l.command = some command) :
    ∃ n, (Statement.code l).caseFree? = some n ∧ items[n]? = some (.word command) := by
  obtain ⟨label, _, parameter⟩ := l
  cases hcommand
  rw [h.1]
  cases label with
  | none => exact ⟨0, rfl, rfl⟩
  | some label => exact ⟨2, rfl, rfl⟩

theorem DeclaresAlias.keyword_getElem? {d : AliasDeclaration} (h : DeclaresAlias items d) :
    ∃ keyword, Text.eqIgnoreAsciiCase keyword "alias" = true ∧ items[1]? = some (.word keyword) := by
  obtain ⟨rest, hopens, -⟩ := h
  cases hopens with
  | mk hkeyword => exact ⟨_, hkeyword, rfl⟩

end Statements

/-- The command of each line that has one, and the keyword of each declaration, may be written in any case. However that
    is changed in the lines of a program, they are assembled to the same program, or fail for one cause on a line of the
    same number. -/
theorem Target.case_irrelevant :
    (∀ text code command, Line.content text = .ok (.code code) → code.command = some command →
      ∃ before after, text = before ++ command ++ after ∧ ∀ command',
        Text.eqIgnoreAsciiCase command' command = true → Line.Recased text (before ++ command' ++ after)) ∧
    (∀ text d, Line.content text = .ok (.alias d) → ∃ before keyword after, text = before ++ keyword ++ after ∧
      Text.eqIgnoreAsciiCase keyword "alias" = true ∧ ∀ keyword',
        Text.eqIgnoreAsciiCase keyword' keyword = true → Line.Recased text (before ++ keyword' ++ after)) ∧
    ∀ (target : Target) (texts texts' : List String), List.Forall₂ Line.Recased texts texts' →
      EndAlike Eq (target.assemble texts) (target.assemble texts') := by
  refine ⟨fun text code command hread hcommand => ?_, fun text d hread => ?_, fun target texts texts' h => ?_⟩
  · cases (Line.read_statement_iff _ _).mp hread with
    | code _ h =>
      obtain ⟨n, hplace, hword⟩ := h.command_getElem? hcommand
      exact Line.exists_recased hread hplace hword
  · cases (Line.read_statement_iff _ _).mp hread with
    | declares h =>
      obtain ⟨keyword, hkeyword, hword⟩ := h.keyword_getElem?
      obtain ⟨before, after, htext, hrecased⟩ := Line.exists_recased hread rfl hword
      exact ⟨before, keyword, after, htext, hkeyword, hrecased⟩
  · exact assemble_of_respelled (h.imp fun _ _ => Line.Recased.respelled)

/-- A program with a keyword, an operation and the command that halts, each in some case. -/
def inCase (keyword command halt : String) : List String :=
  ["#" ++ keyword ++ " n =3", "x: " ++ command ++ " n", "" ++ halt ++ " ; end"]

theorem Target.case_irrelevant_inCase : ∃ p, Target.assemble {} (inCase "alias" "lodd" "End") = .ok p ∧ p.size = 3 ∧
    Target.assemble {} (inCase "ALIAS" "LoDd" "eND") = .ok p := by
  have hok : (Target.assemble {} (inCase "alias" "lodd" "End")).toOption.map (·.size) = some 3 := by decide +kernel
  obtain ⟨p, hp, hsize⟩ := exists_eq_ok_of_map_toOption hok
  have hkeyword : Lexeme.scan ("#" ++ "alias" ++ " n =3") = [⟨.hash, 0⟩] ++
      ⟨.word "alias", "#".utf8ByteSize⟩ :: [⟨.word "n", 7⟩, ⟨.valueMark, 9⟩, ⟨.word "3", 10⟩] := by
    decide +kernel
  have hcommand : Lexeme.scan ("x: " ++ "lodd" ++ " n") = [⟨.word "x", 0⟩, ⟨.colon, 1⟩] ++
      ⟨.word "lodd", "x: ".utf8ByteSize⟩ :: [⟨.word "n", 8⟩] := by
    decide +kernel
  have hhalt : Lexeme.scan ("" ++ "End" ++ " ; end") = [] ++
      ⟨.word "End", "".utf8ByteSize⟩ :: [⟨.comment "; end", 4⟩] := by
    decide +kernel
  have hrecased : List.Forall₂ Line.Recased (inCase "alias" "lodd" "End") (inCase "ALIAS" "LoDd" "eND") := by
    refine .cons (.word (s := .alias { name := "n", value := some 3 }) hkeyword ?_ rfl (by decide))
      (.cons (.word (s := .code { label := some "x", command := some "lodd", parameter := some "n" }) hcommand ?_ rfl (by decide))
        (.cons (.word (s := .code { command := some "End" }) hhalt ?_ rfl (by decide)) .nil)) <;> decide +kernel
  have hend := case_irrelevant.2.2 {} _ _ hrecased
  rw [hp] at hend
  refine ⟨p, hp, hsize, ?_⟩
  generalize Target.assemble {} (inCase "ALIAS" "LoDd" "eND") = result at hend
  cases hend with
  | ok h => rw [h]

end Mac1
