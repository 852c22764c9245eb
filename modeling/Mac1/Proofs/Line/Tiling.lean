import Mathlib.Data.String.Basic
import Mac1.Proofs.Line.Words

/-! Where the items of a line stand. The items tile the line: each holds its own bytes, they come one after the
    other, and only blanks lie between them. What kind an item is of can be told from its text, and a word or a
    comment takes all the characters that it can. These conditions leave no choice, so they say exactly
    which items a line has. -/

namespace Mac1

open String (utf8Len)

namespace Token

/-- How an item is written, and between which characters it may stand. A word is as long as it can be, and so is
    a comment within its line; a slash that is an item of its own does not start a comment. -/
def Fits (before after : List Char) : Token → Prop
  | .word text => (text.toList ≠ [] ∧ ∀ c ∈ text.toList, c ∉ separators) ∧
      (∀ c, before.getLast? = some c → c ∈ separators) ∧ ∀ c, after.head? = some c → c ∈ separators
  | .comment text => ([';'] <+: text.toList ∨ ['/', '/'] <+: text.toList) ∧ '\n' ∉ text.toList ∧
      ∀ c, after.head? = some c → c = '\n'
  | .stray => after.head? ≠ some '/'
  | .hash | .colon | .addressMark | .valueMark => True

end Token

/-- The items tile the characters `cs`, which stand behind the characters `before` in their line. -/
structure Lexeme.Tiles (before cs : List Char) (items : List Lexeme) : Prop where
  placed : ∀ l ∈ items, ∃ front back, cs = front ++ l.token.text.toList ++ back ∧
    l.start = utf8Len (before ++ front) ∧ l.token.Fits (before ++ front) back
  apart : items.Pairwise fun l l' => l.stop ≤ l'.start
  gaps : ∀ front c back, cs = front ++ c :: back → c ∈ [' ', '\t', '\r', '\n', '\x0c'] ∨
    ∃ l ∈ items, l.start ≤ utf8Len (before ++ front) ∧ utf8Len (before ++ front) < l.stop

/-! ### One item -/

namespace Token

theorem takeWhile_append_of_head {α : Type} {p : α → Bool} {l rest : List α} (h : ∀ a ∈ l, p a = true)
    (hrest : ∀ a, rest.head? = some a → p a = false) :
    (l ++ rest).takeWhile p = l ∧ (l ++ rest).dropWhile p = rest := by
  rw [List.takeWhile_append_of_pos h, List.dropWhile_append_of_pos h]
  cases rest with
  | nil => simp
  | cons a rest => simp [hrest a rfl]

theorem head?_dropWhile {α : Type} {p : α → Bool} {l : List α} {a : α} (h : (l.dropWhile p).head? = some a) :
    p a = false := by
  have hfirst := List.head?_dropWhile_not p l
  rwa [h] at hfirst

theorem text_of_mark? {c : Char} {t : Token} (h : mark? c = some t) (before after : List Char) :
    t.text.toList = [c] ∧ t.Fits before after := by
  unfold mark? at h
  repeat' split at h
  all_goals cases h
  all_goals simp_all [text, Fits]

theorem startsComment_iff {c : Char} {cs : List Char} :
    startsComment c cs = true ↔ c = ';' ∨ c = '/' ∧ cs.head? = some '/' := by
  simp [startsComment]

theorem startsComment_takeWhile {c : Char} {cs : List Char} (h : startsComment c cs = true) :
    ([';'] <+: c :: cs.takeWhile (· != '\n') ∨ ['/', '/'] <+: c :: cs.takeWhile (· != '\n')) ∧
      '\n' ∉ c :: cs.takeWhile (· != '\n') := by
  have hrest : '\n' ∉ cs.takeWhile (· != '\n') := fun hmem => by
    simpa using List.all_eq_true.mp List.all_takeWhile '\n' hmem
  rcases startsComment_iff.mp h with rfl | ⟨rfl, hhead⟩
  · exact ⟨.inl (by simp), by simpa using hrest⟩
  · cases cs with
    | nil => cases hhead
    | cons d cs =>
      obtain rfl : d = '/' := by simpa using hhead
      exact ⟨.inr (by simp), by simpa using hrest⟩

/-- What is read at a character is written there, and fits. -/
theorem fits_read (before cs : List Char) {c : Char} (hblank : ¬Text.isBlank c = true)
    (hcut : ∀ d, before.getLast? = some d → isWordChar c = true → d ∈ separators) :
    c :: cs = (read c cs).1.text.toList ++ (read c cs).2 ∧ (read c cs).1.Fits before (read c cs).2 := by
  rw [read]
  split
  · next mark hmark =>
    obtain ⟨htext, hfits⟩ := text_of_mark? hmark before cs
    exact ⟨by rw [htext]; rfl, hfits⟩
  · next hmark =>
    split
    · next hcomment =>
      obtain ⟨hstart, hfeed⟩ := startsComment_takeWhile hcomment
      exact ⟨by simp [text], by simpa using hstart, by simpa using hfeed, fun d hd => by simpa using head?_dropWhile hd⟩
    · next hcomment =>
      split
      · next hslash =>
        obtain rfl : c = '/' := by simpa using hslash
        refine ⟨by simp [text], fun hhead => hcomment ?_⟩
        exact startsComment_iff.mpr (.inr ⟨rfl, hhead⟩)
      · next hslash =>
        have hword := isWordChar_of_not_startsComment hblank hmark hcomment hslash
        refine ⟨by simp [text], ⟨by simp, fun d hd => ?_⟩, fun d hd => hcut d hd hword, fun d hd => ?_⟩
        · rw [String.toList_ofList, List.mem_cons] at hd
          rcases hd with rfl | hd
          · exact isWordChar_eq_true_iff.mp hword
          · exact isWordChar_eq_true_iff.mp (List.all_eq_true.mp List.all_takeWhile d hd)
        · exact isWordChar_eq_false_iff.mp (head?_dropWhile hd)

theorem read_of_startsComment {c : Char} {cs : List Char} (h : startsComment c cs = true) :
    read c cs = (.comment (String.ofList (c :: cs.takeWhile (· != '\n'))), cs.dropWhile (· != '\n')) := by
  have hmark : mark? c = none := by
    rcases startsComment_iff.mp h with rfl | ⟨rfl, -⟩ <;> decide
  rw [read, hmark]
  exact if_pos h

theorem read_of_isWordChar {c : Char} {cs : List Char} (h : isWordChar c = true) :
    read c cs = (.word (String.ofList (c :: cs.takeWhile isWordChar)), cs.dropWhile isWordChar) := by
  have hc := isWordChar_eq_true_iff.mp h
  have hmark : mark? c = none := mark?_eq_none_iff.mpr fun hmem => hc (by simp_all [separators])
  have hcomment : ¬startsComment c cs = true := by
    rw [startsComment_iff]
    rintro (rfl | ⟨rfl, -⟩) <;> exact hc (by decide)
  have hslash : ¬(c == '/') = true := fun heq => hc (by simp_all [separators])
  rw [read, hmark]
  simp only [if_neg hcomment, if_neg hslash]

/-- What fits is what is read. -/
theorem read_of_fits {before after cs : List Char} {c : Char} {t : Token} (h : t.Fits before after)
    (hcs : t.text.toList ++ after = c :: cs) : ¬Text.isBlank c = true ∧ read c cs = (t, after) := by
  cases t with
  | hash | colon | addressMark | valueMark =>
    obtain ⟨rfl, rfl⟩ := List.cons.inj hcs
    exact ⟨by decide, rfl⟩
  | stray =>
    have hcs : '/' :: after = c :: cs := hcs
    obtain ⟨rfl, rfl⟩ := List.cons.inj hcs
    have hhead : after.head? ≠ some '/' := h
    have hcomment : ¬startsComment '/' after = true := fun hstart => by
      simp [startsComment_iff, hhead] at hstart
    exact ⟨by decide, by simp [read, mark?, hcomment]⟩
  | comment text =>
    obtain ⟨hstart, hfeed, hend⟩ := h
    obtain ⟨hnil, -⟩ | ⟨chars, hchars, rfl⟩ := List.append_eq_cons_iff.mp hcs
    · rw [show text.toList = [] from hnil] at hstart
      simp at hstart
    replace hchars : text.toList = c :: chars := hchars
    rw [hchars] at hstart hfeed
    have hcomment : startsComment c (chars ++ after) = true := by
      rw [startsComment_iff]
      rcases hstart with ⟨rest, hrest⟩ | ⟨rest, hrest⟩ <;> obtain ⟨rfl, rfl⟩ := List.cons.inj hrest
      · exact .inl rfl
      · exact .inr ⟨rfl, rfl⟩
    have hline : ∀ a ∈ chars, (a != '\n') = true := fun a ha => bne_iff_ne.mpr fun heq =>
      hfeed (heq ▸ List.mem_cons_of_mem c ha)
    obtain ⟨htake, hdrop⟩ := takeWhile_append_of_head hline fun a ha => by simpa using hend a ha
    refine ⟨?_, ?_⟩
    · rcases startsComment_iff.mp hcomment with rfl | ⟨rfl, -⟩ <;> decide
    · rw [read_of_startsComment hcomment, htake, hdrop, ← hchars, String.ofList_toList]
  | word text =>
    obtain ⟨⟨hne, hword⟩, -, hend⟩ := h
    obtain ⟨hnil, -⟩ | ⟨chars, hchars, rfl⟩ := List.append_eq_cons_iff.mp hcs
    · exact absurd hnil hne
    replace hchars : text.toList = c :: chars := hchars
    rw [hchars] at hword
    have hc := isWordChar_eq_true_iff.mpr (hword c List.mem_cons_self)
    obtain ⟨htake, hdrop⟩ := takeWhile_append_of_head (p := isWordChar)
      (fun a ha => isWordChar_eq_true_iff.mpr (hword a (List.mem_cons_of_mem c ha)))
      fun a ha => isWordChar_eq_false_iff.mpr (hend a ha)
    refine ⟨fun hblank => ?_, ?_⟩
    · simp [isWordChar, hblank] at hc
    · rw [read_of_isWordChar hc, htake, hdrop, ← hchars, String.ofList_toList]

theorem Fits.text_ne_nil {before after : List Char} {t : Token} (h : t.Fits before after) : t.text.toList ≠ [] := by
  cases t with
  | hash | colon | addressMark | valueMark | stray => exact List.cons_ne_nil _ _
  | comment text =>
    intro hnil
    rcases h.1 with hstart | hstart <;> rw [show text.toList = [] from hnil] at hstart <;> simp at hstart
  | word text => exact h.1.1

theorem Fits.at_end {before after : List Char} {t : Token} (h : t.Fits before after) : t.Fits before [] := by
  cases t with
  | hash | colon | addressMark | valueMark => trivial
  | stray => exact Option.some_ne_none '/' |>.symm
  | comment text => exact ⟨h.1, h.2.1, fun c hc => absurd hc (by simp)⟩
  | word text => exact ⟨h.1, h.2.1, fun c hc => absurd hc (by simp)⟩

/-- The text of an item tells which item it is. -/
theorem Fits.eq_of_text_eq {before after before' after' : List Char} {t t' : Token} (h : t.Fits before after)
    (h' : t'.Fits before' after') (htext : t.text = t'.text) : t = t' := by
  obtain ⟨c, cs, hchars⟩ := List.exists_cons_of_ne_nil h.text_ne_nil
  have hread := (read_of_fits h.at_end (by rw [List.append_nil, hchars])).2
  have hread' := (read_of_fits h'.at_end (by rw [List.append_nil, ← htext, hchars])).2
  exact (Prod.mk.inj (hread.symm.trans hread')).1

/-- No word goes on from the characters `before` to the characters `cs`. -/
def Cut (before cs : List Char) : Prop :=
  ∀ c d, before.getLast? = some c → cs.head? = some d → c ∈ separators ∨ d ∈ separators

theorem cut_append_singleton {before cs : List Char} {c : Char} (h : c ∈ separators) : Cut (before ++ [c]) cs := by
  intro d e hd _
  obtain rfl : c = d := by simpa using hd
  exact .inl h

theorem Fits.cut {before after : List Char} {t : Token} (h : t.Fits before after) :
    Cut (before ++ t.text.toList) after := by
  cases t with
  | hash | colon | addressMark | valueMark | stray => exact cut_append_singleton (by decide)
  | comment text =>
    intro c d _ hd
    obtain rfl : d = '\n' := h.2.2 d hd
    exact .inr (by decide)
  | word text => exact fun c d _ hd => .inr (h.2.2 d hd)

end Token

/-! ### All items -/

namespace Lexeme

theorem stop_eq (l : Lexeme) : l.stop = l.start + utf8Len l.token.text.toList := by
  rw [stop, String.utf8Len_toList]

theorem scanFrom_of_blank {offset : Nat} {c : Char} {cs : List Char} (h : Text.isBlank c = true) :
    scanFrom offset (c :: cs) = scanFrom (offset + c.utf8Size) cs := by
  rw [scanFrom, if_pos h]

theorem scanFrom_of_fits {offset : Nat} {before after cs : List Char} {c : Char} {t : Token} (h : t.Fits before after)
    (hcs : t.text.toList ++ after = c :: cs) :
    scanFrom offset (c :: cs) = ⟨t, offset⟩ :: scanFrom (Lexeme.stop ⟨t, offset⟩) after := by
  obtain ⟨hblank, hread⟩ := Token.read_of_fits h hcs
  rw [scanFrom, if_neg hblank, hread]

theorem scanFrom_text_append {offset : Nat} {before after : List Char} {t : Token} (h : t.Fits before after) :
    scanFrom offset (t.text.toList ++ after) = ⟨t, offset⟩ :: scanFrom (offset + utf8Len t.text.toList) after := by
  obtain ⟨c, cs, hchars⟩ := List.exists_cons_of_ne_nil (List.append_ne_nil_of_left_ne_nil h.text_ne_nil after)
  rw [hchars, scanFrom_of_fits h hchars, stop_eq]

theorem exists_append_of_utf8Len_le {l l' rest rest' : List Char} (h : l ++ rest = l' ++ rest')
    (hle : utf8Len l ≤ utf8Len l') : ∃ between, l' = l ++ between ∧ rest = between ++ rest' := by
  rcases List.append_eq_append_iff.mp h with ⟨between, hl, hrest⟩ | ⟨between, rfl, rfl⟩
  · exact ⟨between, hl, hrest⟩
  · obtain rfl : between = [] := String.utf8Len_eq_zero.mp (by rw [String.utf8Len_append] at hle; omega)
    exact ⟨[], by simp, by simp⟩

theorem tiles_nil {before : List Char} {items : List Lexeme} : Tiles before [] items ↔ items = [] := by
  constructor
  · intro h
    refine List.eq_nil_iff_forall_not_mem.mpr fun l hl => ?_
    obtain ⟨front, back, hcs, -, hfits⟩ := h.placed l hl
    simp only [List.nil_eq, List.append_eq_nil_iff] at hcs
    exact hfits.text_ne_nil hcs.1.2
  · rintro rfl
    exact ⟨nofun, .nil, fun front c back hcs => absurd hcs (by simp)⟩

/-- A blank belongs to no item. -/
theorem tiles_blank {before cs : List Char} {c : Char} {items : List Lexeme} (hc : Text.isBlank c = true) :
    Tiles before (c :: cs) items ↔ Tiles (before ++ [c]) cs items := by
  constructor
  · rintro ⟨hplaced, hapart, hgaps⟩
    refine ⟨fun l hl => ?_, hapart, fun front d back hcs => ?_⟩
    · obtain ⟨front, back, hcs, hstart, hfits⟩ := hplaced l hl
      cases front with
      | nil => exact absurd hc (Token.read_of_fits hfits hcs.symm).1
      | cons d front =>
        obtain ⟨rfl, rfl⟩ := List.cons.inj hcs
        exact ⟨front, back, rfl, by simpa using hstart, by simpa using hfits⟩
    · simpa using hgaps (c :: front) d back (by rw [hcs]; rfl)
  · rintro ⟨hplaced, hapart, hgaps⟩
    refine ⟨fun l hl => ?_, hapart, fun front d back hcs => ?_⟩
    · obtain ⟨front, back, rfl, hstart, hfits⟩ := hplaced l hl
      exact ⟨c :: front, back, rfl, by simpa using hstart, by simpa using hfits⟩
    · cases front with
      | nil =>
        obtain ⟨rfl, rfl⟩ := List.cons.inj hcs
        exact .inl (Token.isBlank_iff.mp hc)
      | cons e front =>
        obtain ⟨rfl, rfl⟩ := List.cons.inj hcs
        simpa using hgaps front d back rfl

section Item
variable {before after : List Char} {t : Token} {items rest : List Lexeme}

/-- The start of an item is covered by nothing but the item, which is therefore the first. -/
theorem Tiles.exists_rest (h : Tiles before (t.text.toList ++ after) items) (ht : t.Fits before after) :
    ∃ rest, items = ⟨t, utf8Len before⟩ :: rest := by
  obtain ⟨c, chars, hchars⟩ := List.exists_cons_of_ne_nil ht.text_ne_nil
  have hcs : t.text.toList ++ after = c :: (chars ++ after) := by rw [hchars]; rfl
  obtain ⟨hblank, hread⟩ := Token.read_of_fits ht hcs
  obtain ⟨l, hl, hstart, hstop⟩ := (h.gaps [] c (chars ++ after) hcs).resolve_left (mt Token.isBlank_iff.mpr hblank)
  have hfirst : l = ⟨t, utf8Len before⟩ := by
    obtain ⟨front, back, hsplit, hstart', hfits⟩ := h.placed l hl
    obtain rfl : front = [] := String.utf8Len_eq_zero.mp (by simp at hstart hstart'; omega)
    have hread' := (Token.read_of_fits hfits (hsplit.symm.trans hcs)).2
    rw [hread, Prod.mk.injEq] at hread'
    rw [List.append_nil] at hstart'
    exact congr (congrArg Lexeme.mk hread'.1.symm) hstart'
  obtain ⟨first, others, rfl⟩ := List.exists_cons_of_ne_nil (List.ne_nil_of_mem hl)
  rcases List.mem_cons.mp hl with rfl | hmem
  · exact ⟨others, by rw [hfirst]⟩
  · -- an item before it would have to end before it starts
    obtain ⟨front, back, -, hfront, hfits⟩ := h.placed first List.mem_cons_self
    have hbefore := List.rel_of_pairwise_cons h.apart hmem
    have hlength : 0 < utf8Len first.token.text.toList :=
      Nat.pos_of_ne_zero fun hzero => hfits.text_ne_nil (String.utf8Len_eq_zero.mp hzero)
    rw [stop_eq, hfront, String.utf8Len_append] at hbefore
    simp at hstart
    omega

theorem Tiles.tail (h : Tiles before (t.text.toList ++ after) (⟨t, utf8Len before⟩ :: rest)) :
    Tiles (before ++ t.text.toList) after rest where
  placed l hl := by
    obtain ⟨front, back, hcs, hstart, hfits⟩ := h.placed l (List.mem_cons_of_mem _ hl)
    have hbefore := List.rel_of_pairwise_cons h.apart hl
    rw [stop_eq, hstart, String.utf8Len_append] at hbefore
    rw [List.append_assoc] at hcs
    obtain ⟨front, rfl, hafter⟩ := exists_append_of_utf8Len_le hcs (by simpa using hbefore)
    exact ⟨front, back, by simpa using hafter, by simpa using hstart, by simpa using hfits⟩
  apart := h.apart.of_cons
  gaps front c back hcs := by
    refine (h.gaps (t.text.toList ++ front) c back (by simp [hcs])).imp_right ?_
    rintro ⟨l, hl, hstart, hstop⟩
    rcases List.mem_cons.mp hl with rfl | hl
    · rw [stop_eq] at hstop
      simp at hstop
    · exact ⟨l, hl, by simpa using hstart, by simpa using hstop⟩

theorem Tiles.cons (h : Tiles (before ++ t.text.toList) after rest) (ht : t.Fits before after) :
    Tiles before (t.text.toList ++ after) (⟨t, utf8Len before⟩ :: rest) where
  placed l hl := by
    rcases List.mem_cons.mp hl with rfl | hl
    · exact ⟨[], after, rfl, by simp, by simpa using ht⟩
    · obtain ⟨front, back, rfl, hstart, hfits⟩ := h.placed l hl
      exact ⟨t.text.toList ++ front, back, by simp, by simpa using hstart, by simpa using hfits⟩
  apart := by
    refine List.pairwise_cons.mpr ⟨fun l hl => ?_, h.apart⟩
    obtain ⟨front, back, -, hstart, -⟩ := h.placed l hl
    rw [stop_eq, hstart]
    simp
  gaps front c back hcs := by
    by_cases hle : utf8Len t.text.toList ≤ utf8Len front
    · obtain ⟨front, rfl, hafter⟩ := exists_append_of_utf8Len_le hcs hle
      refine (h.gaps front c back hafter).imp_right ?_
      rintro ⟨l, hl, hstart, hstop⟩
      exact ⟨l, List.mem_cons_of_mem _ hl, by simpa using hstart, by simpa using hstop⟩
    · refine .inr ⟨_, List.mem_cons_self, by simp, ?_⟩
      rw [stop_eq, String.utf8Len_append]
      dsimp only
      omega

/-- An item that fits at the start is the first item, and the others tile what follows it. -/
theorem tiles_item (ht : t.Fits before after) : Tiles before (t.text.toList ++ after) items ↔
    ∃ rest, items = ⟨t, utf8Len before⟩ :: rest ∧ Tiles (before ++ t.text.toList) after rest := by
  constructor
  · intro h
    obtain ⟨rest, rfl⟩ := h.exists_rest ht
    exact ⟨rest, rfl, h.tail⟩
  · rintro ⟨rest, rfl, h⟩
    exact h.cons ht

end Item

theorem tiles_iff {before cs : List Char} {items : List Lexeme} {offset : Nat} (hoffset : offset = utf8Len before)
    (hcut : Token.Cut before cs) : Tiles before cs items ↔ items = scanFrom offset cs := by
  fun_induction scanFrom offset cs generalizing before items with
  | case1 offset => exact tiles_nil
  | case2 offset c cs hblank ih =>
    rw [tiles_blank hblank]
    exact ih (by rw [hoffset]; simp) (Token.cut_append_singleton (Token.mem_separators_of_isBlank hblank))
  | case3 offset c cs hblank item =>
    rename_i ih
    obtain ⟨hcs, hfits⟩ := Token.fits_read before cs hblank fun d hd hword =>
      (hcut d c hd rfl).resolve_right (Token.isWordChar_eq_true_iff.mp hword)
    have hrest : item.stop = utf8Len (before ++ (Token.read c cs).1.text.toList) := by
      rw [stop_eq, String.utf8Len_append, ← hoffset]
    rw [hcs, tiles_item hfits, ← hoffset]
    constructor
    · rintro ⟨rest, rfl, h⟩
      rw [(ih hrest hfits.cut).mp h]
    · rintro rfl
      exact ⟨_, rfl, (ih hrest hfits.cut).mpr rfl⟩

theorem tiles_scan (line : String) : Tiles [] line.toList (scan line) :=
  (tiles_iff rfl fun c d hc => absurd hc (by simp)).mpr rfl

/-! ### Bytes -/

section Bytes
variable {line : String} {l : Lexeme}

/-- The text of an item is what stands in the line at its bytes. -/
theorem exists_of_mem_scan (h : l ∈ scan line) :
    ∃ before after, line = before ++ l.token.text ++ after ∧ l.start = before.utf8ByteSize := by
  obtain ⟨front, back, hcs, hstart, -⟩ := (tiles_scan line).placed l h
  refine ⟨String.ofList front, String.ofList back, ?_, ?_⟩
  · rw [← String.toList_inj, hcs]
    simp
  · rw [hstart, List.nil_append, ← String.utf8Len_toList, String.toList_ofList]

theorem slice_of_mem_scan (h : l ∈ scan line) :
    String.Pos.Raw.extract line ⟨l.start⟩ ⟨l.stop⟩ = l.token.text := by
  obtain ⟨before, after, rfl, hstart⟩ := exists_of_mem_scan h
  have hslice := String.extract_of_valid before.toList l.token.text.toList after.toList
  simpa [String.utf8Len_toList, stop, hstart, String.append_assoc] using hslice

theorem isValid_of_mem_scan (h : l ∈ scan line) :
    String.Pos.Raw.IsValid line ⟨l.start⟩ ∧ String.Pos.Raw.IsValid line ⟨l.stop⟩ := by
  obtain ⟨before, after, rfl, hstart⟩ := exists_of_mem_scan h
  constructor
  · rw [hstart]
    exact (String.Pos.Raw.isValid_rawEndPos.append_right _).append_right _
  · rw [stop, hstart, ← String.utf8ByteSize_append]
    exact String.Pos.Raw.isValid_rawEndPos.append_right _

theorem start_lt_stop (h : l ∈ scan line) : l.start < l.stop := by
  obtain ⟨front, back, -, -, hfits⟩ := (tiles_scan line).placed l h
  rw [stop_eq]
  exact Nat.lt_add_of_pos_right (Nat.pos_of_ne_zero fun hzero => hfits.text_ne_nil (String.utf8Len_eq_zero.mp hzero))

end Bytes

/-- The items of a line are the only ones that tile it. Each has at least one byte, starts and ends on the boundary of
    a character, and holds the text that stands there; and no two items of any lines are written alike. -/
theorem scan_tiles (line : String) :
    (∀ items, Tiles [] line.toList items ↔ items = scan line) ∧
      (∀ l ∈ scan line, l.start < l.stop ∧ String.Pos.Raw.IsValid line ⟨l.start⟩ ∧
        String.Pos.Raw.IsValid line ⟨l.stop⟩ ∧ String.Pos.Raw.extract line ⟨l.start⟩ ⟨l.stop⟩ = l.token.text) ∧
      ∀ line', ∀ l ∈ scan line, ∀ l' ∈ scan line', l.token.text = l'.token.text → l.token = l'.token := by
  refine ⟨fun items => tiles_iff rfl fun c d hc => absurd hc (by simp), fun l hl => ?_, fun line' l hl l' hl' htext => ?_⟩
  · obtain ⟨hstart, hstop⟩ := isValid_of_mem_scan hl
    exact ⟨start_lt_stop hl, hstart, hstop, slice_of_mem_scan hl⟩
  · obtain ⟨_, _, -, -, hfits⟩ := (tiles_scan line).placed l hl
    obtain ⟨_, _, -, -, hfits'⟩ := (tiles_scan line').placed l' hl'
    exact hfits.eq_of_text_eq hfits' htext

end Lexeme

end Mac1
