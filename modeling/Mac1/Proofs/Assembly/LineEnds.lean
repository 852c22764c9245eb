import Mac1.Assembly.Target
import Mac1.Proofs.Assembly.Respelling
import Mac1.Proofs.Line.Trailing

/-! Line ends. A carriage return in front of a line feed belongs to the end of the line, and a further one is a blank at
    the end of the line. So a text means the same whether its lines end in a line feed or in both. -/

namespace Mac1

/-- A line feed with a carriage return in front of it, and any other character as it is. -/
def Text.crlfChar (c : Char) : List Char := if c = '\n' then ['\r', '\n'] else [c]

/-- The text with a carriage return put in front of each line feed. -/
def Text.crlf (text : String) : String := String.ofList (text.toList.flatMap crlfChar)

section Lines
variable {c : Char} {cs : List Char}

theorem Text.crlfChar_of_ne (h : c ≠ '\n') : crlfChar c = [c] := if_neg h

theorem Text.head?_flatMap_crlfChar_ne (cs : List Char) : (cs.flatMap crlfChar).head? ≠ some '\n' := by
  cases cs with
  | nil => simp
  | cons c cs =>
    rw [List.flatMap_cons, crlfChar]
    split <;> simp_all

theorem Text.linesOf_cons (h : c ≠ '\n') (hreturn : c = '\r' → cs.head? ≠ some '\n') : linesOf (c :: cs) =
    (c :: (linesOf cs).headD []) :: (linesOf cs).tail := by
  rw [linesOf.eq_4 c cs h fun rest hc hcs => hreturn hc (hcs ▸ rfl)]
  cases linesOf cs <;> rfl

/-- Each line stays as it is or ends in one more carriage return. -/
theorem Text.linesOf_crlf (cs : List Char) : List.Forall₂ (fun line line' => line' = line ∨ line' = line ++ ['\r'])
    (linesOf cs) (linesOf (cs.flatMap crlfChar)) := by
  fun_induction linesOf cs with
  | case1 => exact .nil
  | case2 cs ih => exact .cons (.inl rfl) ih
  | case3 cs ih => exact .cons (.inr rfl) ih
  | case4 c cs hfeed hreturn hnil ih =>
    rw [hnil] at ih
    rw [List.flatMap_cons, crlfChar_of_ne hfeed, List.singleton_append,
      linesOf_cons hfeed fun _ => head?_flatMap_crlfChar_ne cs]
    rw [List.forall₂_nil_left_iff.mp ih]
    exact .cons (.inl rfl) .nil
  | case5 c cs hfeed hreturn line lines hlines ih =>
    rw [hlines] at ih
    obtain ⟨line', lines', hline, hrest, hlines'⟩ := List.forall₂_cons_left_iff.mp ih
    rw [List.flatMap_cons, crlfChar_of_ne hfeed, List.singleton_append,
      linesOf_cons hfeed fun _ => head?_flatMap_crlfChar_ne cs, hlines']
    exact .cons (hline.imp (congrArg (c :: ·)) (congrArg (c :: ·))) hrest

theorem Line.respelled_of_return {line line' : List Char} (h : line' = line ∨ line' = line ++ ['\r']) :
    Respelled (String.ofList line) (String.ofList line') := by
  refine .of_content_eq ?_
  rcases h with rfl | rfl
  · rfl
  · have hgap : IsGap "\r".toList := by simp [IsGap]
    rw [String.ofList_append]
    exact hgap.isTrailing.content_append (String.ofList line)

end Lines

/-- Blanks around a line and a comment behind it do not change what the line says or why it is refused. A text whose
    lines end in a carriage return and a line feed gives the same program as with line feeds alone, or fails for the
    same cause on a line of the same number. -/
theorem Target.surroundings_irrelevant :
    (∀ line gap : String, IsGap gap.toList →
      Line.content (gap ++ line) = Line.content line ∧ Line.content (line ++ gap) = Line.content line) ∧
    (∀ line body : String, '\n' ∉ body.toList → Line.content (line ++ (";" ++ body)) = Line.content line) ∧
    ∀ (target : Target) (text : String), EndAlike Eq (target.assembleText text) (target.assembleText (Text.crlf text)) := by
  refine ⟨fun line gap hgap => ⟨hgap.content_prepend line, hgap.isTrailing.content_append line⟩, fun line body hbody => ?_,
    fun target text => ?_⟩
  · refine IsTrailing.content_append ?_ line
    rw [String.toList_append]
    exact isTrailing_semicolon hbody
  · refine assemble_of_respelled ?_
    rw [Text.lines, Text.lines, Text.crlf, String.toList_ofList, List.forall₂_map_left_iff, List.forall₂_map_right_iff]
    exact (Text.linesOf_crlf text.toList).imp fun line line' => Line.respelled_of_return

/-- A loop. As one line it is refused. -/
def loop : String := "x: LOCO 7\nJUMP x"

/-- With both line ends the loop is assembled to the same program. -/
theorem Target.surroundings_irrelevant_loop : Line.content (loop ++ " \r") = Line.content loop ∧
    Line.content (loop ++ (";" ++ " /")) = Line.content loop ∧ (Line.content loop).isOk = false ∧
    ∃ p, assembleText {} loop = .ok p ∧ p.size = 2 ∧ assembleText {} "x: LOCO 7\r\nJUMP x" = .ok p := by
  obtain ⟨hgap, hbody, hcrlf⟩ := surroundings_irrelevant
  have hok : (assembleText {} loop).toOption.map (·.size) = some 2 := by decide +kernel
  have htext : Text.crlf loop = "x: LOCO 7\r\nJUMP x" := by decide +kernel
  obtain ⟨p, hp, hsize⟩ := exists_eq_ok_of_map_toOption hok
  have hend := hcrlf {} loop
  rw [hp, htext] at hend
  refine ⟨(hgap loop " \r" (by simp [IsGap])).2, hbody loop " /" (by simp), by decide +kernel, p, hp, hsize, ?_⟩
  generalize assembleText {} "x: LOCO 7\r\nJUMP x" = result at hend
  cases hend with
  | ok h => rw [h]

end Mac1
