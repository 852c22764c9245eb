import Mac1.Text.Uppercase.Table

/-! The full Unicode uppercase form of a text, and equality of texts up to the case of ASCII letters.
    The two differ: `ſ` has the uppercase form `S`, but equals no ASCII letter in any case. -/

namespace Mac1.Text

/-- The uppercase form of a character, which may be several characters. -/
def upperChar (c : Char) : List Char :=
  if c.toNat < 128 then [c.toUpper]
  else
    match Uppercase.expansions.find? (·.1 == c.toNat) with
    | some (_, image) => image.map Char.ofNat
    | none =>
      match Uppercase.runs.find? (·.covers c.toNat) with
      | some run => [Char.ofNat (run.image c.toNat)]
      | none => [c]

/-- The uppercase form of a text: that of each character, in order. -/
def upper (s : String) : String := String.ofList (s.toList.flatMap upperChar)

/-- The texts are equal up to the case of ASCII letters. -/
def eqIgnoreAsciiCase (s t : String) : Bool :=
  s.toList.map Char.toLower == t.toList.map Char.toLower

end Mac1.Text
