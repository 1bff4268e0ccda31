import Orthotope.Text.Printable

/-!
# Text of lists and strings

`bracketed` is the text of a list and `quoted` the text of a string: in quotes, with an escape for
each character that is not printable or could be taken for something else.
-/

namespace Orthotope

/-- The texts of a list: brackets around, a comma and a blank between. -/
def listed (xs : List String) : String := "[" ++ ", ".intercalate xs ++ "]"

/-- The text of a list of numbers. -/
def bracketed (xs : List Nat) : String := listed (xs.map toString)

/-- A character by the hexadecimal digits of its code point. -/
def codeEscape (c : Char) : String :=
  "\\u\x7b" ++ String.ofList (Nat.toDigits 16 c.toNat) ++ "\x7d"

/-- A character inside quotes. The double quote, the backslash and what is not printable are escaped. -/
def escaped (c : Char) : String :=
  match c with
  | '"' => "\\\""
  | '\\' => "\\\\"
  | '\n' => "\\n"
  | '\r' => "\\r"
  | '\t' => "\\t"
  | '\x00' => "\\0"
  | c => if isPrintable c then c.toString else codeEscape c

/-- A string in quotes. -/
def quoted (s : String) : String := "\"" ++ String.join (s.toList.map escaped) ++ "\""

end Orthotope
