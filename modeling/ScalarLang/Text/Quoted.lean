import ScalarLang.Number.Layout
import ScalarLang.Text.Visible
/-!
# Text in double quotes

Characters that are not visible are escaped: the usual control characters by a letter, the others by
their number.
-/
namespace ScalarLang.Text

/-- The escape of a character that is not visible. -/
def escape (c : Char) : String :=
  match c with
  | '\x07' => "\\a"
  | '\x08' => "\\b"
  | '\x0c' => "\\f"
  | '\n' => "\\n"
  | '\r' => "\\r"
  | '\t' => "\\t"
  | '\x0b' => "\\v"
  | c =>
    let n := c.toNat
    if n < 0x80 then "\\x" ++ String.ofList (Numeral.hexDigits 2 n)
    else if n < 0x10000 then "\\u" ++ String.ofList (Numeral.hexDigits 4 n)
    else "\\U" ++ String.ofList (Numeral.hexDigits 8 n)

/-- A character inside of quotes. -/
def quoteChar (c : Char) : String :=
  if c = '"' then "\\\"" else if c = '\\' then "\\\\"
  else if isVisible c then c.toString else escape c

/-- A text in quotes, with escapes where they are needed. -/
def quote (s : String) : String := "\"" ++ String.join (s.toList.map quoteChar) ++ "\""

end ScalarLang.Text
