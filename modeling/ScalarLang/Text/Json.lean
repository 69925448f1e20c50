import ScalarLang.Number.Layout
/-!
# JSON values as text

A value is written on one line or indented. Characters that mean something in a web page are escaped as
well.
-/
namespace ScalarLang.Text

/-- The values that are written. There are no fractions and no truth values among them. -/
inductive Json where
  | number (n : Int)
  | string (s : String)
  | list (values : List Json)
  | object (fields : List (String × Json))
  deriving Repr

namespace Json

/-- A character inside of quotes. -/
def escapeChar (c : Char) : String :=
  match c with
  | '"' => "\\\""
  | '\\' => "\\\\"
  | '\x08' => "\\b"
  | '\x0c' => "\\f"
  | '\n' => "\\n"
  | '\r' => "\\r"
  | '\t' => "\\t"
  | c =>
    let n := c.toNat
    if n < 0x20 || c = '<' || c = '>' || c = '&' || n = 0x2028 || n = 0x2029 then
      "\\u" ++ String.ofList (Numeral.hexDigits 4 n)
    else c.toString

/-- A text in quotes. -/
def quoted (s : String) : String := "\"" ++ String.join (s.toList.map escapeChar) ++ "\""

mutual

/-- A value on one line, without blanks. -/
def compact : Json → String
  | number n => toString n
  | string s => quoted s
  | list values => "[" ++ ",".intercalate (compactAll values) ++ "]"
  | object fields => "\x7b" ++ ",".intercalate (compactFields fields) ++ "\x7d"

/-- Each of some values on one line. -/
def compactAll : List Json → List String
  | [] => []
  | v :: vs => v.compact :: compactAll vs

/-- Each of some fields on one line. -/
def compactFields : List (String × Json) → List String
  | [] => []
  | (name, v) :: fields => (quoted name ++ ":" ++ v.compact) :: compactFields fields

end

/-- Parts between brackets, one to a line, two columns further in than `margin`. -/
def block (left right margin : String) : List String → String
  | [] => left ++ right
  | parts =>
    let line := "\n" ++ margin
    left ++ line ++ "  " ++ ("," ++ line ++ "  ").intercalate parts ++ line ++ right

mutual

/-- A value over several lines, each after its first starting with `margin`. -/
def indented (margin : String) : Json → String
  | number n => toString n
  | string s => quoted s
  | list values => block "[" "]" margin (indentedAll (margin ++ "  ") values)
  | object fields => block "\x7b" "\x7d" margin (indentedFields (margin ++ "  ") fields)

/-- Each of some values over several lines. -/
def indentedAll (margin : String) : List Json → List String
  | [] => []
  | v :: vs => v.indented margin :: indentedAll margin vs

/-- Each of some fields over several lines. -/
def indentedFields (margin : String) : List (String × Json) → List String
  | [] => []
  | (name, v) :: fields => (quoted name ++ ": " ++ v.indented margin) :: indentedFields margin fields

end

end Json

end ScalarLang.Text
