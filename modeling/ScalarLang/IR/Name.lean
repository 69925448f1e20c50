import ScalarLang.IR.Basic
import ScalarLang.Number.Layout
/-!
# Names in the text of code

Letters, digits and a few marks stand for themselves; a name with other bytes is put in quotes, and so is
one that could be taken for a number.
-/
namespace ScalarLang.IR

/-- Marks the functions that expressions are evaluated in. -/
def expressionMark : String := "__anon_expr"

/-- The name that a function has in code. -/
def Symbol.name : Symbol → String
  | named name => name
  | expression n => expressionMark ++ toString n
  | power => "llvm.pow.f64"

namespace Name

/-- The bytes of names that need no quotes. -/
def isPlain (b : UInt8) : Bool :=
  let c := Char.ofUInt8 b
  c.isAlphanum || c = '$' || c = '.' || c = '_' || c = '-'

/-- A byte in quotes: a printable one is itself, and any other one a pair of hexadecimal digits. -/
def escape (b : UInt8) : List Char :=
  if 0x20 ≤ b ∧ b ≤ 0x7E ∧ b ≠ '"'.toUInt8 ∧ b ≠ '\\'.toUInt8 then [Char.ofUInt8 b]
  else '\\' :: (Numeral.hexDigits 2 b.toNat).map Char.toUpper

/-- Whether a name is a number of at most 64 bits. -/
def isNumber (name : String) : Bool :=
  match Numeral.natural? name.toList with
  | some n => decide (n < UInt64.size)
  | none => false

/-- A name in quotes. -/
def quoted (name : String) : String :=
  String.ofList ('"' :: (name.toUTF8.toList.flatMap escape) ++ ['"'])

/-- A name in quotes if it needs them. -/
def text (name : String) : String :=
  if !isNumber name && name.toUTF8.toList.all isPlain then name else quoted name

end Name

/-- A function without a name has a number, and as there is at most one the number is zero. -/
def Symbol.text (s : Symbol) : String :=
  if s.name = "" then "@0" else "@" ++ Name.text s.name

/-- The name in a list of functions. A name that spells an integer is shown as that integer in
quotes. -/
def Symbol.label (s : Symbol) : String :=
  if s.name = "" then "0"
  else
    match Numeral.int64? s.name with
    | some i => s!"\"{i}\""
    | none => s.name

end ScalarLang.IR
