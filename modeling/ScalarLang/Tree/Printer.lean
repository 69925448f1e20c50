import ScalarLang.Number.Layout
import ScalarLang.Number.Shortest
import ScalarLang.Tree.Basic
/-!
# Trees as source text

Every operation and binding stands in parentheses of its own, so the text shows the tree without the help
of precedence.
-/
namespace ScalarLang

/-- Doubles are written with the fewest digits that read back, and with a point or an exponent. -/
def Binary64.text (x : Binary64) : String :=
  if x.isNaN then "NaN.0"
  else if x.isInfinite then if x.isNegative then "-Inf.0" else "+Inf.0"
  else Numeral.Layout.text ⟨false⟩ x.shortest

mutual

/-- An expression as it could be written. -/
def Expr.text : Expr → String
  | .integer v _ => toString v
  | .float v _ => v.text
  | .name id _ => id
  | .bind id init body _ => s!"(var {id} = {init.text} in {body.text})"
  | .unary op x _ => op.spelling ++ x.text
  | .binary op x y _ => s!"({x.text} {op.spelling} {y.text})"
  | .call f args _ => s!"{f}({argumentsText args})"
  | .missing => ""

/-- Arguments, with a comma between them. -/
def argumentsText : List Expr → String
  | [] => ""
  | [e] => e.text
  | e :: es => s!"{e.text}, {argumentsText es}"

end

/-- A prototype as it could be written. -/
def Prototype.text (p : Prototype) : String := p.name ++ "(" ++ " ".intercalate p.params ++ ")"

/-- An item as it could be written. -/
def Item.text : Item → String
  | external p _ => "extern " ++ p.text
  | define p body _ => if p.isAnonymous then body.text else s!"def {p.text} {body.text}"
  | evaluate body _ => body.text

/-- A part of a tree as it could be written, and nothing for a part that lacks its own. -/
def Node.text : Node → String
  | expr e => e.text
  | prototype p => p.text
  | item i => i.text
  | headless .. => ""

/-- A program: its items one to a line, with a semicolon between them. -/
def programText (items : List String) : String := ";\n".intercalate items

end ScalarLang
