import ScalarLang.Token.Lexer
import ScalarLang.Tree.Basic
/-!
# Trees that a text can spell

Names are words that are no keywords, literals have no sign, and every operator stands where the grammar
has one.
-/
namespace ScalarLang

/-- Whether a text is a word that names can be. -/
def isName (s : String) : Bool :=
  match s.toList with
  | [] => false
  | c :: cs =>
    Lexeme.isWordStart c && cs.all (fun c => Lexeme.isWordStart c || Numeral.isDigit c) &&
      (Keyword.ofSpelling? s).isNone

mutual

/-- Whether a text can spell an expression. -/
def Expr.isSource : Expr → Bool
  | .integer v _ => decide (0 ≤ v)
  | .float v _ => v.isFinite && !v.isNegative
  | .name id _ => isName id
  | .bind id init body _ => isName id && init.isSource && body.isSource
  | .unary op x _ => op.isSign && x.isSource
  | .binary op x y _ => op.precedence?.isSome && x.isSource && y.isSource
  | .call callee args _ => isName callee && areSource args
  | .missing => false

/-- Whether a text can spell each of some expressions. -/
def areSource : List Expr → Bool
  | [] => true
  | e :: es => e.isSource && areSource es

end

/-- Whether a text can spell a prototype. -/
def Prototype.isSource (p : Prototype) : Bool := isName p.name && p.params.all isName

theorem Prototype.isAnonymous_of_isSource {p : Prototype} (h : p.isSource = true) :
    p.isAnonymous = false := by
  refine decide_eq_false fun hempty => ?_
  rw [isSource, hempty] at h
  cases h

/-- An expression to be evaluated may be given as a function without name and parameters. -/
def Item.isSource : Item → Bool
  | external p _ => p.isSource
  | define p body _ => (p.isSource || (p.isAnonymous && p.params.isEmpty)) && body.isSource
  | evaluate body _ => body.isSource

end ScalarLang
