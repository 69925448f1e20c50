import ScalarLang.Operator
import ScalarLang.Text.Position
import ScalarLang.Text.Quoted
/-!
# Tokens

A token has a kind, the text that was read, and its place. The kind alone says what a token is; its text
is looked up in the tables of keywords, operators and brackets when it matters.
-/
namespace ScalarLang

/-- The kinds of tokens. -/
inductive TokenKind where
  | endOfInput
  | identifier
  | keyword
  | operator
  | bracket
  | integer
  | float
  | comma
  | semicolon
  /-- A number that stands for no kind of the language. -/
  | other (number : UInt64)
  deriving DecidableEq, Repr

namespace TokenKind

/-- The kinds of the language, by number. -/
def all : List TokenKind :=
  [.endOfInput, .identifier, .keyword, .operator, .bracket, .integer, .float, .comma, .semicolon]

/-- The kind with a number. -/
def ofNumber (n : UInt64) : TokenKind := (all[n.toNat]?).getD (.other n)

/-- A kind as it is shown. -/
def name : TokenKind → String
  | endOfInput => "EOF"
  | identifier => "Identifier"
  | keyword => "Keyword"
  | operator => "Operator"
  | bracket => "Bracket"
  | integer => "Integer"
  | float => "Float"
  | comma => "Comma"
  | semicolon => "Semicolon"
  | other n => s!"TokenType({n})"

end TokenKind

/-- The words that are no names. Conditionals have words and no grammar. -/
inductive Keyword where
  | define
  | external
  | condition
  | consequence
  | alternative
  | binding
  | within
  deriving DecidableEq, Repr

namespace Keyword

/-- All keywords. -/
def all : List Keyword :=
  [.define, .external, .condition, .consequence, .alternative, .binding, .within]

/-- A keyword as it is written. -/
def spelling : Keyword → String
  | define => "def"
  | external => "extern"
  | condition => "if"
  | consequence => "then"
  | alternative => "else"
  | binding => "var"
  | within => "in"

/-- The keyword that is spelled `s`. -/
def ofSpelling? (s : String) : Option Keyword := all.find? (·.spelling == s)

end Keyword

/-- The three shapes of brackets. -/
inductive BracketShape where
  | round
  | square
  | curly
  deriving DecidableEq, Repr

/-- Whether a bracket opens or closes. -/
inductive BracketSide where
  | left
  | right
  deriving DecidableEq, Repr

/-- A bracket of some shape, for one of the sides. -/
structure Bracket where
  shape : BracketShape
  side : BracketSide
  deriving DecidableEq, Repr

namespace Bracket

/-- The bracket that a character is. -/
def ofChar? : Char → Option Bracket
  | '(' => some ⟨.round, .left⟩
  | ')' => some ⟨.round, .right⟩
  | '[' => some ⟨.square, .left⟩
  | ']' => some ⟨.square, .right⟩
  | '\x7b' => some ⟨.curly, .left⟩
  | '\x7d' => some ⟨.curly, .right⟩
  | _ => none

/-- Whether `b` is the right bracket for the left bracket `opener`. -/
def closes (b opener : Bracket) : Bool :=
  b.shape = opener.shape && opener.side = .left && b.side = .right

end Bracket

/-- A lexeme of a text. Its text is as it was read. -/
structure Token where
  kind : TokenKind
  text : String
  pos : Position
  deriving DecidableEq, Repr

namespace Token

/-- Whether a token is the end of input. -/
def isEnd (t : Token) : Bool := t.kind = .endOfInput

/-- The keyword that a token is. -/
def keyword? (t : Token) : Option Keyword :=
  if t.kind = .keyword then Keyword.ofSpelling? t.text else none

/-- The operator that a token is. -/
def operator? (t : Token) : Option Operator :=
  if t.kind = .operator then Operator.ofSpelling? t.text else none

/-- The bracket that a token's first character is. -/
def bracket? (t : Token) : Option Bracket :=
  if t.kind = .bracket then t.text.toList.head?.bind Bracket.ofChar? else none

/-- Whether a token is a certain keyword. -/
def isKeyword (t : Token) (k : Keyword) : Bool := t.keyword? = some k

/-- Whether a token is an opening parenthesis. -/
def opensParen (t : Token) : Bool := t.bracket? = some ⟨.round, .left⟩

/-- Whether a token is a closing parenthesis. -/
def closesParen (t : Token) : Bool := t.bracket? = some ⟨.round, .right⟩

/-- A token that starts an item or stands between two: no item reads past it. -/
def isBoundary (t : Token) : Bool :=
  t.isEnd || t.kind = .semicolon || t.isKeyword .define || t.isKeyword .external

/-- A token as messages name it. -/
def describe (t : Token) : String :=
  match t.kind with
  | .endOfInput => "end of input"
  | .keyword | .operator | .bracket | .comma | .semicolon => s!"'{t.text}'"
  | kind => s!"{kind.name} '{t.text}'"

/-- Kind, quoted text and place. -/
protected def toString (t : Token) : String := s!"{t.kind.name}({Text.quote t.text})@{t.pos}"

end Token

end ScalarLang
