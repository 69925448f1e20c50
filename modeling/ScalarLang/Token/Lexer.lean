import ScalarLang.Number.Numeral
import ScalarLang.Text.Glyph
import ScalarLang.Token.Basic
/-!
# From text to tokens

A text is a sequence of lexemes with gaps of white space and comments between them; each lexeme is a
token or a lexical error, and reading goes on after an error. What a whole text gives is a `TokenStream`:
finitely many answers, and then the end of input for ever.
-/
namespace ScalarLang

/-- The characters with the Unicode property `White_Space`. -/
def Text.isBlank (c : Char) : Bool :=
  let n := c.toNat
  (0x09 ≤ n && n ≤ 0x0D) || n == 0x20 || n == 0x85 || n == 0xA0 || n == 0x1680
    || (0x2000 ≤ n && n ≤ 0x200A) || n == 0x2028 || n == 0x2029 || n == 0x202F || n == 0x205F
    || n == 0x3000

/-! ## Errors -/

/-- What makes a lexeme no token. -/
inductive LexFault where
  | unrecognized
  | manyPoints
  | finalPoint
  | bareExponent
  | wideInteger
  | wideFloat
  deriving DecidableEq, Repr

/-- The kinds of lexical errors that messages tell apart. -/
inductive LexErrorKind where
  | unrecognizedCharacter
  | malformedNumber
  | unterminated
  deriving DecidableEq, Repr

namespace LexErrorKind

/-- A kind as messages show it. -/
def name : LexErrorKind → String
  | unrecognizedCharacter => "unrecognized character"
  | malformedNumber => "malformed numeric literal"
  | unterminated => "unterminated construct"

/-- The kinds, by number. -/
def all : List LexErrorKind := [.unrecognizedCharacter, .malformedNumber, .unterminated]

end LexErrorKind

/-- The kind of a fault. Most faults of numbers are of one kind. -/
def LexFault.kind : LexFault → LexErrorKind
  | unrecognized => .unrecognizedCharacter
  | bareExponent => .unterminated
  | manyPoints | finalPoint | wideInteger | wideFloat => .malformedNumber

/-- A lexeme that is no token, with its place. -/
structure LexError where
  fault : LexFault
  lexeme : String
  pos : Position
  deriving DecidableEq, Repr

namespace LexError

/-- The kind of the fault. -/
def kind (e : LexError) : LexErrorKind := e.fault.kind

/-- The error in words. -/
def text (e : LexError) : String :=
  match e.fault with
  | .unrecognized => s!"unrecognized character '{e.lexeme}'"
  | .manyPoints => s!"numeric literal '{e.lexeme}' has more than one decimal point"
  | .finalPoint => s!"numeric literal '{e.lexeme}' ends with a decimal point"
  | .bareExponent => s!"exponent of '{e.lexeme}' has no digits"
  | .wideInteger => s!"integer literal '{e.lexeme}' does not fit in 64 bits"
  | .wideFloat => s!"float literal '{e.lexeme}' is out of range"

/-- The error in words, with its place. -/
def message (e : LexError) : String := s!"{e.pos} lex error: {e.text}"

end LexError

/-- Why no token could be read: the text is wrong, or there is no more of it to be had. -/
inductive ScanError where
  | lexical (error : LexError)
  | unreadable (pos : Position) (cause : String)
  deriving DecidableEq, Repr

/-- The error in words, with its place. -/
def ScanError.message : ScanError → String
  | lexical e => e.message
  | unreadable pos cause => s!"reading source at {pos}: {cause}"

/-! ## Gaps -/

/-- The gap at the front of a text and what follows it. A comment runs from a number sign up to the
end of its line; `comment` tells whether the text starts inside one. -/
def splitGap : (comment : Bool) → List Glyph → List Glyph × List Glyph
  | _, [] => ([], [])
  | comment, g :: gs =>
    if comment || Text.isBlank g.char || g.char = '#' then
      let (gap, rest) := splitGap (if comment then g.char ≠ '\n' else g.char = '#') gs
      (g :: gap, rest)
    else ([], g :: gs)

theorem length_splitGap_le (comment : Bool) (gs : List Glyph) :
    (splitGap comment gs).2.length ≤ gs.length := by
  induction gs generalizing comment with
  | nil => simp [splitGap]
  | cons g gs ih =>
    unfold splitGap
    split
    · exact Nat.le_succ_of_le (ih _)
    · exact Nat.le_refl _

/-! ## Lexemes -/

/-- The glyphs of a lexeme, what follows them, and what the lexeme is. -/
structure Lexeme where
  glyphs : List Glyph
  rest : List Glyph
  result : Except LexFault TokenKind

namespace Lexeme

/-- The characters that a word starts with. -/
def isWordStart (c : Char) : Bool :=
  c = '_' || ('a' ≤ c && c ≤ 'z') || ('A' ≤ c && c ≤ 'Z')

/-- The characters that a word goes on with. -/
def isWordPart (g : Glyph) : Bool := isWordStart g.char || Numeral.isDigit g.char

/-- A decimal digit of a text. -/
def isDigit (g : Glyph) : Bool := Numeral.isDigit g.char

/-- What a number is read from, up to an exponent. -/
def isDigitOrPoint (g : Glyph) : Bool := isDigit g || g.char = '.'

/-- The longest word from `g` on. -/
def word (g : Glyph) (tail : List Glyph) : Lexeme :=
  let glyphs := g :: tail.takeWhile isWordPart
  let kind := if (Keyword.ofSpelling? (Glyph.text glyphs)).isSome then .keyword else .identifier
  ⟨glyphs, tail.dropWhile isWordPart, .ok kind⟩

/-- A sign, if there is one, and what follows it. -/
def splitSign : List Glyph → List Glyph × List Glyph
  | [] => ([], [])
  | g :: gs => if g.char = '+' || g.char = '-' then ([g], gs) else ([], g :: gs)

/-- The exponent at the front of a text, which is empty unless a mark starts it, and what follows.
Digits may be missing after the mark and its sign. -/
def splitExponent : List Glyph → List Glyph × List Glyph
  | [] => ([], [])
  | g :: gs =>
    if g.char = 'e' || g.char = 'E' then
      let (sign, more) := splitSign gs
      (g :: (sign ++ more.takeWhile isDigit), more.dropWhile isDigit)
    else ([], g :: gs)

/-- The longest number from the digit `g` on. Points are judged before an exponent is looked for. -/
def number (g : Glyph) (tail : List Glyph) : Lexeme :=
  let mantissa := g :: tail.takeWhile isDigitOrPoint
  let more := tail.dropWhile isDigitOrPoint
  let points := mantissa.countP (·.char = '.')
  if 1 < points then ⟨mantissa, more, .error .manyPoints⟩
  else if !(mantissa.getLast?.all isDigit) then ⟨mantissa, more, .error .finalPoint⟩
  else
    let (exponent, rest) := splitExponent more
    let glyphs := mantissa ++ exponent
    let result :=
      if exponent.isEmpty && points = 0 then
        if (Numeral.int64? (Glyph.text glyphs)).isSome then .ok .integer else .error .wideInteger
      else if !(exponent.getLast?.all isDigit) then .error .bareExponent
      else if (Numeral.binary64? (Glyph.text glyphs)).isSome then .ok .float
      else .error .wideFloat
    ⟨glyphs, rest, result⟩

/-- The operator from `g` on, with a second character if the two spell one. -/
def operator (g : Glyph) : List Glyph → Lexeme
  | [] => ⟨[g], [], .ok .operator⟩
  | h :: rest =>
    if (Operator.ofSpelling? (Glyph.text [g, h])).isSome then ⟨[g, h], rest, .ok .operator⟩
    else ⟨[g], h :: rest, .ok .operator⟩

/-- What a character that starts neither a word nor a number is. -/
def symbol (g : Glyph) (tail : List Glyph) : Lexeme :=
  if g.char = ',' then ⟨[g], tail, .ok .comma⟩
  else if g.char = ';' then ⟨[g], tail, .ok .semicolon⟩
  else if (Bracket.ofChar? g.char).isSome then ⟨[g], tail, .ok .bracket⟩
  else if (Operator.ofSpelling? (Glyph.text [g])).isSome then operator g tail
  else ⟨[g], tail, .error .unrecognized⟩

/-- The lexeme that starts with `g`. -/
def read (g : Glyph) (tail : List Glyph) : Lexeme :=
  if isWordStart g.char then word g tail else if isDigit g then number g tail else symbol g tail

/-- The token or error that a lexeme at `pos` is. -/
def answer (l : Lexeme) (pos : Position) : Except LexError Token :=
  match l.result with
  | .ok kind => .ok ⟨kind, Glyph.text l.glyphs, pos⟩
  | .error fault => .error ⟨fault, Glyph.text l.glyphs, pos⟩

theorem length_dropWhile_le (p : Glyph → Bool) (gs : List Glyph) :
    (gs.dropWhile p).length ≤ gs.length :=
  (List.dropWhile_suffix p).length_le

theorem length_splitSign_le (gs : List Glyph) : (splitSign gs).2.length ≤ gs.length := by
  cases gs with
  | nil => simp [splitSign]
  | cons g gs => simp only [splitSign]; split <;> simp

theorem length_splitExponent_le (gs : List Glyph) : (splitExponent gs).2.length ≤ gs.length := by
  cases gs with
  | nil => simp [splitExponent]
  | cons g gs =>
    simp only [splitExponent]
    split
    · have hd := length_dropWhile_le isDigit (splitSign gs).2
      have hs := length_splitSign_le gs
      simp only [List.length_cons]
      omega
    · exact Nat.le_refl _

theorem length_operator_rest_le (g : Glyph) (tail : List Glyph) :
    (operator g tail).rest.length ≤ tail.length := by
  cases tail with
  | nil => simp [operator]
  | cons h rest => simp only [operator]; split <;> simp

/-- A lexeme takes at least its first glyph. -/
theorem length_rest_le (g : Glyph) (tail : List Glyph) : (read g tail).rest.length ≤ tail.length := by
  unfold read
  split
  · exact length_dropWhile_le ..
  · split
    · have hp := length_dropWhile_le isDigitOrPoint tail
      have he := length_splitExponent_le (tail.dropWhile isDigitOrPoint)
      simp only [number]
      split
      · exact hp
      · split
        · exact hp
        · exact Nat.le_trans he hp
    · unfold symbol
      repeat' split
      · exact Nat.le_refl _
      · exact Nat.le_refl _
      · exact Nat.le_refl _
      · exact length_operator_rest_le g tail
      · exact Nat.le_refl _

end Lexeme

/-! ## Streams -/

/-- What reading token after token answers: finitely many tokens and errors of type `ε`, and then
the end of input at `ending` for ever. -/
structure TokenStream (ε : Type) where
  answers : List (Except ε Token)
  ending : Position
  deriving Repr

namespace TokenStream

/-- The lexemes of a text that starts at `pos`, as tokens and errors, and where the text ends. -/
def scan (pos : Position) (gs : List Glyph) : List (Except LexError Token) × Position :=
  match _h : splitGap false gs with
  | (gap, []) => ([], pos.after gap)
  | (gap, g :: tail) =>
    let lexeme := Lexeme.read g tail
    let here := pos.after gap
    let (more, ending) := scan (here.after lexeme.glyphs) lexeme.rest
    (lexeme.answer here :: more, ending)
termination_by gs.length
decreasing_by
  have hl := Lexeme.length_rest_le g tail
  have hg := length_splitGap_le false gs
  rw [_h] at hg
  exact Nat.lt_of_le_of_lt hl hg

/-- The tokens of a text given by its bytes. A failure to read on comes after what was read, and is
told once. -/
def ofBytes (bytes : List UInt8) (failure : Option String) : TokenStream ScanError :=
  let (answers, ending) := scan .start (Glyph.decode bytes)
  let told := match failure with
    | some cause => [.error (.unreadable ending cause)]
    | none => []
  ⟨answers.map (·.mapError .lexical) ++ told, ending⟩

/-- The tokens of a text that can be read to its end. -/
def ofString (text : String) : TokenStream ScanError := ofBytes text.toUTF8.toList none

/-- The token that a stream ends with. -/
def final {ε : Type} (s : TokenStream ε) : Token := ⟨.endOfInput, "", s.ending⟩

/-- All tokens of a stream, or its first error. -/
def tokens {ε : Type} (s : TokenStream ε) : Except ε (List Token) := s.answers.mapM id

end TokenStream

end ScalarLang
