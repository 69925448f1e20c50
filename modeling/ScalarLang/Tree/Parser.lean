import ScalarLang.Tree.Basic
import ScalarLang.Tree.Cursor
/-!
# From tokens to trees

The grammar functions read one item of a program each time, by recursive descent with one token of
lookahead and precedence climbing for the operators. Every one of them returns a cursor that is no larger
than the one it started from; that is why they end, and why reading on after an error reaches the end of
the stream.
-/
namespace ScalarLang

/-! ## Errors -/

/-- What the grammar asks for at some place. -/
inductive Expectation where
  | functionName
  | openParen
  | parameterName
  | parameterNameOrClose
  | variableName
  | within
  | expression
  | closeParen
  | commaOrClose
  | integerLiteral
  | floatLiteral
  deriving DecidableEq, Repr

/-- An expectation as messages show it. -/
def Expectation.label : Expectation → String
  | functionName => "function name"
  | openParen => "'('"
  | parameterName => "parameter name"
  | parameterNameOrClose => "parameter name or ')'"
  | variableName => "variable name"
  | within => "'in'"
  | expression => "expression"
  | closeParen => "')'"
  | commaOrClose => "',' or ')'"
  | integerLiteral => "integer literal"
  | floatLiteral => "float literal"

/-- What is wrong with a token where it stands. -/
inductive ParseFault where
  | unexpected (wanted : Expectation)
  | notBinary (op : Operator)
  | notSign (op : Operator)
  deriving DecidableEq, Repr

/-- The kinds of faults that messages tell apart. -/
inductive ParseErrorKind where
  | unexpectedToken
  | unexpectedEnd
  | invalidOperator
  deriving DecidableEq, Repr

namespace ParseErrorKind

/-- A kind as messages show it. -/
def name : ParseErrorKind → String
  | unexpectedToken => "unexpected token"
  | unexpectedEnd => "unexpected end of input"
  | invalidOperator => "invalid operator usage"

/-- The kinds, by number. -/
def all : List ParseErrorKind := [.unexpectedToken, .unexpectedEnd, .invalidOperator]

end ParseErrorKind

/-- A fault and the token that it was found at. -/
structure ParseError where
  fault : ParseFault
  found : Token
  deriving DecidableEq, Repr

namespace ParseError

/-- Where the token stands. -/
def pos (e : ParseError) : Position := e.found.pos

/-- A token that was not expected is told apart from the end of the input. -/
def kind (e : ParseError) : ParseErrorKind :=
  match e.fault with
  | .unexpected _ => if e.found.isEnd then .unexpectedEnd else .unexpectedToken
  | .notBinary _ | .notSign _ => .invalidOperator

/-- What was asked for, or nothing for an operator in the wrong place. -/
def expected (e : ParseError) : String :=
  match e.fault with
  | .unexpected wanted => wanted.label
  | .notBinary _ | .notSign _ => ""

/-- The error in words. -/
def text (e : ParseError) : String :=
  match e.fault with
  | .unexpected wanted => s!"expected {wanted.label}, found {e.found.describe}"
  | .notBinary op => s!"'{op.spelling}' is not a binary operator"
  | .notSign op => s!"'{op.spelling}' cannot be used as a prefix operator"

/-- The error in words, with its place. -/
def message (e : ParseError) : String := s!"{e.pos} parse error: {e.text}"

end ParseError

/-- Why an item could not be read from a stream with errors of type `ε`. -/
inductive Failure (ε : Type) where
  | stream (error : ε)
  | grammar (error : ParseError)
  /-- A token had to be put back, and the lookahead held another one. -/
  | overfull
  deriving Repr

/-! ## Outcomes -/

/-- The outcome of a grammar function: a result, and a cursor of size at most `bound`. -/
structure Parsed (ε α : Type) (bound : Nat) where
  result : Except (Failure ε) α
  cursor : Cursor ε
  size_le : cursor.size ≤ bound

namespace Parsed

variable {ε α β : Type} {m n : Nat}

/-- Succeeds and leaves a cursor. -/
@[inline] def done (a : α) (c : Cursor ε) (h : c.size ≤ n) : Parsed ε α n := ⟨.ok a, c, h⟩

/-- Fails and leaves a cursor. -/
@[inline] def fail (f : Failure ε) (c : Cursor ε) (h : c.size ≤ n) : Parsed ε α n := ⟨.error f, c, h⟩

/-- The same outcome with a larger bound. -/
@[inline] def weaken (p : Parsed ε α m) (h : m ≤ n) : Parsed ε α n :=
  ⟨p.result, p.cursor, Nat.le_trans p.size_le h⟩

/-- Goes on with the result of `p`, or stops with its failure. -/
@[inline] def andThen (p : Parsed ε α m) (h : m ≤ n)
    (f : α → (c : Cursor ε) → c.size ≤ m → Parsed ε β n) : Parsed ε β n :=
  match p.result with
  | .ok a => f a p.cursor p.size_le
  | .error e => ⟨.error e, p.cursor, Nat.le_trans p.size_le h⟩

end Parsed

namespace Cursor

variable {ε α : Type} {n : Nat}

/-- Goes on with the token in the lookahead, or stops with the stream's error. -/
@[inline] def peeking (c : Cursor ε) (h : c.size ≤ n)
    (f : (t : Token) → (c' : Cursor ε) → c'.size ≤ c.size →
      (t.isEnd = false → c'.skip.size < c.size) → Parsed ε α n) : Parsed ε α n :=
  match hp : c.peek with
  | (.ok t, c') => f t c' (by simpa [hp] using c.size_peek_le) (size_skip_peek_lt hp)
  | (.error e, c') => .fail (.stream e) c' (Nat.le_trans (Nat.le_of_lt (size_peek_error_lt hp)) h)

/-- Goes on with the next token taken, or stops with the stream's error. -/
@[inline] def taking (c : Cursor ε) (h : c.size ≤ n)
    (f : (t : Token) → (c' : Cursor ε) → c'.size ≤ c.size →
      (t.isEnd = false → c'.size < c.size) → Parsed ε α n) : Parsed ε α n :=
  match hp : c.next with
  | (.ok t, c') => f t c' (by simpa [hp] using c.size_next_le) (size_next_lt hp)
  | (.error e, c') => .fail (.stream e) c' (Nat.le_trans (Nat.le_of_lt (size_next_error_lt hp)) h)

/-- Refuses the token `t` that was taken where the grammar asks for something else. A boundary is put
back, so that no item reads past it. -/
def refuse (wanted : Expectation) (t : Token) (c : Cursor ε) : Failure ε × Cursor ε :=
  if t.isBoundary then
    match c.unread? t with
    | some c' => (.grammar ⟨.unexpected wanted, t⟩, c')
    | none => (.overfull, c)
  else (.grammar ⟨.unexpected wanted, t⟩, c)

theorem size_refuse_le {c c' : Cursor ε} {t : Token} (wanted : Expectation) (h : c'.size ≤ c.size)
    (ht : t.isEnd = false → c'.size < c.size) : (refuse wanted t c').2.size ≤ c.size := by
  unfold refuse
  split
  · split
    · rename_i c'' hu
      have := size_unread_le hu
      cases he : t.isEnd with
      | true => simp only [he, ↓reduceIte] at this; exact Nat.le_trans this h
      | false =>
        simp only [he, Bool.false_eq_true, ↓reduceIte] at this
        exact Nat.le_trans this (ht he)
    · exact h
  · exact h

/-- Stops because the token `t` was taken where the grammar asks for something else. -/
@[inline] def refusing (c : Cursor ε) (wanted : Expectation) (t : Token) (c' : Cursor ε)
    (h : c'.size ≤ c.size) (ht : t.isEnd = false → c'.size < c.size) : Parsed ε α c.size :=
  ⟨.error (refuse wanted t c').1, (refuse wanted t c').2, size_refuse_le wanted h ht⟩

end Cursor

/-! ## Tokens that start something -/

namespace Token

/-- Whether a token is a comma. -/
def isComma (t : Token) : Bool := t.kind = .comma

/-- The ways in which an operand starts. -/
inductive OperandStart where
  | integer
  | float
  | name
  | paren
  | binding
  deriving DecidableEq, Repr

/-- How the operand that starts with a token goes on, if one does. -/
def operandStart? (t : Token) : Option OperandStart :=
  match t.kind with
  | .integer => some .integer
  | .float => some .float
  | .identifier => some .name
  | _ => if t.opensParen then some .paren else if t.isKeyword .binding then some .binding else none

theorem isEnd_of_kind {t : Token} {k : TokenKind} (h : t.kind = k) (hk : k ≠ .endOfInput) :
    t.isEnd = false := by
  simp [isEnd, h, hk]

theorem isEnd_of_operator? {t : Token} {op : Operator} (h : t.operator? = some op) :
    t.isEnd = false := by
  unfold operator? at h
  split at h
  · exact isEnd_of_kind ‹_› (by simp)
  · simp at h

theorem isEnd_of_isKeyword {t : Token} {k : Keyword} (h : t.isKeyword k = true) :
    t.isEnd = false := by
  simp only [isKeyword, keyword?] at h
  split at h
  · exact isEnd_of_kind ‹_› (by simp)
  · simp at h

theorem isEnd_of_bracket? {t : Token} {b : Bracket} (h : t.bracket? = some b) :
    t.isEnd = false := by
  unfold bracket? at h
  split at h
  · exact isEnd_of_kind ‹_› (by simp)
  · simp at h

theorem isEnd_of_opensParen {t : Token} (h : t.opensParen = true) : t.isEnd = false :=
  isEnd_of_bracket? (by simpa [opensParen] using h)

theorem isEnd_of_operandStart? {t : Token} {s : OperandStart} (h : t.operandStart? = some s) :
    t.isEnd = false := by
  unfold operandStart? at h
  split at h
  · exact isEnd_of_kind ‹_› (by simp)
  · exact isEnd_of_kind ‹_› (by simp)
  · exact isEnd_of_kind ‹_› (by simp)
  · split at h
    · exact isEnd_of_opensParen ‹_›
    · split at h
      · exact isEnd_of_isKeyword ‹_›
      · simp at h

theorem isEnd_of_isComma {t : Token} (h : t.isComma = true) : t.isEnd = false :=
  isEnd_of_kind (k := .comma) (by simpa [isComma] using h) (by simp)

/-- Whether `t` is the bracket that closes the bracket `opener`. -/
def closes (t opener : Token) : Bool :=
  match t.bracket?, opener.bracket? with
  | some b, some o => b.closes o
  | _, _ => false

end Token

/-- The least level of the operators that belong to the right operand of an operator with precedence
`cur`, if the token `ahead` after that operand is one that takes it. -/
def Precedence.rightLevel? (cur : Precedence) (ahead : Token) : Option Int :=
  match ahead.operator?.bind Operator.precedence? with
  | some next =>
    if next.bindsTighter cur then
      some (if next.level = cur.level then cur.level else cur.level + 1)
    else none
  | none => none

/-! ## Expressions -/

namespace Parse

variable {ε : Type}

mutual

/-- An operand, and the operators and operands that follow it. -/
def expression (c : Cursor ε) : Parsed ε Expr c.size :=
  (unary c).andThen (Nat.le_refl _) fun lhs c₁ h₁ => (operators 0 lhs c₁).weaken h₁
termination_by 5 * c.size + 2

/-- The operators of level `least` and above that follow the operand `lhs`, with their right
operands. -/
def operators (least : Int) (lhs : Expr) (c : Cursor ε) : Parsed ε Expr c.size :=
  c.peeking (Nat.le_refl _) fun t c₁ h₁ hs =>
    match ho : t.operator? with
    | none => .done lhs c₁ h₁
    | some op =>
      match op.precedence? with
      | none => .fail (.grammar ⟨.notBinary op, t⟩) c₁ h₁
      | some prec =>
        if prec.level < least then .done lhs c₁ h₁
        else
          have hlt := hs (Token.isEnd_of_operator? ho)
          (unary c₁.skip).andThen (Nat.le_of_lt hlt) fun rhs c₂ h₂ =>
            have hle := Nat.le_trans h₂ (Nat.le_of_lt hlt)
            c₂.peeking hle fun ahead c₃ h₃ _ =>
              match prec.rightLevel? ahead with
              | some level =>
                (operators level rhs c₃).andThen (Nat.le_trans h₃ hle) fun rhs c₄ h₄ =>
                  (operators least (.binary op lhs rhs t.pos) c₄).weaken
                    (Nat.le_trans h₄ (Nat.le_trans h₃ hle))
              | none =>
                (operators least (.binary op lhs rhs t.pos) c₃).weaken (Nat.le_trans h₃ hle)
termination_by 5 * c.size

/-- Signs, and the operand after them. -/
def unary (c : Cursor ε) : Parsed ε Expr c.size :=
  c.peeking (Nat.le_refl _) fun t c₁ h₁ hs =>
    match ho : t.operator? with
    | none => (primary c₁).weaken h₁
    | some op =>
      if op.isSign then
        have hlt := hs (Token.isEnd_of_operator? ho)
        (unary c₁.skip).andThen (Nat.le_of_lt hlt) fun x c₂ h₂ =>
          .done (.unary op x t.pos) c₂ (by omega)
      else .fail (.grammar ⟨.notSign op, t⟩) c₁ h₁
termination_by 5 * c.size + 1

/-- An operand. -/
def primary (c : Cursor ε) : Parsed ε Expr c.size :=
  c.taking (Nat.le_refl _) fun t c₁ h₁ ht =>
    match ho : t.operandStart? with
    | some start =>
      have hlt := ht (Token.isEnd_of_operandStart? ho)
      (operand start t c₁).weaken (Nat.le_of_lt hlt)
    | none => c.refusing .expression t c₁ h₁ ht
termination_by 5 * c.size

/-- The operand that starts with the token `t`, which has been taken. -/
def operand (start : Token.OperandStart) (t : Token) (c : Cursor ε) : Parsed ε Expr c.size :=
  match start with
  | .integer =>
    match Numeral.int64? t.text with
    | some v => .done (.integer v t.pos) c (Nat.le_refl _)
    | none => .fail (.grammar ⟨.unexpected .integerLiteral, t⟩) c (Nat.le_refl _)
  | .float =>
    match Numeral.binary64? t.text with
    | some v => .done (.float v t.pos) c (Nat.le_refl _)
    | none => .fail (.grammar ⟨.unexpected .floatLiteral, t⟩) c (Nat.le_refl _)
  | .name =>
    match hc : c.consume Token.opensParen with
    | (false, c₁) => .done (.name t.text t.pos) c₁ (Cursor.size_le_of_consume hc)
    | (true, c₁) =>
      have h₁ := Cursor.size_le_of_consume hc
      match hd : c₁.consume Token.closesParen with
      | (true, c₂) =>
        .done (.call t.text [] t.pos) c₂ (Nat.le_trans (Cursor.size_le_of_consume hd) h₁)
      | (false, c₂) =>
        have h₂ := Cursor.size_le_of_consume hd
        (arguments c₂).andThen (by omega) fun args c₃ h₃ =>
          .done (.call t.text args t.pos) c₃ (by omega)
  | .paren =>
    (expression c).andThen (Nat.le_refl _) fun e c₁ h₁ =>
      c₁.taking h₁ fun u c₂ h₂ hu =>
        if u.closes t then .done e c₂ (Nat.le_trans h₂ h₁)
        else (c₁.refusing .closeParen u c₂ h₂ hu).weaken h₁
  | .binding => bindings c
termination_by 5 * c.size + 4

/-- The arguments of a call, up to the parenthesis that closes it. -/
def arguments (c : Cursor ε) : Parsed ε (List Expr) c.size :=
  (expression c).andThen (Nat.le_refl _) fun e c₁ h₁ =>
    c₁.taking h₁ fun u c₂ h₂ hu =>
      if u.closesParen then .done [e] c₂ (Nat.le_trans h₂ h₁)
      else if hc : u.isComma then
        have hlt := hu (Token.isEnd_of_isComma hc)
        (arguments c₂).andThen (by omega) fun es c₃ h₃ => .done (e :: es) c₃ (by omega)
      else (c₁.refusing .commaOrClose u c₂ h₂ hu).weaken h₁
termination_by 5 * c.size + 3

/-- A binding, the bindings after it, and their body. A name without a value is bound to zero. -/
def bindings (c : Cursor ε) : Parsed ε Expr c.size :=
  c.taking (Nat.le_refl _) fun t c₁ h₁ ht =>
    if hk : t.kind = .identifier then
      have hlt := ht (Token.isEnd_of_kind hk (by simp))
      c₁.peeking h₁ fun u c₂ h₂ _ =>
        if u.operator? = some .assign then
          have hsk := c₂.size_skip_le
          (expression c₂.skip).andThen (by omega) fun init c₃ h₃ =>
            (afterBinding t init c₃).weaken (by omega)
        else (afterBinding t (.integer 0 t.pos) c₂).weaken (by omega)
    else c.refusing .variableName t c₁ h₁ ht
termination_by 5 * c.size + 2

/-- What follows the binding of `init` to the name `t`: another binding, or the body. -/
def afterBinding (t : Token) (init : Expr) (c : Cursor ε) : Parsed ε Expr c.size :=
  match hc : c.consume Token.isComma with
  | (true, c₁) =>
    have h₁ := Cursor.size_le_of_consume hc
    (bindings c₁).andThen h₁ fun body c₂ h₂ => .done (.bind t.text init body t.pos) c₂ (by omega)
  | (false, c₁) =>
    have h₁ := Cursor.size_le_of_consume hc
    c₁.taking h₁ fun u c₂ h₂ hu =>
      if u.isKeyword .within then
        (expression c₂).andThen (by omega) fun body c₃ h₃ =>
          .done (.bind t.text init body t.pos) c₃ (by omega)
      else (c₁.refusing .within u c₂ h₂ hu).weaken h₁
termination_by 5 * c.size + 3

end

/-! ## Items -/

/-- The parameters of a prototype, up to the parenthesis that closes it. Commas between them are
optional, and none may stand before that parenthesis. -/
def parameters (afterComma : Bool) (c : Cursor ε) : Parsed ε (List String) c.size :=
  c.taking (Nat.le_refl _) fun t c₁ h₁ ht =>
    if hk : t.kind = .identifier then
      have hlt := ht (Token.isEnd_of_kind hk (by simp))
      match hc : c₁.consume Token.isComma with
      | (comma, c₂) =>
        have h₂ := Cursor.size_le_of_consume hc
        (parameters comma c₂).andThen (by omega) fun names c₃ h₃ =>
          .done (t.text :: names) c₃ (by omega)
    else if t.closesParen && !afterComma then .done [] c₁ h₁
    else c.refusing (if afterComma then .parameterName else .parameterNameOrClose) t c₁ h₁ ht
termination_by c.size

/-- The name of a function and its parameters in parentheses. -/
def prototype (c : Cursor ε) : Parsed ε Prototype c.size :=
  c.taking (Nat.le_refl _) fun t c₁ h₁ ht =>
    if t.kind = .identifier then
      c₁.taking h₁ fun u c₂ h₂ hu =>
        if u.opensParen then
          (parameters false c₂).andThen (by omega) fun params c₃ h₃ =>
            .done ⟨t.text, params, t.pos⟩ c₃ (by omega)
        else (c₁.refusing .openParen u c₂ h₂ hu).weaken h₁
    else c.refusing .functionName t c₁ h₁ ht

/-- The item that starts with the token `t`, which has been taken and is not the end of input. -/
def itemFrom (t : Token) (c : Cursor ε) : Parsed ε Item (c.size + 1) :=
  if t.isKeyword .define then
    (prototype c).andThen (Nat.le_succ _) fun proto c₁ h₁ =>
      (expression c₁).andThen (by omega) fun body c₂ h₂ =>
        .done (.define proto body t.pos) c₂ (by omega)
  else if t.isKeyword .external then
    (prototype c).andThen (Nat.le_succ _) fun proto c₁ h₁ =>
      .done (.external proto t.pos) c₁ (by omega)
  else
    match hu : c.unread? t with
    | some c₁ =>
      have h₁ := Cursor.size_unread_le_succ hu
      (expression c₁).andThen h₁ fun body c₂ h₂ =>
        .done (.evaluate body t.pos) c₂ (by omega)
    | none => .fail .overfull c (Nat.le_succ _)

/-- The next item of a program, or nothing at its end. Semicolons between items are passed over. -/
def item (c : Cursor ε) : Parsed ε (Option Item) c.size :=
  c.taking (Nat.le_refl _) fun t c₁ h₁ ht =>
    if he : t.isEnd then .done none c₁ h₁
    else
      have hlt := ht (by simpa using he)
      if t.kind = .semicolon then (item c₁).weaken h₁
      else (itemFrom t c₁).andThen hlt fun i c₂ h₂ => .done (some i) c₂ (by omega)
termination_by c.size

/-- Passes over what is left of an item that could not be read: up to the end of input, up to a token
that starts a declaration or definition, or past a semicolon. -/
def synchronize (c : Cursor ε) : Cursor ε :=
  match hp : c.peek with
  | (.error _, c₁) =>
    have := Cursor.size_peek_error_lt hp
    synchronize c₁
  | (.ok t, c₁) =>
    if he : t.isEnd then c₁
    else
      have := Cursor.size_skip_peek_lt hp (by simpa using he)
      if t.isKeyword .define || t.isKeyword .external then c₁
      else if t.kind = .semicolon then c₁.skip
      else synchronize c₁.skip
termination_by c.size

end Parse

end ScalarLang
