import ScalarLang.Proofs.Completeness
import ScalarLang.Proofs.Spelling
/-!
# Printing and reading back

A printed tree is a text that spells certain tokens, and these tokens are read as the tree, places aside:
every operation stands in parentheses, so whatever follows an operand inside of them is its operator or
the end of the parentheses, and no level decides anything.
-/
namespace ScalarLang

/-! ## Printed trees -/

namespace Token

/-- The token of a name. -/
def ofName (id : String) : Token := ⟨.identifier, id, .unknown⟩

/-- The token of a keyword. -/
def ofKeyword (k : Keyword) : Token := ⟨.keyword, k.spelling, .unknown⟩

/-- The token of an operator. -/
def ofOperator (op : Operator) : Token := ⟨.operator, op.spelling, .unknown⟩

/-- The parenthesis that opens. -/
def openParen : Token := ⟨.bracket, "(", .unknown⟩

/-- The parenthesis that closes. -/
def closeParen : Token := ⟨.bracket, ")", .unknown⟩

/-- The comma between arguments. -/
def comma : Token := ⟨.comma, ",", .unknown⟩

/-- The semicolon between items. -/
def semicolon : Token := ⟨.semicolon, ";", .unknown⟩

end Token

mutual

/-- The tokens of a printed expression. -/
def Expr.tokens : Expr → List Token
  | .integer v _ => [⟨.integer, toString v, .unknown⟩]
  | .float v _ => [⟨.float, v.text, .unknown⟩]
  | .name id _ => [.ofName id]
  | .bind id init body _ =>
    .openParen :: .ofKeyword .binding :: .ofName id :: .ofOperator .assign ::
      (init.tokens ++ .ofKeyword .within :: (body.tokens ++ [.closeParen]))
  | .unary op x _ => .ofOperator op :: x.tokens
  | .binary op x y _ => .openParen :: (x.tokens ++ .ofOperator op :: (y.tokens ++ [.closeParen]))
  | .call f args _ => .ofName f :: .openParen :: (argumentTokens args ++ [.closeParen])
  | .missing => []

/-- The tokens of arguments, with commas between them. -/
def argumentTokens : List Expr → List Token
  | [] => []
  | [e] => e.tokens
  | e :: es => e.tokens ++ .comma :: argumentTokens es

end

theorem breaks_cons {c : Char} {cs : List Char} (h : c ∈ [' ', '(', ')', ',', ';']) : Breaks (c :: cs) := by
  rintro x ⟨⟩
  simp only [List.mem_cons, List.not_mem_nil, or_false] at h
  rcases h with rfl | rfl | rfl | rfl | rfl <;> decide

theorem Operator.mem_all_of_precedence? {op : Operator} (h : op.precedence?.isSome = true) :
    op ∈ Operator.all := by
  cases op <;> simp_all [Operator.precedence?, Operator.all]

theorem Operator.mem_all_of_isSign {op : Operator} (h : op.isSign = true) : op ∈ Operator.all := by
  cases op <;> simp_all [Operator.isSign, Operator.all]

/-! The characters of what is put together from texts. -/

theorem toList_bind_text (id : String) (init body : Expr) (p : Position) :
    (Expr.bind id init body p).text.toList = '(' :: (Keyword.binding.spelling.toList ++ ' ' ::
      (id.toList ++ ' ' :: (Operator.assign.spelling.toList ++ ' ' :: (init.text.toList ++ ' ' ::
        (Keyword.within.spelling.toList ++ ' ' :: (body.text.toList ++ [')'])))))) := by
  have htext : (Expr.bind id init body p).text =
      "(var " ++ id ++ " = " ++ init.text ++ " in " ++ body.text ++ ")" := by rw [Expr.text]; rfl
  simp [htext, Keyword.spelling, Operator.spelling]

theorem toList_binary_text (op : Operator) (x y : Expr) (p : Position) :
    (Expr.binary op x y p).text.toList = '(' :: (x.text.toList ++ ' ' ::
      (op.spelling.toList ++ ' ' :: (y.text.toList ++ [')']))) := by
  have htext : (Expr.binary op x y p).text =
      "(" ++ x.text ++ " " ++ op.spelling ++ " " ++ y.text ++ ")" := by rw [Expr.text]; rfl
  simp [htext]

theorem toList_call_text (f : String) (args : List Expr) (p : Position) :
    (Expr.call f args p).text.toList = f.toList ++ '(' :: ((argumentsText args).toList ++ [')']) := by
  have htext : (Expr.call f args p).text = f ++ "(" ++ argumentsText args ++ ")" := by
    rw [Expr.text]; rfl
  simp [htext]

theorem toList_argumentsText_cons (e e' : Expr) (es : List Expr) :
    (argumentsText (e :: e' :: es)).toList =
      e.text.toList ++ ',' :: ' ' :: (argumentsText (e' :: es)).toList := by
  have htext : argumentsText (e :: e' :: es) = e.text ++ ", " ++ argumentsText (e' :: es) := by
    simp only [argumentsText]; rfl
  simp [htext]

mutual

/-- A printed expression is read as its tokens, before anything that does not go on with a word. -/
theorem Lexes.expr {cs : List Char} {ts : List Token} (e : Expr) (he : e.isSource = true)
    (hb : Breaks cs) (h : Lexes cs ts) : Lexes (e.text.toList ++ cs) (e.tokens ++ ts) := by
  cases e with
  | integer v p =>
    simp only [Expr.isSource, decide_eq_true_eq] at he
    simpa [Expr.text, Expr.tokens] using h.integer he hb
  | float v p =>
    simp only [Expr.isSource, Bool.and_eq_true, Bool.not_eq_true'] at he
    simpa [Expr.text, Expr.tokens] using h.float he.1 he.2 hb
  | name id p =>
    simp only [Expr.isSource] at he
    simpa [Expr.text, Expr.tokens, Token.ofName] using h.name he hb
  | bind id init body p =>
    simp only [Expr.isSource, Bool.and_eq_true] at he
    obtain ⟨⟨hid, hi⟩, hbody⟩ := he
    -- from the back, since a part is read as it is because of what follows it
    have hbody := Lexes.expr body hbody (breaks_cons (by simp)) h.closeParen
    have hin := hbody.space.keyword .within (breaks_cons (by simp))
    have hinit := Lexes.expr init hi (breaks_cons (by simp)) hin.space
    have hassign := hinit.space.operator (show Operator.assign ∈ Operator.all by decide) (.inr (by simp))
    have hname := hassign.space.name hid (breaks_cons (by simp))
    have hvar := hname.space.keyword .binding (breaks_cons (by simp))
    rw [toList_bind_text]
    simpa [Expr.tokens, Token.ofOperator, Token.ofKeyword, Token.ofName, Token.openParen,
      Token.closeParen] using hvar.openParen
  | unary op x p =>
    simp only [Expr.isSource, Bool.and_eq_true] at he
    have hx := Lexes.expr x he.2 hb h
    have hop := hx.operator (Operator.mem_all_of_isSign he.1) (.inl he.1)
    simpa [Expr.text, Expr.tokens, Token.ofOperator] using hop
  | binary op x y p =>
    simp only [Expr.isSource, Bool.and_eq_true] at he
    obtain ⟨⟨hop, hx⟩, hy⟩ := he
    have hright := Lexes.expr y hy (breaks_cons (by simp)) h.closeParen
    have hoperator := hright.space.operator (Operator.mem_all_of_precedence? hop) (.inr (by simp))
    have hleft := Lexes.expr x hx (breaks_cons (by simp)) hoperator.space
    rw [toList_binary_text]
    simpa [Expr.tokens, Token.ofOperator, Token.openParen, Token.closeParen] using hleft.openParen
  | call f args p =>
    simp only [Expr.isSource, Bool.and_eq_true] at he
    have hargs := Lexes.arguments args he.2 (breaks_cons (by simp)) h.closeParen
    have hcallee := hargs.openParen.name he.1 (breaks_cons (by simp))
    rw [toList_call_text]
    simpa [Expr.tokens, Token.ofName, Token.openParen, Token.closeParen] using hcallee
  | missing => cases he

theorem Lexes.arguments {cs : List Char} {ts : List Token} (es : List Expr) (hes : areSource es = true)
    (hb : Breaks cs) (h : Lexes cs ts) :
    Lexes ((argumentsText es).toList ++ cs) (argumentTokens es ++ ts) := by
  match es with
  | [] => simpa [argumentsText, argumentTokens] using h
  | [e] =>
    simp only [areSource, Bool.and_true] at hes
    simpa [argumentsText, argumentTokens] using Lexes.expr e hes hb h
  | e :: e' :: es =>
    rw [areSource, Bool.and_eq_true] at hes
    have hrest := Lexes.arguments (e' :: es) hes.2 hb h
    have hfirst := Lexes.expr e hes.1 (breaks_cons (by simp)) hrest.space.comma
    rw [toList_argumentsText_cons]
    simpa [argumentTokens, Token.comma] using hfirst

end

/-! ## Printed programs -/

/-- The tokens of a prototype. -/
def Prototype.tokens (p : Prototype) : List Token :=
  .ofName p.name :: .openParen :: (p.params.map .ofName ++ [.closeParen])

/-- The tokens of an item. -/
def Item.tokens : Item → List Token
  | external p _ => .ofKeyword .external :: p.tokens
  | define p body _ =>
    if p.isAnonymous then body.tokens else .ofKeyword .define :: (p.tokens ++ body.tokens)
  | evaluate body _ => body.tokens

/-- The tokens of a printed program. -/
def programTokens (items : List Item) : List Token :=
  [Token.semicolon].intercalate (items.map Item.tokens)

namespace Lexes

variable {cs : List Char} {ts : List Token}

theorem names {ids : List String} (hids : ∀ id ∈ ids, isName id = true) (hb : Breaks cs)
    (h : Lexes cs ts) :
    Lexes ((" ".intercalate ids).toList ++ cs) (ids.map .ofName ++ ts) := by
  induction ids with
  | nil => simpa using h
  | cons id ids ih =>
    obtain ⟨hid, hids⟩ := List.forall_mem_cons.1 hids
    cases ids with
    | nil => simpa [Token.ofName] using h.name hid hb
    | cons id' ids =>
      have hrest := (ih hids).space.name hid (breaks_cons (by simp))
      simpa [String.intercalate_cons_cons, Token.ofName] using hrest

theorem prototype {p : Prototype} (hp : p.isSource = true) (h : Lexes cs ts) :
    Lexes (p.text.toList ++ cs) (p.tokens ++ ts) := by
  simp only [Prototype.isSource, Bool.and_eq_true, List.all_eq_true] at hp
  have hparams := names hp.2 (breaks_cons (by simp)) h.closeParen
  have hname := hparams.openParen.name hp.1 (breaks_cons (by simp))
  simpa [Prototype.text, Prototype.tokens, Token.ofName, Token.openParen, Token.closeParen] using hname

theorem item {i : Item} (hi : i.isSource = true) (hb : Breaks cs) (h : Lexes cs ts) :
    Lexes (i.text.toList ++ cs) (i.tokens ++ ts) := by
  cases i with
  | external p pos =>
    have hextern := (prototype hi h).space.keyword .external (breaks_cons (by simp))
    simpa [Item.text, Item.tokens, Token.ofKeyword, Keyword.spelling] using hextern
  | define p body pos =>
    simp only [Item.isSource, Bool.and_eq_true, Bool.or_eq_true] at hi
    obtain ⟨hp, hbody⟩ := hi
    have hbody := expr body hbody hb h
    by_cases ha : p.isAnonymous = true
    · simpa [Item.text, Item.tokens, ha] using hbody
    · have hp : p.isSource = true := hp.resolve_right fun hempty => ha hempty.1
      have hdef := (prototype hp hbody.space).space.keyword .define (breaks_cons (by simp))
      have htext : (Item.define p body pos).text = "def " ++ p.text ++ " " ++ body.text := if_neg ha
      simpa [htext, Item.tokens, ha, Token.ofKeyword, Keyword.spelling] using hdef
  | evaluate body pos => exact expr body hi hb h

/-- A printed program is read as its tokens. -/
theorem program {items : List Item} (hitems : ∀ i ∈ items, i.isSource = true) :
    Lexes (programText (items.map Item.text)).toList (programTokens items) := by
  unfold programText programTokens
  induction items with
  | nil => exact .nil
  | cons i items ih =>
    obtain ⟨hi, hitems⟩ := List.forall_mem_cons.1 hitems
    cases items with
    | nil => simpa using item hi (by simp [Breaks]) .nil
    | cons i' items =>
      have hrest := ((ih hitems).blank (c := '\n') (by decide) (by decide)).semicolon
      have hfirst := item hi (breaks_cons (by simp)) hrest
      simpa [String.intercalate_cons_cons, List.intercalate_cons_cons, Token.semicolon] using hfirst

end Lexes

/-! ## Trees without their places -/

mutual

/-- A tree without its places. -/
def Expr.unplaced : Expr → Expr
  | .integer v _ => .integer v .unknown
  | .float v _ => .float v .unknown
  | .name id _ => .name id .unknown
  | .bind id init body _ => .bind id init.unplaced body.unplaced .unknown
  | .unary op x _ => .unary op x.unplaced .unknown
  | .binary op x y _ => .binary op x.unplaced y.unplaced .unknown
  | .call f args _ => .call f (unplacedAll args) .unknown
  | .missing => .missing

/-- Trees without their places. -/
def unplacedAll : List Expr → List Expr
  | [] => []
  | e :: es => e.unplaced :: unplacedAll es

end

/-- A prototype without its place. -/
def Prototype.unplaced (p : Prototype) : Prototype := { p with pos := .unknown }

theorem Prototype.isAnonymous_unplaced (p : Prototype) : p.unplaced.isAnonymous = p.isAnonymous := rfl

/-- A function without name and parameters is the expression to be evaluated that it stands for. -/
def Item.unplaced : Item → Item
  | external p _ => .external p.unplaced .unknown
  | define p body _ =>
    if p.isAnonymous && p.params.isEmpty then .evaluate body.unplaced .unknown
    else .define p.unplaced body.unplaced .unknown
  | evaluate body _ => .evaluate body.unplaced .unknown

/-! ## Tokens of a printed tree -/

/-- What may follow a whole expression: nothing that goes on with it. -/
structure Ends (ts : List Token) : Prop where
  opensParen : ∀ u, Ahead u ts → u.opensParen = false
  operator? : ∀ u, Ahead u ts → u.operator? = none

theorem ends_nil : Ends [] := by
  have hk {u : Token} (hu : Ahead u []) : u.kind = .endOfInput := of_decide_eq_true hu
  refine ⟨fun u hu => Token.opensParen_of_kind ?_, fun u hu => if_neg ?_⟩ <;> simp [hk hu]

theorem ends_cons {t u : Token} {ts : List Token} (h : u.unplaced = t)
    (ht : t.opensParen = false ∧ t.operator? = none) : Ends (u :: ts) := by
  subst h
  constructor <;> rintro v rfl
  · exact ht.1
  · exact ht.2

namespace Token

variable {t : Token}

theorem opensParen_of_unplaced (h : t.unplaced = openParen) : t.opensParen = true :=
  (congrArg opensParen h).trans (by decide)

theorem closesParen_of_unplaced (h : t.unplaced = closeParen) : t.closesParen = true :=
  (congrArg closesParen h).trans (by decide)

theorem isKeyword_of_unplaced {k : Keyword} (h : t.unplaced = ofKeyword k) : t.isKeyword k = true :=
  (congrArg (isKeyword · k) h).trans (by cases k <;> decide)

theorem operator?_of_unplaced {op : Operator} (h : t.unplaced = ofOperator op)
    (hop : op ∈ Operator.all) : t.operator? = some op := by
  refine (congrArg operator? h).trans ?_
  simp only [Operator.all, List.mem_cons, List.not_mem_nil, or_false] at hop
  rcases hop with rfl | rfl | rfl | rfl | rfl | rfl | rfl | rfl | rfl | rfl | rfl <;> decide

theorem kind_of_unplaced {id : String} (h : t.unplaced = ofName id) :
    t.kind = .identifier ∧ t.text = id := ⟨congrArg kind h, congrArg text h⟩

end Token

/-- The first token of a printed expression starts no other construct. -/
theorem Expr.tokens_head {e : Expr} (he : e.isSource = true) :
    ∃ t ts, e.tokens = t :: ts ∧ t.closesParen = false ∧ t.isBoundary = false := by
  cases e with
  | integer v p => exact ⟨_, _, rfl, rfl, rfl⟩
  | float v p => exact ⟨_, _, rfl, rfl, rfl⟩
  | name id p => exact ⟨_, _, rfl, rfl, rfl⟩
  | bind id init body p => exact ⟨_, _, rfl, by decide, by decide⟩
  | unary op x p => exact ⟨_, _, rfl, rfl, rfl⟩
  | binary op x y p => exact ⟨_, _, rfl, by decide, by decide⟩
  | call f args p => exact ⟨_, _, rfl, rfl, rfl⟩
  | missing => cases he

theorem argumentTokens_head {e : Expr} {es : List Expr} (h : areSource (e :: es) = true) :
    ∃ t ts, argumentTokens (e :: es) = t :: ts ∧ t.closesParen = false := by
  rw [areSource, Bool.and_eq_true] at h
  obtain ⟨t, ts, ht, hclose, -⟩ := Expr.tokens_head h.1
  cases es with
  | nil => exact ⟨t, ts, ht, hclose⟩
  | cons e' es =>
    exact ⟨t, ts ++ .comma :: argumentTokens (e' :: es), by simp [argumentTokens, ht], hclose⟩

namespace Reading

variable {ε : Type} {c : Cursor ε} {rest : List Token}

/-! ## Expressions read back -/

/-- An operand before no operator is a whole expression. -/
theorem succeeds_expression_unary {P : Expr → Prop} (hu : Succeeds (unary c) rest P)
    (ho : ∀ u, Ahead u rest → u.operator? = none) : Succeeds (expression c) rest P := by
  rw [expression_eq]
  refine hu.bind fun e c₁ hc₁ he => ?_
  rw [operators_eq]
  refine .look hc₁ fun u c₂ hu hc₂ _ => ?_
  simp only [ho u hu]
  exact .pure hc₂ he

/-- Two operands with an operator between them, before no other operator, are a whole expression. -/
theorem succeeds_expression_binary {P Q : Expr → Prop} {t : Token} {ts : List Token} {op : Operator}
    (hx : Succeeds (unary c) (t :: ts) P) (ht : t.operator? = some op) (ha : op ≠ .assign)
    (hy : ∀ c' : Cursor ε, c'.Reads ts → Succeeds (unary c') rest Q)
    (ho : ∀ u, Ahead u rest → u.operator? = none) :
    Succeeds (expression c) rest fun e => ∃ x y, P x ∧ Q y ∧ e = .binary op x y t.pos := by
  obtain ⟨prec, hprec, hlevel⟩ := Token.precedence?_of_operator? ht ha
  rw [expression_eq]
  refine hx.bind fun x c₁ hc₁ hPx => ?_
  rw [operators_eq]
  refine .look hc₁ fun u c₂ hu hc₂ hskip => ?_
  cases hu
  simp only [ht, hprec]
  rw [if_neg (by omega)]
  refine .skip ((hy _ (hskip hc₁.isEnd)).bind fun y c₃ hc₃ hQy => ?_)
  refine .look hc₃ fun u c₄ hu hc₄ _ => ?_
  have hnone : prec.rightLevel? u = none := by simp [Precedence.rightLevel?, ho u hu]
  simp only [hnone]
  rw [operators_eq]
  refine .look hc₄ fun u c₅ hu hc₅ _ => ?_
  simp only [ho u hu]
  exact .pure hc₅ ⟨x, y, hPx, hQy, rfl⟩

/-- A token that is no operator starts an operand without a sign. -/
theorem succeeds_unary_of_kind {P : Expr → Prop} {t : Token} {ts : List Token} (ht : t.kind ≠ .operator)
    (hc : c.Reads (t :: ts)) (hp : ∀ c' : Cursor ε, c'.Reads (t :: ts) → Succeeds (primary c') rest P) :
    Succeeds (unary c) rest P := by
  refine succeeds_unary hc ?_ hp
  rintro u rfl
  exact if_neg ht

/-- A whole expression in parentheses is an operand. -/
theorem succeeds_unary_paren {P : Expr → Prop} {l r : Token} {ts : List Token}
    (hl : l.unplaced = .openParen) (hr : r.unplaced = .closeParen) (hc : c.Reads (l :: ts))
    (he : ∀ c' : Cursor ε, c'.Reads ts → Succeeds (expression c') (r :: rest) P) :
    Succeeds (unary c) rest P := by
  have hopens := Token.opensParen_of_unplaced hl
  refine succeeds_unary_of_kind (by simp [Token.kind_of_opensParen hopens]) hc fun c₁ hc₁ => ?_
  exact succeeds_paren hopens (Token.closesParen_of_unplaced hr) hc₁ he

/-- The tokens of an expression are read as one operand, which is the expression, places aside. -/
def ReadsBack (ε : Type) (e : Expr) : Prop :=
  ∀ ⦃us rest : List Token⦄ ⦃c : Cursor ε⦄, us.map Token.unplaced = e.tokens →
    (∀ u, Ahead u rest → u.opensParen = false) → c.Reads (us ++ rest) →
    Succeeds (unary c) rest (·.unplaced = e.unplaced)

/-- The tokens of arguments are read up to the parenthesis after them. -/
def ReadBack (ε : Type) (es : List Expr) : Prop :=
  ∀ ⦃us rest : List Token⦄ ⦃r : Token⦄ ⦃c : Cursor ε⦄, us.map Token.unplaced = argumentTokens es →
    r.unplaced = .closeParen → c.Reads (us ++ r :: rest) →
    Succeeds (arguments c) rest (unplacedAll · = unplacedAll es)

theorem ReadsBack.expression {e : Expr} (h : ReadsBack ε e) {us : List Token}
    (hus : us.map Token.unplaced = e.tokens) (hends : Ends rest) (hc : c.Reads (us ++ rest)) :
    Succeeds (expression c) rest (·.unplaced = e.unplaced) :=
  succeeds_expression_unary (h hus hends.opensParen hc) hends.operator?

/-! One lemma for each kind of expression. -/

theorem readsBack_integer {v : Int64} (p : Position) (hv : 0 ≤ v) : ReadsBack ε (.integer v p) := by
  intro us rest c hus _ hc
  obtain ⟨t, us, rfl, ht, hus⟩ := List.map_eq_cons_iff.1 hus
  cases List.map_eq_nil_iff.1 hus
  have hk : t.kind = .integer := congrArg Token.kind ht
  have htext : t.text = toString v := congrArg Token.text ht
  obtain ⟨-, -, hread⟩ := Numeral.int64?_toString hv
  refine succeeds_unary_of_kind (by simp [hk]) hc fun c₁ hc₁ => ?_
  refine (succeeds_integer hk (htext ▸ hread) hc₁).imp ?_
  rintro _ rfl
  rfl

theorem readsBack_float {x : Binary64} (p : Position) (hx : x.isFinite = true)
    (hs : x.isNegative = false) : ReadsBack ε (.float x p) := by
  intro us rest c hus _ hc
  obtain ⟨t, us, rfl, ht, hus⟩ := List.map_eq_cons_iff.1 hus
  cases List.map_eq_nil_iff.1 hus
  have hk : t.kind = .float := congrArg Token.kind ht
  have htext : t.text = x.text := congrArg Token.text ht
  obtain ⟨-, -, -, hread⟩ := Binary64.text_eq hx hs
  refine succeeds_unary_of_kind (by simp [hk]) hc fun c₁ hc₁ => ?_
  refine (succeeds_float hk (htext ▸ hread) hc₁).imp ?_
  rintro _ rfl
  rfl

theorem readsBack_name (id : String) (p : Position) : ReadsBack ε (.name id p) := by
  intro us rest c hus hp hc
  obtain ⟨t, us, rfl, ht, hus⟩ := List.map_eq_cons_iff.1 hus
  cases List.map_eq_nil_iff.1 hus
  obtain ⟨hk, htext⟩ := Token.kind_of_unplaced ht
  refine succeeds_unary_of_kind (by simp [hk]) hc fun c₁ hc₁ => ?_
  refine (succeeds_name hk hc₁ hp).imp ?_
  rintro _ rfl
  rw [htext]
  rfl

theorem readsBack_unary {op : Operator} {x : Expr} (p : Position) (hop : op.isSign = true)
    (hx : ReadsBack ε x) : ReadsBack ε (.unary op x p) := by
  intro us rest c hus hp hc
  obtain ⟨t, us, rfl, ht, hus⟩ := List.map_eq_cons_iff.1 hus
  have hsign := Token.operator?_of_unplaced ht (Operator.mem_all_of_isSign hop)
  refine (succeeds_sign hsign hop hc fun c₁ hc₁ => hx hus hp hc₁).imp ?_
  rintro _ ⟨x', hx', rfl⟩
  simp only [Expr.unplaced, hx']

theorem readsBack_binary {op : Operator} {x y : Expr} (p : Position)
    (hop : op.precedence?.isSome = true) (hx : ReadsBack ε x) (hy : ReadsBack ε y) :
    ReadsBack ε (.binary op x y p) := by
  intro us rest c hus _ hc
  obtain ⟨l, us, rfl, hl, hus⟩ := List.map_eq_cons_iff.1 hus
  obtain ⟨xs, us, rfl, hxs, hus⟩ := List.map_eq_append_iff.1 hus
  obtain ⟨t, us, rfl, ht, hus⟩ := List.map_eq_cons_iff.1 hus
  obtain ⟨ys, us, rfl, hys, hus⟩ := List.map_eq_append_iff.1 hus
  obtain ⟨r, us, rfl, hr, hus⟩ := List.map_eq_cons_iff.1 hus
  cases List.map_eq_nil_iff.1 hus
  have hoperator := Token.operator?_of_unplaced ht (Operator.mem_all_of_precedence? hop)
  have hassign : op ≠ .assign := by
    rintro rfl
    cases hop
  have hends : Ends (r :: rest) := ends_cons hr (by decide)
  refine succeeds_unary_paren hl hr (by simpa using hc) fun c' hc' => ?_
  -- the operator ends the left operand, and the parenthesis the right one
  have hleft : Succeeds (unary c') (t :: (ys ++ r :: rest)) (·.unplaced = x.unplaced) := by
    refine hx hxs ?_ (by simpa using hc')
    rintro u rfl
    exact Token.opensParen_of_kind (by simp [Token.kind_of_operator? hoperator])
  refine (succeeds_expression_binary hleft hoperator hassign
    (fun c₁ hc₁ => hy hys hends.opensParen hc₁) hends.operator?).imp ?_
  rintro _ ⟨x', y', hx', hy', rfl⟩
  simp only [Expr.unplaced, hx', hy']

theorem readsBack_bind (id : String) {init body : Expr} (p : Position) (hinit : ReadsBack ε init)
    (hbody : ReadsBack ε body) : ReadsBack ε (.bind id init body p) := by
  intro us rest c hus _ hc
  obtain ⟨l, us, rfl, hl, hus⟩ := List.map_eq_cons_iff.1 hus
  obtain ⟨v, us, rfl, hv, hus⟩ := List.map_eq_cons_iff.1 hus
  obtain ⟨t, us, rfl, ht, hus⟩ := List.map_eq_cons_iff.1 hus
  obtain ⟨a, us, rfl, ha, hus⟩ := List.map_eq_cons_iff.1 hus
  obtain ⟨xs, us, rfl, hxs, hus⟩ := List.map_eq_append_iff.1 hus
  obtain ⟨w, us, rfl, hw, hus⟩ := List.map_eq_cons_iff.1 hus
  obtain ⟨ys, us, rfl, hys, hus⟩ := List.map_eq_append_iff.1 hus
  obtain ⟨r, us, rfl, hr, hus⟩ := List.map_eq_cons_iff.1 hus
  cases List.map_eq_nil_iff.1 hus
  obtain ⟨hk, htext⟩ := Token.kind_of_unplaced ht
  have hvar := Token.isKeyword_of_unplaced hv
  have hassign := Token.operator?_of_unplaced ha (by decide)
  have hends : Ends (r :: rest) := ends_cons hr (by decide)
  have hafter (x : Expr) (c' : Cursor ε) (hx : x.unplaced = init.unplaced)
      (hc' : c'.Reads (w :: (ys ++ r :: rest))) :
      Succeeds (afterBinding t x c') (r :: rest)
        (·.unplaced = (Expr.bind id init body p).unplaced) := by
    refine (succeeds_afterBinding_body (Token.isKeyword_of_unplaced hw) hc'
      fun c₁ hc₁ => hbody.expression hys hends hc₁).imp ?_
    rintro _ ⟨body', hbody', rfl⟩
    simp only [Expr.unplaced, htext, hx, hbody']
  have hall : c.Reads (l :: v :: t :: a :: (xs ++ w :: (ys ++ r :: rest))) := by simpa using hc
  refine succeeds_unary_paren hl hr hall fun c₁ hc₁ => succeeds_expression_unary ?_ hends.operator?
  refine succeeds_unary_of_kind (by simp [Token.kind_of_isKeyword hvar]) hc₁ fun c₂ hc₂ => ?_
  refine succeeds_binding hvar hc₂ fun c₃ hc₃ => ?_
  exact succeeds_bindings_init hk hassign hc₃
    (fun c₄ hc₄ => hinit.expression hxs (ends_cons hw (by decide)) hc₄) hafter

theorem readsBack_call (f : String) {args : List Expr} (p : Position) (hs : areSource args = true)
    (hargs : args ≠ [] → ReadBack ε args) : ReadsBack ε (.call f args p) := by
  intro us rest c hus _ hc
  obtain ⟨t, us, rfl, ht, hus⟩ := List.map_eq_cons_iff.1 hus
  obtain ⟨l, us, rfl, hl, hus⟩ := List.map_eq_cons_iff.1 hus
  obtain ⟨as, us, rfl, has, hus⟩ := List.map_eq_append_iff.1 hus
  obtain ⟨r, us, rfl, hr, hus⟩ := List.map_eq_cons_iff.1 hus
  cases List.map_eq_nil_iff.1 hus
  obtain ⟨hk, htext⟩ := Token.kind_of_unplaced ht
  have hopens := Token.opensParen_of_unplaced hl
  have hall : c.Reads (t :: l :: (as ++ r :: rest)) := by simpa using hc
  refine succeeds_unary_of_kind (by simp [hk]) hall fun c₁ hc₁ => ?_
  cases args with
  | nil =>
    cases List.map_eq_nil_iff.1 has
    refine (succeeds_call_empty hk hopens (Token.closesParen_of_unplaced hr) hc₁).imp ?_
    rintro _ rfl
    simp only [Expr.unplaced, htext, unplacedAll]
  | cons e es =>
    -- the first argument does not close the parentheses at once
    have hfirst : ∀ u, Ahead u (as ++ r :: rest) → u.closesParen = false := by
      obtain ⟨a, as', hhead, ha⟩ := argumentTokens_head hs
      obtain ⟨a', as', rfl, rfl, -⟩ := List.map_eq_cons_iff.1 (has.trans hhead)
      rintro u rfl
      exact ha
    refine (succeeds_call hk hopens hc₁ hfirst fun c₂ hc₂ => hargs (by simp) has hr hc₂).imp ?_
    rintro _ ⟨es', hes', rfl⟩
    simp only [Expr.unplaced, htext, hes']

theorem readBack_last {e : Expr} (he : ReadsBack ε e) : ReadBack ε [e] := by
  intro us rest r c hus hr hc
  have hfirst := he.expression hus (ends_cons hr (by decide)) hc
  refine (succeeds_arguments_last hfirst (Token.closesParen_of_unplaced hr)).imp ?_
  rintro _ ⟨e', he', rfl⟩
  simp only [unplacedAll, he']

theorem readBack_cons {e e₁ : Expr} {es : List Expr} (he : ReadsBack ε e)
    (hes : ReadBack ε (e₁ :: es)) : ReadBack ε (e :: e₁ :: es) := by
  intro us rest r c hus hr hc
  obtain ⟨xs, us, rfl, hxs, hus⟩ := List.map_eq_append_iff.1 hus
  obtain ⟨m, us, rfl, hm, hus⟩ := List.map_eq_cons_iff.1 hus
  have hall : c.Reads (xs ++ m :: (us ++ r :: rest)) := by simpa using hc
  have hfirst := he.expression hxs (ends_cons hm (by decide)) hall
  refine (succeeds_arguments_cons hfirst (congrArg Token.kind hm)
    fun c₁ hc₁ => hes hus hr hc₁).imp ?_
  rintro _ ⟨e', es', he', hes', rfl⟩
  simp only [unplacedAll, he', hes']

mutual

theorem readsBack (e : Expr) (he : e.isSource = true) : ReadsBack ε e := by
  cases e with
  | integer v p => exact readsBack_integer p (of_decide_eq_true he)
  | float x p =>
    simp only [Expr.isSource, Bool.and_eq_true, Bool.not_eq_true'] at he
    exact readsBack_float p he.1 he.2
  | name id p => exact readsBack_name id p
  | bind id init body p =>
    simp only [Expr.isSource, Bool.and_eq_true] at he
    exact readsBack_bind id p (readsBack init he.1.2) (readsBack body he.2)
  | unary op x p =>
    simp only [Expr.isSource, Bool.and_eq_true] at he
    exact readsBack_unary p he.1 (readsBack x he.2)
  | binary op x y p =>
    simp only [Expr.isSource, Bool.and_eq_true] at he
    exact readsBack_binary p he.1.1 (readsBack x he.1.2) (readsBack y he.2)
  | call f args p =>
    simp only [Expr.isSource, Bool.and_eq_true] at he
    exact readsBack_call f p he.2 fun hne => readBack args he.2 hne
  | missing => cases he

theorem readBack (es : List Expr) (hes : areSource es = true) (hne : es ≠ []) : ReadBack ε es := by
  match es with
  | [] => exact absurd rfl hne
  | [e] =>
    simp only [areSource, Bool.and_true] at hes
    exact readBack_last (readsBack e hes)
  | e :: e₁ :: es =>
    rw [areSource, Bool.and_eq_true] at hes
    exact readBack_cons (readsBack e hes.1) (readBack (e₁ :: es) hes.2 (by simp))

end

/-! ## Programs read back -/

/-- Names without commas between them are a list of parameters. -/
theorem parameters_of_unplaced {ids : List String} {ps : List Token}
    (h : ps.map Token.unplaced = ids.map Token.ofName) :
    (ps ≠ [] → Grammar.Parameters ps) ∧ (ps.filter (·.kind = .identifier)).map Token.text = ids := by
  induction ids generalizing ps with
  | nil =>
    cases List.map_eq_nil_iff.1 h
    exact ⟨fun hne => absurd rfl hne, rfl⟩
  | cons id ids ih =>
    obtain ⟨t, ps, rfl, ht, hps⟩ := List.map_eq_cons_iff.1 h
    obtain ⟨hk, htext⟩ := Token.kind_of_unplaced ht
    obtain ⟨hgrammar, hnames⟩ := ih hps
    refine ⟨fun _ => ?_, by simp [hk, htext, hnames]⟩
    cases ps with
    | nil => exact .one hk
    | cons t' ps => exact .cons hk (hgrammar (by simp))

theorem succeeds_prototype_printed {p : Prototype} {us : List Token}
    (hus : us.map Token.unplaced = p.tokens) (hc : c.Reads (us ++ rest)) :
    Succeeds (prototype c) rest (·.unplaced = p.unplaced) := by
  obtain ⟨t, us, rfl, ht, hus⟩ := List.map_eq_cons_iff.1 hus
  obtain ⟨l, us, rfl, hl, hus⟩ := List.map_eq_cons_iff.1 hus
  obtain ⟨ps, us, rfl, hps, hus⟩ := List.map_eq_append_iff.1 hus
  obtain ⟨r, us, rfl, hr, hus⟩ := List.map_eq_cons_iff.1 hus
  cases List.map_eq_nil_iff.1 hus
  obtain ⟨hk, htext⟩ := Token.kind_of_unplaced ht
  have hcloses := Token.closesParen_of_unplaced hr
  have hparams (c' : Cursor ε) (hc' : c'.Reads (ps ++ r :: rest)) :
      Succeeds (parameters false c') rest (· = p.params) := by
    obtain ⟨hgrammar, hnames⟩ := parameters_of_unplaced hps
    by_cases hne : ps = []
    · subst hne
      exact (succeeds_parameters_nil hcloses hc').imp fun names h => h.trans hnames
    · exact (succeeds_parameters (hgrammar hne) hcloses false hc').imp fun names h => h.trans hnames
  have hall : c.Reads (t :: l :: (ps ++ r :: rest)) := by simpa using hc
  refine (succeeds_prototype hk (Token.opensParen_of_unplaced hl) hall hparams).imp ?_
  rintro _ ⟨names, rfl, rfl⟩
  simp only [Prototype.unplaced, htext]

theorem succeeds_item_printed {i : Item} (hi : i.isSource = true) {us : List Token}
    (hus : us.map Token.unplaced = i.tokens) (hends : Ends rest) (hc : c.Reads (us ++ rest)) :
    Succeeds (item c) rest fun o => ∃ x, x.unplaced = i.unplaced ∧ o = some x := by
  have hevaluate {body : Expr} (hbody : body.isSource = true)
      (hus : us.map Token.unplaced = body.tokens) :
      Succeeds (item c) rest fun o => ∃ x, x.unplaced = .evaluate body.unplaced .unknown ∧ o = some x := by
    obtain ⟨t, ts, htokens, -, ht⟩ := Expr.tokens_head hbody
    obtain ⟨u, us, rfl, rfl, -⟩ := List.map_eq_cons_iff.1 (hus.trans htokens)
    have hu : u.isBoundary = false := ht
    refine (succeeds_item_evaluate hu hc fun c₁ hc₁ =>
      (readsBack body hbody).expression hus hends hc₁).imp ?_
    rintro _ ⟨_, ⟨e, he, rfl⟩, rfl⟩
    exact ⟨_, by rw [Item.unplaced, he], rfl⟩
  cases i with
  | external p pos =>
    obtain ⟨t, us, rfl, ht, hus⟩ := List.map_eq_cons_iff.1 hus
    refine (succeeds_item_external (Token.isKeyword_of_unplaced ht) hc fun c₁ hc₁ =>
      succeeds_prototype_printed hus hc₁).imp ?_
    rintro _ ⟨_, ⟨p', hp', rfl⟩, rfl⟩
    exact ⟨_, by rw [Item.unplaced, hp', Item.unplaced], rfl⟩
  | define p body pos =>
    simp only [Item.isSource, Bool.and_eq_true, Bool.or_eq_true] at hi
    obtain ⟨hp, hbody⟩ := hi
    by_cases ha : p.isAnonymous = true
    · have hempty : p.params.isEmpty = true := by
        refine (hp.resolve_left fun hp => ?_).2
        rw [Prototype.isAnonymous_of_isSource hp] at ha
        cases ha
      rw [Item.tokens, if_pos ha] at hus
      rw [Item.unplaced, ha, hempty]
      exact hevaluate hbody hus
    · rw [Item.tokens, if_neg ha] at hus
      obtain ⟨t, us, rfl, ht, hus⟩ := List.map_eq_cons_iff.1 hus
      obtain ⟨ps, us, rfl, hps, hus⟩ := List.map_eq_append_iff.1 hus
      have hall : c.Reads (t :: (ps ++ (us ++ rest))) := by simpa using hc
      refine (succeeds_item_define (Token.isKeyword_of_unplaced ht) hall
        (fun c₁ hc₁ => succeeds_prototype_printed hps hc₁)
        fun c₁ hc₁ => (readsBack body hbody).expression hus hends hc₁).imp ?_
      rintro _ ⟨_, ⟨p', body', hp', hbody', rfl⟩, rfl⟩
      have hsame : p'.isAnonymous = p.isAnonymous := by
        rw [← Prototype.isAnonymous_unplaced, hp', Prototype.isAnonymous_unplaced]
      exact ⟨_, by simp [Item.unplaced, hsame, ha, hp', hbody'], rfl⟩
  | evaluate body pos => exact hevaluate hi hus

/-- The tokens of a printed program are read as its items. -/
theorem program_printed {items : List Item} (hitems : ∀ i ∈ items, i.isSource = true) {us : List Token}
    (hus : us.map Token.unplaced = programTokens items) (hc : c.Reads us) :
    ∃ parsed, Parse.program c = .ok parsed ∧ parsed.map Item.unplaced = items.map Item.unplaced := by
  unfold programTokens at hus
  induction items generalizing us c with
  | nil =>
    cases List.map_eq_nil_iff.1 hus
    exact ⟨[], program_nil hc, rfl⟩
  | cons i items ih =>
    obtain ⟨hi, hitems⟩ := List.forall_mem_cons.1 hitems
    cases items with
    | nil =>
      rw [List.map_singleton, List.intercalate_singleton] at hus
      obtain ⟨x, c', hx, hc', hprogram⟩ :=
        program_cons (succeeds_item_printed hi hus ends_nil (by simpa using hc))
      refine ⟨[x], by rw [hprogram, program_nil hc']; rfl, by simp [hx]⟩
    | cons i' items =>
      -- the semicolon ends the first item, and is passed over before the others
      rw [List.map_cons, List.map_cons, List.intercalate_cons_cons, List.append_assoc] at hus
      obtain ⟨xs, us, rfl, hxs, hus⟩ := List.map_eq_append_iff.1 hus
      obtain ⟨s, us, rfl, hs, hus⟩ := List.map_eq_cons_iff.1 hus
      obtain ⟨x, c', hx, hc', hprogram⟩ :=
        program_cons (succeeds_item_printed hi hxs (ends_cons hs (by decide)) hc)
      have hk : s.kind = .semicolon := congrArg Token.kind hs
      obtain ⟨c₁, hc₁, hskip⟩ := program_semicolon hk hc'
      obtain ⟨parsed, hparsed, hsame⟩ := ih hitems hus hc₁
      refine ⟨x :: parsed, by rw [hprogram, hskip, hparsed]; rfl, ?_⟩
      rw [List.map_cons, hsame, hx]
      rfl

end Reading

namespace Parse

/-- A printed program is read back as the same program, places aside. -/
theorem program_programText {items : List Item} (h : ∀ i ∈ items, i.isSource = true) :
    ∃ parsed, program (.ofStream (.ofString (programText (items.map Item.text)))) = .ok parsed ∧
      parsed.map Item.unplaced = items.map Item.unplaced := by
  obtain ⟨us, hanswers, hus, hsound⟩ := TokenStream.ofString_of_lexes (Lexes.program h)
  refine Reading.program_printed h hus ?_
  unfold Cursor.ofStream
  rw [hanswers]
  exact .fresh hsound

/-- Signs before signs, a binding as an operand, an operation as an argument. -/
def nested : List Item :=
  [.external ⟨"sin", ["x"], .unknown⟩ .unknown,
    .define ⟨"f", ["a", "b"], .unknown⟩
      (.binary .mul
        (.bind "t" (.unary .sub (.float ⟨0x3FB999999999999A⟩ .unknown) .unknown)
          (.binary .lessEqual (.name "t" .unknown) (.integer 7 .unknown) .unknown) .unknown)
        (.call "sin" [.name "a" .unknown,
          .binary .pow (.name "b" .unknown) (.call "f" [] .unknown) .unknown] .unknown) .unknown) .unknown,
    .define ⟨"", [], .unknown⟩
      (.unary .sub (.unary .add (.float ⟨0x4415AF1D78B58C40⟩ .unknown) .unknown) .unknown) .unknown]

theorem program_programText_nested :
    programText (nested.map Item.text) = "extern sin(x);\n" ++
      "def f(a b) ((var t = -0.1 in (t <= 7)) * sin(a, (b ^ f())));\n" ++ "-+1e+20" ∧
    (∀ i ∈ nested, i.isSource = true) ∧
    ∃ parsed, program (.ofStream (.ofString (programText (nested.map Item.text)))) = .ok parsed ∧
      parsed.map Item.unplaced = nested.map Item.unplaced :=
  ⟨by decide +kernel, by decide +kernel, program_programText (by decide +kernel)⟩

end Parse

end ScalarLang
