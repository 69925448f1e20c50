import ScalarLang.Tree.Recovery
/-!
# The grammar functions as actions on a cursor

`Parse.expression` and its companions carry the sizes of cursors, which is why they end; here each of
them is an action that answers or fails and leaves a cursor, and one equation says what it does in terms
of the others. Proofs about reading use these equations and never the sizes, unless they have to end
themselves.
-/
namespace ScalarLang

/-- An action that reads from a cursor. -/
abbrev Reading (ε : Type) := EStateM (Failure ε) (Cursor ε)

variable {ε α β : Type}

namespace Cursor

theorem lookahead_peek {c c' : Cursor ε} {t : Token} (h : c.peek = (.ok t, c')) :
    c'.lookahead = some t := by
  obtain ⟨l, cs, p⟩ := c
  rcases l with _ | u
  · rcases cs with _ | ⟨e | u, cs⟩ <;> simp only [peek, Prod.mk.injEq, Except.ok.injEq] at h
    · obtain ⟨rfl, rfl⟩ := h; rfl
    · exact absurd h.1 (by simp)
    · obtain ⟨rfl, rfl⟩ := h; rfl
  · simp only [peek, Prod.mk.injEq, Except.ok.injEq] at h
    obtain ⟨rfl, rfl⟩ := h; rfl

end Cursor

/-- An outcome without its size. -/
def Parsed.outcome {n : Nat} (p : Parsed ε α n) : EStateM.Result (Failure ε) (Cursor ε) α :=
  match p.result with
  | .ok a => .ok a p.cursor
  | .error e => .error e p.cursor

namespace Parsed

variable {m n : Nat}

@[simp] theorem outcome_done (a : α) (c : Cursor ε) (h : c.size ≤ n) :
    (Parsed.done a c h).outcome = .ok a c := rfl

@[simp] theorem outcome_fail (f : Failure ε) (c : Cursor ε) (h : c.size ≤ n) :
    (Parsed.fail f c h : Parsed ε α n).outcome = .error f c := rfl

theorem size_of_outcome {p : Parsed ε α n} {a : α} {c : Cursor ε} (h : p.outcome = .ok a c) :
    c.size ≤ n := by
  unfold outcome at h
  split at h
  · cases h; exact p.size_le
  · cases h

theorem outcome_andThen (p : Parsed ε α m) (h : m ≤ n)
    (f : α → (c : Cursor ε) → c.size ≤ m → Parsed ε β n) (g : α → Reading ε β)
    (hfg : ∀ a c hc, (f a c hc).outcome = g a c) :
    (p.andThen h f).outcome = ((fun _ => p.outcome : Reading ε α) >>= g) p.cursor := by
  obtain ⟨r, c, hc⟩ := p
  cases r with
  | ok a => exact hfg a c hc
  | error e => rfl

end Parsed

namespace Reading

/-! ## Moves of the cursor -/

/-- The token in the lookahead. -/
def look : Reading ε Token := fun c =>
  match c.peek with
  | (.ok t, c') => .ok t c'
  | (.error e, c') => .error (.stream e) c'

/-- The next token, taken. -/
def take : Reading ε Token := fun c =>
  match c.next with
  | (.ok t, c') => .ok t c'
  | (.error e, c') => .error (.stream e) c'

/-- Gives up the token in the lookahead. -/
def skip : Reading ε Unit := fun c => .ok () c.skip

/-- Takes the next token if it has the property `p`, and tells whether it has. -/
def accept (p : Token → Bool) : Reading ε Bool := fun c => .ok (c.consume p).1 (c.consume p).2

/-- Puts a token back. -/
def unread (t : Token) : Reading ε Unit := fun c =>
  match c.unread? t with
  | some c' => .ok () c'
  | none => .error .overfull c

/-- Stops at a token that was taken where the grammar asks for something else. -/
def refuse (wanted : Expectation) (t : Token) : Reading ε α := fun c =>
  .error (c.refuse wanted t).1 (c.refuse wanted t).2

theorem look_of_peek {c c' : Cursor ε} {t : Token} (h : c.peek = (.ok t, c')) : look c = .ok t c' := by
  simp [look, h]

theorem peek_of_look {c c' : Cursor ε} {t : Token} (h : look c = .ok t c') : c.peek = (.ok t, c') := by
  unfold look at h
  split at h
  · rename_i hp; cases h; exact hp
  · cases h

theorem look_of_peek_error {c c' : Cursor ε} {e : ε} (h : c.peek = (.error e, c')) :
    look c = .error (.stream e) c' := by simp [look, h]

theorem look_of_lookahead {c : Cursor ε} {t : Token} (h : c.lookahead = some t) :
    look c = .ok t c :=
  look_of_peek (Cursor.peek_of_lookahead h)

theorem take_of_look {c c' : Cursor ε} {t : Token} (h : look c = .ok t c') :
    take c = .ok t (if t.isEnd then c' else c'.skip) := by
  simp [take, Cursor.next, peek_of_look h]

theorem take_of_look_error {c c' : Cursor ε} {e : Failure ε} (h : look c = .error e c') :
    take c = .error e c' := by
  unfold look at h
  split at h
  · cases h
  · rename_i hp; cases h; simp [take, Cursor.next, hp]

/-- Refusing a boundary that was just taken puts it back where it was looked at, and refusing any
other token leaves it taken. There is always room for the token. -/
theorem refuse_take {c c' : Cursor ε} {t : Token} (wanted : Expectation) (h : look c = .ok t c') :
    (refuse wanted t : Reading ε α) (if t.isEnd then c' else c'.skip) =
      .error (.grammar ⟨.unexpected wanted, t⟩) (if t.isBoundary then c' else c'.skip) := by
  have hl := Cursor.lookahead_peek (peek_of_look h)
  unfold refuse Cursor.refuse
  cases hb : t.isBoundary with
  | false => simp [Parse.isEnd_of_isBoundary hb]
  | true =>
    obtain ⟨l, cs, p⟩ := c'
    simp only at hl
    subst hl
    cases he : t.isEnd <;> simp [Cursor.unread?, Cursor.held, Cursor.skip, he]

theorem unread_skip {c : Cursor ε} {t : Token} (h : c.lookahead = some t) :
    unread t c.skip = .ok () c := by
  obtain ⟨l, cs, p⟩ := c
  simp only at h
  subst h
  rfl

theorem size_look_le {c c' : Cursor ε} {t : Token} (h : look c = .ok t c') : c'.size ≤ c.size := by
  simpa [peek_of_look h] using c.size_peek_le

theorem size_skip_look_lt {c c' : Cursor ε} {t : Token} (h : look c = .ok t c')
    (ht : t.isEnd = false) : c'.skip.size < c.size :=
  Cursor.size_skip_peek_lt (peek_of_look h) ht

theorem size_look_error_lt {c c' : Cursor ε} {e : Failure ε} (h : look c = .error e c') :
    c'.size < c.size := by
  unfold look at h
  split at h
  · cases h
  · rename_i hp; cases h; exact Cursor.size_peek_error_lt hp

theorem size_take_lt {c c' : Cursor ε} {t : Token} (h : take c = .ok t c') (ht : t.isEnd = false) :
    c'.size < c.size := by
  unfold take at h
  split at h
  · rename_i hn; cases h; exact Cursor.size_next_lt hn ht
  · cases h

theorem size_accept_le {p : Token → Bool} {c c' : Cursor ε} {b : Bool} (h : accept p c = .ok b c') :
    c'.size ≤ c.size := by
  cases h
  exact Cursor.size_consume_le p c

theorem outcome_peeking {n : Nat} (c : Cursor ε) (h : c.size ≤ n)
    (f : (t : Token) → (c' : Cursor ε) → c'.size ≤ c.size →
      (t.isEnd = false → c'.skip.size < c.size) → Parsed ε α n) (g : Token → Reading ε α)
    (hfg : ∀ t c' h₁ h₂, (f t c' h₁ h₂).outcome = g t c') :
    (c.peeking h f).outcome = (look >>= g) c := by
  unfold Cursor.peeking
  split
  · rename_i t c' hp
    rw [hfg]
    simp [bind, EStateM.bind, look, hp]
  · rename_i e c' hp
    simp [bind, EStateM.bind, look, hp]

theorem outcome_taking {n : Nat} (c : Cursor ε) (h : c.size ≤ n)
    (f : (t : Token) → (c' : Cursor ε) → c'.size ≤ c.size →
      (t.isEnd = false → c'.size < c.size) → Parsed ε α n) (g : Token → Reading ε α)
    (hfg : ∀ t c' h₁ h₂, (f t c' h₁ h₂).outcome = g t c') :
    (c.taking h f).outcome = (take >>= g) c := by
  unfold Cursor.taking
  split
  · rename_i t c' hp
    rw [hfg]
    simp [bind, EStateM.bind, take, hp]
  · rename_i e c' hp
    simp [bind, EStateM.bind, take, hp]

theorem accept_of_look_true {p : Token → Bool} {c c' : Cursor ε} {t : Token} (h : look c = .ok t c')
    (hp : p t = true) : accept p c = .ok true c'.skip := by
  simp [accept, Cursor.consume, Cursor.check, peek_of_look h, hp]

theorem accept_of_look_false {p : Token → Bool} {c c' : Cursor ε} {t : Token} (h : look c = .ok t c')
    (hp : p t = false) : accept p c = .ok false c' := by
  simp [accept, Cursor.consume, Cursor.check, peek_of_look h, hp]

/-- An error answers a question with no and is gone. -/
theorem accept_of_peek_error {p : Token → Bool} {c c' : Cursor ε} {e : ε} (h : c.peek = (.error e, c')) :
    accept p c = .ok false c' := by
  simp [accept, Cursor.consume, Cursor.check, h]

theorem accept_bind {p : Token → Bool} {c c' : Cursor ε} {b : Bool} (h : c.consume p = (b, c'))
    (f : Bool → Reading ε α) : (accept p >>= f) c = f b c' := by
  simp [bind, EStateM.bind, accept, h]

/-! ## One action after another -/

theorem bind_of_ok {act : Reading ε α} {f : α → Reading ε β} {c c' : Cursor ε} {a : α}
    (h : act c = .ok a c') : (act >>= f) c = f a c' := by
  show EStateM.bind act f c = _
  simp only [EStateM.bind, h]

theorem bind_of_error {act : Reading ε α} {f : α → Reading ε β} {c c' : Cursor ε} {e : Failure ε}
    (h : act c = .error e c') : (act >>= f) c = .error e c' := by
  show EStateM.bind act f c = _
  simp only [EStateM.bind, h]

theorem of_bind_eq_ok {act : Reading ε α} {f : α → Reading ε β} {c c'' : Cursor ε} {b : β}
    (h : (act >>= f) c = .ok b c'') : ∃ a c', act c = .ok a c' ∧ f a c' = .ok b c'' := by
  change EStateM.bind act f c = .ok b c'' at h
  unfold EStateM.bind at h
  cases hact : act c with
  | ok a c' => exact ⟨a, c', rfl, by simpa only [hact] using h⟩
  | error e c' => simp only [hact] at h; cases h

/-! ## Grammar functions

Each of these is the function of `Parse` that has its name, as an action on a cursor.
-/

def expression : Reading ε Expr := fun c => (Parse.expression c).outcome

def operators (least : Int) (lhs : Expr) : Reading ε Expr := fun c =>
  (Parse.operators least lhs c).outcome

def unary : Reading ε Expr := fun c => (Parse.unary c).outcome

def primary : Reading ε Expr := fun c => (Parse.primary c).outcome

def operand (start : Token.OperandStart) (t : Token) : Reading ε Expr := fun c =>
  (Parse.operand start t c).outcome

def arguments : Reading ε (List Expr) := fun c => (Parse.arguments c).outcome

def bindings : Reading ε Expr := fun c => (Parse.bindings c).outcome

def afterBinding (t : Token) (init : Expr) : Reading ε Expr := fun c =>
  (Parse.afterBinding t init c).outcome

def parameters (afterComma : Bool) : Reading ε (List String) := fun c =>
  (Parse.parameters afterComma c).outcome

def prototype : Reading ε Prototype := fun c => (Parse.prototype c).outcome

def itemFrom (t : Token) : Reading ε Item := fun c => (Parse.itemFrom t c).outcome

def item : Reading ε (Option Item) := fun c => (Parse.item c).outcome

/-! ## What each of them does -/

theorem expression_eq : (expression : Reading ε Expr) = (do
    let lhs ← unary
    operators 0 lhs) := by
  funext c
  simp only [expression]
  rw [Parse.expression]
  exact Parsed.outcome_andThen _ _ _ _ fun _ _ _ => rfl

theorem operators_eq (least : Int) (lhs : Expr) : (operators least lhs : Reading ε Expr) = (do
    let t ← look
    match t.operator? with
    | none => pure lhs
    | some op =>
      match op.precedence? with
      | none => throw (.grammar ⟨.notBinary op, t⟩)
      | some prec =>
        if prec.level < least then pure lhs
        else do
          skip
          let rhs ← unary
          let ahead ← look
          match prec.rightLevel? ahead with
          | some level => do
            let rhs ← operators level rhs
            operators least (.binary op lhs rhs t.pos)
          | none => operators least (.binary op lhs rhs t.pos)) := by
  funext c
  simp only [operators]
  rw [Parse.operators]
  apply outcome_peeking
  intro t c₁ h₁ hs
  split
  · rename_i ho
    simp only [ho]
    rfl
  · rename_i op ho
    simp only [ho]
    cases op.precedence? with
    | none => rfl
    | some prec =>
      simp only
      split
      · rfl
      · apply Parsed.outcome_andThen
        intro rhs c₂ h₂
        apply outcome_peeking
        intro ahead c₃ h₃ _
        cases prec.rightLevel? ahead with
        | none => rfl
        | some level => exact Parsed.outcome_andThen _ _ _ _ fun _ _ _ => rfl

theorem unary_eq : (unary : Reading ε Expr) = (do
    let t ← look
    match t.operator? with
    | none => primary
    | some op =>
      if op.isSign then do
        skip
        let x ← unary
        pure (.unary op x t.pos)
      else throw (.grammar ⟨.notSign op, t⟩)) := by
  funext c
  simp only [unary]
  rw [Parse.unary]
  apply outcome_peeking
  intro t c₁ h₁ hs
  split
  · rename_i ho
    simp only [ho]
    rfl
  · rename_i op ho
    simp only [ho]
    split
    · exact Parsed.outcome_andThen _ _ _ _ fun _ _ _ => rfl
    · rfl

theorem primary_eq : (primary : Reading ε Expr) = (do
    let t ← take
    match t.operandStart? with
    | some start => operand start t
    | none => refuse .expression t) := by
  funext c
  simp only [primary]
  rw [Parse.primary]
  apply outcome_taking
  intro t c₁ h₁ ht
  split
  · rename_i start ho
    simp only [ho]
    rfl
  · rename_i ho
    simp only [ho]
    rfl

theorem operand_eq (start : Token.OperandStart) (t : Token) :
    (operand start t : Reading ε Expr) =
      (match start with
      | .integer =>
        match Numeral.int64? t.text with
        | some v => pure (.integer v t.pos)
        | none => throw (.grammar ⟨.unexpected .integerLiteral, t⟩)
      | .float =>
        match Numeral.binary64? t.text with
        | some v => pure (.float v t.pos)
        | none => throw (.grammar ⟨.unexpected .floatLiteral, t⟩)
      | .name => do
        if ← accept Token.opensParen then
          if ← accept Token.closesParen then pure (.call t.text [] t.pos)
          else
            let args ← arguments
            pure (.call t.text args t.pos)
        else pure (.name t.text t.pos)
      | .paren => do
        let e ← expression
        let u ← take
        if u.closes t then pure e else refuse .closeParen u
      | .binding => bindings) := by
  funext c
  simp only [operand]
  rw [Parse.operand.eq_def]
  cases start with
  | integer => simp only; cases Numeral.int64? t.text <;> rfl
  | float => simp only; cases Numeral.binary64? t.text <;> rfl
  | name =>
    simp only
    split
    · rename_i c₁ hc
      rw [accept_bind hc]
      rfl
    · rename_i c₁ hc
      rw [accept_bind hc, if_pos rfl]
      split
      · rename_i c₂ hd
        rw [accept_bind hd]
        rfl
      · rename_i c₂ hd
        rw [accept_bind hd]
        exact Parsed.outcome_andThen _ _ _ _ fun _ _ _ => rfl
  | paren =>
    apply Parsed.outcome_andThen
    intro e c₁ h₁
    apply outcome_taking
    intro u c₂ h₂ hu
    split <;> rfl
  | binding => rfl

theorem arguments_eq : (arguments : Reading ε (List Expr)) = (do
    let e ← expression
    let u ← take
    if u.closesParen then pure [e]
    else if u.isComma then do
      let es ← arguments
      pure (e :: es)
    else refuse .commaOrClose u) := by
  funext c
  simp only [arguments]
  rw [Parse.arguments]
  apply Parsed.outcome_andThen
  intro e c₁ h₁
  apply outcome_taking
  intro u c₂ h₂ hu
  split
  · rfl
  · split
    · exact Parsed.outcome_andThen _ _ _ _ fun _ _ _ => rfl
    · rfl

theorem bindings_eq : (bindings : Reading ε Expr) = (do
    let t ← take
    if t.kind = .identifier then do
      let u ← look
      if u.operator? = some .assign then do
        skip
        let init ← expression
        afterBinding t init
      else afterBinding t (.integer 0 t.pos)
    else refuse .variableName t) := by
  funext c
  simp only [bindings]
  rw [Parse.bindings]
  apply outcome_taking
  intro t c₁ h₁ ht
  split
  · apply outcome_peeking
    intro u c₂ h₂ _
    split
    · exact Parsed.outcome_andThen _ _ _ _ fun _ _ _ => rfl
    · rfl
  · rfl

theorem afterBinding_eq (t : Token) (init : Expr) : (afterBinding t init : Reading ε Expr) = (do
    if ← accept Token.isComma then
      let body ← bindings
      pure (.bind t.text init body t.pos)
    else
      let u ← take
      if u.isKeyword .within then
        let body ← expression
        pure (.bind t.text init body t.pos)
      else refuse .within u) := by
  funext c
  simp only [afterBinding]
  rw [Parse.afterBinding]
  split
  · rename_i c₁ hc
    rw [accept_bind hc]
    exact Parsed.outcome_andThen _ _ _ _ fun _ _ _ => rfl
  · rename_i c₁ hc
    rw [accept_bind hc]
    apply outcome_taking
    intro u c₂ h₂ hu
    split
    · exact Parsed.outcome_andThen _ _ _ _ fun _ _ _ => rfl
    · rfl

theorem parameters_eq (afterComma : Bool) : (parameters afterComma : Reading ε (List String)) = (do
    let t ← take
    if t.kind = .identifier then do
      let comma ← accept Token.isComma
      let names ← parameters comma
      pure (t.text :: names)
    else if t.closesParen && !afterComma then pure []
    else refuse (if afterComma then .parameterName else .parameterNameOrClose) t) := by
  funext c
  simp only [parameters]
  rw [Parse.parameters]
  apply outcome_taking
  intro t c₁ h₁ ht
  split
  · exact Parsed.outcome_andThen _ _ _ _ fun _ _ _ => rfl
  · split <;> rfl

theorem prototype_eq : (prototype : Reading ε Prototype) = (do
    let t ← take
    if t.kind = .identifier then do
      let u ← take
      if u.opensParen then do
        let params ← parameters false
        pure ⟨t.text, params, t.pos⟩
      else refuse .openParen u
    else refuse .functionName t) := by
  funext c
  simp only [prototype]
  rw [Parse.prototype]
  apply outcome_taking
  intro t c₁ h₁ ht
  split
  · apply outcome_taking
    intro u c₂ h₂ hu
    split
    · exact Parsed.outcome_andThen _ _ _ _ fun _ _ _ => rfl
    · rfl
  · rfl

theorem itemFrom_eq (t : Token) : (itemFrom t : Reading ε Item) = (
    if t.isKeyword .define then do
      let proto ← prototype
      let body ← expression
      pure (.define proto body t.pos)
    else if t.isKeyword .external then do
      let proto ← prototype
      pure (.external proto t.pos)
    else do
      unread t
      let body ← expression
      pure (.evaluate body t.pos)) := by
  funext c
  simp only [itemFrom]
  unfold Parse.itemFrom
  split
  · apply Parsed.outcome_andThen
    intro proto c₁ h₁
    exact Parsed.outcome_andThen _ _ _ _ fun _ _ _ => rfl
  · split
    · exact Parsed.outcome_andThen _ _ _ _ fun _ _ _ => rfl
    · split
      · rename_i c₁ hu
        simp only [bind, EStateM.bind, unread, hu]
        exact Parsed.outcome_andThen _ _ _ _ fun _ _ _ => rfl
      · rename_i hu
        simp [bind, EStateM.bind, unread, hu]

theorem item_eq : (item : Reading ε (Option Item)) = (do
    let t ← take
    if t.isEnd then pure none
    else if t.kind = .semicolon then item
    else do
      let i ← itemFrom t
      pure (some i)) := by
  funext c
  simp only [item]
  rw [Parse.item]
  apply outcome_taking
  intro t c₁ h₁ ht
  split
  · rfl
  · split
    · rfl
    · exact Parsed.outcome_andThen _ _ _ _ fun _ _ _ => rfl

theorem item_of_look {c c' : Cursor ε} {t : Token} (h : look c = .ok t c') (ht : t.isEnd = false) :
    item c = if t.kind = .semicolon then item c'.skip else (some <$> itemFrom t) c'.skip := by
  have hk := take_of_look h
  rw [congrFun item_eq c]
  show EStateM.bind take _ c = _
  simp only [EStateM.bind, hk, ht, Bool.false_eq_true, ↓reduceIte]
  split <;> rfl

theorem item_of_look_end {c c' : Cursor ε} {t : Token} (h : look c = .ok t c') (ht : t.isEnd = true) :
    item c = .ok none c' := by
  have hk := take_of_look h
  rw [congrFun item_eq c]
  show EStateM.bind take _ c = _
  simp only [EStateM.bind, hk, ht, ↓reduceIte]
  rfl

theorem map_itemFrom (t : Token) (c : Cursor ε) : (some <$> itemFrom t) c =
    match itemFrom t c with
    | .ok i c' => .ok (some i) c'
    | .error e c' => .error e c' := by
  show EStateM.map some (itemFrom t) c = _
  unfold EStateM.map
  cases itemFrom t c <;> rfl

theorem item_of_look_error {c c' : Cursor ε} {e : Failure ε} (h : look c = .error e c') :
    item c = .error e c' := by
  rw [item_eq]
  show EStateM.bind take _ c = _
  simp only [EStateM.bind, take_of_look_error h]

/-- Only the token that is taken next tells one cursor from another. -/
theorem item_congr {c d : Cursor ε} (h : take c = take d) : item c = item d := by
  rw [item_eq]
  show EStateM.bind take _ c = EStateM.bind take _ d
  simp only [EStateM.bind, h]

/-! ## Item after item -/

theorem results_eq (c : Cursor ε) : Parse.results c =
    match item c with
    | .ok none _ => []
    | .ok (some i) c' => .ok i :: Parse.results c'
    | .error e c' => .error e :: Parse.results (Parse.synchronize c') := by
  rw [Parse.results]
  unfold item Parsed.outcome
  split
  · rename_i hr; simp [hr]
  · rename_i i hr; simp [hr, Parse.resume]
  · rename_i e hr; simp [hr, Parse.resume]

theorem results_congr {c d : Cursor ε} (h : item c = item d) : Parse.results c = Parse.results d := by
  rw [results_eq, h, ← results_eq]

/-- A program is its first item and the program after it, or the first error. -/
theorem program_eq (c : Cursor ε) : Parse.program c =
    match item c with
    | .ok none _ => .ok []
    | .ok (some i) c' => (Parse.program c').map (i :: ·)
    | .error e _ => .error e := by
  unfold Parse.program
  rw [results_eq]
  rcases item c with ⟨_ | i, c'⟩ | ⟨e, c'⟩
  · rfl
  · simp only [List.mapM_cons]
    cases (Parse.results c').mapM id <;> rfl
  · simp only [List.mapM_cons]
    rfl

theorem size_item_lt {c c' : Cursor ε} {i : Item} (h : item c = .ok (some i) c') :
    c'.size < c.size := by
  unfold item Parsed.outcome at h
  split at h
  · rename_i hr
    cases h
    simpa [Parse.resume, hr] using Parse.size_resume_item_lt c (by simp [hr])
  · cases h

theorem size_synchronize_item_lt {c c' : Cursor ε} {e : Failure ε} (h : item c = .error e c') :
    (Parse.synchronize c').size < c.size := by
  unfold item Parsed.outcome at h
  split at h
  · cases h
  · rename_i hr
    cases h
    simpa [Parse.resume, hr] using Parse.size_resume_item_lt c (by simp [hr])

/-- What synchronizing does with the answer it looks at. -/
theorem synchronize_eq (c : Cursor ε) : Parse.synchronize c =
    match look c with
    | .error _ c' => Parse.synchronize c'
    | .ok t c' =>
      if t.isEnd || t.isKeyword .define || t.isKeyword .external then c'
      else if t.kind = .semicolon then c'.skip
      else Parse.synchronize c'.skip := by
  rw [Parse.synchronize]
  unfold look
  split
  · rename_i hp; simp [hp]
  · rename_i t c' hp
    simp only [hp]
    cases t.isEnd <;> simp

end Reading

end ScalarLang
