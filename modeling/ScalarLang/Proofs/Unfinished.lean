import ScalarLang.Command.Repl
import ScalarLang.Proofs.Newlines
import ScalarLang.Proofs.Recovery
import ScalarLang.Proofs.Relexing
import ScalarLang.Proofs.RoundTrip
import ScalarLang.Proofs.StreamErrors
/-!
# Texts that end too early

A text that is no program is unfinished exactly if more lines make it one, and any other error stays the
same whatever lines follow (`isUnfinished_iff_continued`).

Reading from a cursor either ends before it has looked at the end of the input, and then nothing that is
appended makes a difference, or it has a list of fillers, tokens such as `0` and `)`, after which it
succeeds: one that still asks for something gets it, and one that was satisfied needs none. `Completes`
says this of an action at a cursor and has a rule for every move, so it holds of all grammar functions.
-/
namespace ScalarLang

variable {ε α β : Type}

/-! ## Fillers -/

/-- Tokens with which every construct can be finished. -/
inductive Filler where
  | zero
  | name
  | openParen
  | closeParen
  | within

/-- A filler as a token, wherever it stands. -/
def Filler.token : Filler → Token
  | zero => ⟨.integer, "0", .unknown⟩
  | name => .ofName "x"
  | openParen => .openParen
  | closeParen => .closeParen
  | within => .ofKeyword .within

theorem Filler.spells (w : Filler) : w.token.kind.Spells w.token.text := by
  cases w with
  | zero => exact ⟨⟨by decide, List.all_eq_true.1 (by decide)⟩, by decide⟩
  | name => exact (by decide : isName "x" = true)
  | openParen => exact ⟨'(', ⟨.round, .left⟩, rfl, by decide⟩
  | closeParen => exact ⟨')', ⟨.round, .right⟩, rfl, by decide⟩
  | within => exact ⟨.within, rfl⟩

/-- The tokens are these fillers, wherever they stand. -/
def Fills (ws : List Filler) (vs : List Token) : Prop := vs.map Token.unplaced = ws.map Filler.token

namespace Fills

variable {w : Filler} {ws ws' : List Filler} {vs : List Token}

theorem eq_nil (h : Fills [] vs) : vs = [] := List.map_eq_nil_iff.1 h

theorem cons (h : Fills (w :: ws) vs) :
    ∃ v us, vs = v :: us ∧ v.unplaced = w.token ∧ Fills ws us := List.map_eq_cons_iff.1 h

theorem append (h : Fills (ws ++ ws') vs) : ∃ us us', vs = us ++ us' ∧ Fills ws us ∧ Fills ws' us' := by
  unfold Fills at h
  rw [List.map_append] at h
  obtain ⟨us, us', rfl, h₁, h₂⟩ := List.map_eq_append_iff.1 h
  exact ⟨us, us', rfl, h₁, h₂⟩

end Fills

/-- Before tokens that `Ψ` allows, the fillers make up tokens that `Φ` allows. -/
def Leads (Ψ Φ : List Token → Prop) (ws : List Filler) : Prop :=
  ∀ vs ts, Fills ws vs → Ψ ts → Φ (vs ++ ts)

namespace Leads

variable {Ψ Φ : List Token → Prop} {w : Filler} {ws : List Filler}

theorem refl : Leads Ψ Ψ [] := by
  rintro vs ts hvs hts
  rw [hvs.eq_nil]
  exact hts

theorem any : Leads Ψ (fun _ => True) ws := fun _ _ _ _ => trivial

/-- No expression goes on with the filler. -/
theorem ends (hw : w.token.opensParen = false ∧ w.token.operator? = none) : Leads Ψ Ends (w :: ws) := by
  rintro vs ts hvs -
  obtain ⟨v, us, rfl, hv, -⟩ := hvs.cons
  exact ends_cons hv hw

end Leads

/-! ## At the end of the input -/

namespace Token

variable {t : Token}

theorem kind_of_isEnd (h : t.isEnd = true) : t.kind = .endOfInput := of_decide_eq_true h

theorem opensParen_of_operandStart? (h : t.operandStart? = some .paren) : t.opensParen = true := by
  unfold operandStart? at h
  split at h
  · cases h
  · cases h
  · cases h
  · split at h
    · assumption
    · split at h <;> cases h

end Token

/-- A failure because the input ends. -/
def Failure.isEnd : Failure ε → Bool
  | grammar e => e.kind = .unexpectedEnd
  | stream _ | overfull => false

namespace Reading

variable {c c' : Cursor ε} {Ψ Φ : List Token → Prop} {w : Filler} {ws ws' : List Filler}

/-- An outcome at the end of the input, which lacks the fillers: a failure, or a result if it lacks none. -/
inductive Lacks : List Filler → EStateM.Result (Failure ε) (Cursor ε) α → Prop
  | ok {a : α} {c : Cursor ε} (hc : c.Reads []) : Lacks [] (.ok a c)
  | error {f : Failure ε} {c : Cursor ε} (ws : List Filler) (hf : f.isEnd = true) (hc : c.coming = []) :
      Lacks ws (.error f c)

/-- An outcome after which nothing is left to be read. -/
inductive Spent : EStateM.Result (Failure ε) (Cursor ε) α → Prop
  | ok {a : α} {c : Cursor ε} (hc : c.Reads []) : Spent (.ok a c)
  | error {f : Failure ε} {c : Cursor ε} (hc : c.coming = []) : Spent (.error f c)

theorem Lacks.spent {r : EStateM.Result (Failure ε) (Cursor ε) α} (h : Lacks ws r) : Spent r := by
  cases h with
  | ok hc => exact .ok hc
  | error _ _ hc => exact .error hc

theorem Spent.bind {x : Reading ε α} {f : α → Reading ε β} (h : Spent (x c))
    (hf : ∀ a c', c'.Reads [] → Spent (f a c')) : Spent ((x >>= f) c) := by
  generalize hr : x c = r at h
  cases h with
  | ok hc =>
    rw [bind_of_ok hr]
    exact hf _ _ hc
  | error hc =>
    rw [bind_of_error hr]
    exact .error hc

theorem Lacks.bind {x : Reading ε α} {f : α → Reading ε β} (h : Lacks ws (x c))
    (hf : ∀ a c', c'.Reads [] → Lacks ws' (f a c')) : Lacks (ws ++ ws') ((x >>= f) c) := by
  generalize hr : x c = r at h
  cases h with
  | ok hc =>
    rw [bind_of_ok hr]
    exact hf _ _ hc
  | error ws hend hc =>
    rw [bind_of_error hr]
    exact .error _ hend hc

/-- At the end of the input the action lacks the fillers, and with them it is done, before tokens that `Ψ`
allows. -/
structure Closes (Ψ : List Token → Prop) (ws : List Filler) (x : Reading ε α) : Prop where
  succeeds : ∀ vs ts c, Fills ws vs → Ψ ts → c.Reads (vs ++ ts) → Succeeds (x c) ts fun _ => True
  lacks : ∀ c, c.Reads [] → Lacks ws (x c)

namespace Closes

theorem pure (a : α) : Closes Ψ [] (Pure.pure a : Reading ε α) where
  succeeds vs ts c hvs _ hc := by
    rw [hvs.eq_nil] at hc
    exact .pure hc trivial
  lacks _ hc := .ok hc

theorem bind {x : Reading ε α} {f : α → Reading ε β} (hx : Closes Φ ws x) (hlead : Leads Ψ Φ ws')
    (hf : ∀ a, Closes Ψ ws' (f a)) : Closes Ψ (ws ++ ws') (x >>= f) where
  succeeds vs ts c hvs hts hc := by
    obtain ⟨us, us', rfl, hus, hus'⟩ := hvs.append
    rw [List.append_assoc] at hc
    refine (hx.succeeds us _ c hus (hlead us' ts hus' hts) hc).bind fun a c' hc' _ => ?_
    exact (hf a).succeeds us' ts c' hus' hts hc'
  lacks c hc := (hx.lacks c hc).bind fun a c' hc' => (hf a).lacks c' hc'

theorem map {x : Reading ε α} (g : α → β) (hx : Closes Ψ ws x) :
    Closes Ψ ws (do let a ← x; Pure.pure (g a)) := by
  have h := hx.bind .refl fun a => Closes.pure (ε := ε) (g a)
  rwa [List.append_nil] at h

theorem take {f : Token → Reading ε α} (hf : ∀ t, t.unplaced = w.token → Closes Ψ ws (f t))
    (hend : ∀ t, t.isEnd = true → ∃ wanted, f t = refuse wanted t) :
    Closes Ψ (w :: ws) (Reading.take >>= f) where
  succeeds vs ts c hvs hts hc := by
    obtain ⟨v, us, rfl, hv, hus⟩ := hvs.cons
    exact .take hc fun c' hc' => (hf v hv).succeeds us ts c' hus hts hc'
  lacks c hc := by
    obtain ⟨t, c', hl, ht, hc', -⟩ := hc.look
    have ht : t.isEnd = true := ht
    obtain ⟨wanted, hrefuse⟩ := hend t ht
    rw [bind_of_ok (take_of_look hl), hrefuse, refuse_take wanted hl]
    refine .error _ (by simp [Failure.isEnd, ParseError.kind, ht]) ?_
    have hnil := hc'.coming_nil
    split <;> exact hnil

theorem look {f : Token → Reading ε α} (hlead : Leads Ψ Ends ws)
    (hf : ∀ t, t.operator? = none → Closes Ψ ws (f t)) : Closes Ψ ws (Reading.look >>= f) where
  succeeds vs ts c hvs hts hc := .look hc fun t c' ht hc' _ =>
    (hf t ((hlead vs ts hvs hts).operator? t ht)).succeeds vs ts c' hvs hts hc'
  lacks c hc := by
    obtain ⟨t, c', hl, ht, hc', -⟩ := hc.look
    rw [bind_of_ok hl]
    exact (hf t (ends_nil.operator? t ht)).lacks c' hc'

/-- A question that is answered with no. -/
theorem decline {p : Token → Bool} {f : Bool → Reading ε α}
    (hp : ∀ vs ts t, Fills ws vs → Ψ ts → Ahead t (vs ++ ts) → p t = false)
    (hend : ∀ t, p t = true → t.isEnd = false) (hf : Closes Ψ ws (f false)) :
    Closes Ψ ws (Reading.accept p >>= f) where
  succeeds vs ts c hvs hts hc :=
    .decline hc (fun t ht => hp vs ts t hvs hts ht) fun c' hc' => hf.succeeds vs ts c' hvs hts hc'
  lacks c hc := by
    obtain ⟨t, c', hl, ht, hc', -⟩ := hc.look
    have hpt : p t = false := by
      refine Bool.eq_false_iff.2 fun hpt => ?_
      rw [Ahead, hend t hpt] at ht
      cases ht
    rw [bind_of_ok (accept_of_look_false hl hpt)]
    exact hf.lacks c' hc'

/-- A question that the first filler answers with no. -/
theorem decline_filler {p : Token → Bool} {f : Bool → Reading ε α} (hp : ∀ t, p t.unplaced = p t)
    (hw : p w.token = false) (hend : ∀ t, p t = true → t.isEnd = false)
    (hf : Closes Ψ (w :: ws) (f false)) : Closes Ψ (w :: ws) (Reading.accept p >>= f) := by
  refine decline (fun vs ts t hvs _ ht => ?_) hend hf
  obtain ⟨v, us, rfl, hv, -⟩ := hvs.cons
  cases ht
  rw [← hp, hv, hw]

end Closes

/-! ## Fillers of the grammar functions -/

theorem closes_operators (least : Int) (lhs : Expr) :
    Closes Ends [] (operators least lhs : Reading ε Expr) := by
  rw [operators_eq]
  refine .look .refl fun t ht => ?_
  simp only [ht]
  exact .pure lhs

theorem closes_primary : Closes Ψ [.zero] (primary : Reading ε Expr) := by
  rw [primary_eq]
  refine .take (fun t ht => ?_) fun t ht => ⟨.expression, ?_⟩
  · have hk : t.kind = .integer := congrArg Token.kind ht
    have hv : Numeral.int64? t.text = some 0 :=
      (congrArg (fun u : Token => Numeral.int64? u.text) ht).trans (by decide)
    simp only [Token.operandStart?, hk]
    rw [operand_eq]
    simp only [hv]
    exact .pure _
  · cases hs : t.operandStart? with
    | none => rfl
    | some start => rw [Token.isEnd_of_operandStart? hs] at ht; cases ht

theorem closes_unary : Closes Ψ [.zero] (unary : Reading ε Expr) := by
  rw [unary_eq]
  refine .look (.ends (by decide)) fun t ht => ?_
  simp only [ht]
  exact closes_primary

theorem closes_expression : Closes Ends [.zero] (expression : Reading ε Expr) := by
  rw [expression_eq]
  exact closes_unary.bind .refl fun lhs => closes_operators 0 lhs

/-- What comes after an argument is the parenthesis. -/
theorem closes_argument (e : Expr) : Closes Ψ [.closeParen] (do
    let u ← take
    if u.closesParen then pure [e]
    else if u.isComma then do
      let es ← arguments
      pure (e :: es)
    else refuse .commaOrClose u : Reading ε (List Expr)) := by
  refine .take (fun u hu => ?_) fun u hu => ⟨.commaOrClose, ?_⟩
  · rw [if_pos (Token.closesParen_of_unplaced hu)]
    exact .pure _
  · have hk := Token.kind_of_isEnd hu
    simp [Token.closesParen_of_kind, Token.isComma, hk]

theorem closes_arguments : Closes Ψ [.zero, .closeParen] (arguments : Reading ε (List Expr)) := by
  rw [arguments_eq]
  exact closes_expression.bind (.ends (by decide)) closes_argument

/-- What comes after the variables of a binding is its body. -/
theorem closes_within (t : Token) (init : Expr) : Closes Ends [.within, .zero] (do
    let u ← take
    if u.isKeyword .within then
      let body ← expression
      pure (.bind t.text init body t.pos)
    else refuse .within u : Reading ε Expr) := by
  refine .take (fun u hu => ?_) fun u hu => ⟨.within, ?_⟩
  · rw [if_pos (Token.isKeyword_of_unplaced hu)]
    exact closes_expression.map _
  · exact if_neg fun hk => by rw [Token.isEnd_of_isKeyword hk] at hu; cases hu

theorem closes_afterBinding (t : Token) (init : Expr) :
    Closes Ends [.within, .zero] (afterBinding t init : Reading ε Expr) := by
  rw [afterBinding_eq]
  exact .decline_filler (fun _ => rfl) rfl (fun _ => Token.isEnd_of_isComma) (closes_within t init)

/-- What comes after the name of a variable is the body. -/
theorem closes_initializer (t : Token) : Closes Ends [.within, .zero] (do
    let u ← look
    if u.operator? = some .assign then do
      skip
      let init ← expression
      afterBinding t init
    else afterBinding t (.integer 0 t.pos) : Reading ε Expr) := by
  refine .look (.ends (by decide)) fun u hu => ?_
  rw [if_neg (by simp [hu])]
  exact closes_afterBinding t _

theorem closes_bindings : Closes Ends [.name, .within, .zero] (bindings : Reading ε Expr) := by
  rw [bindings_eq]
  refine .take (fun t ht => ?_) fun t ht => ⟨.variableName, ?_⟩
  · rw [if_pos (Token.kind_of_unplaced ht).1]
    exact closes_initializer t
  · rw [if_neg (by simp [Token.kind_of_isEnd ht])]

theorem closes_parameters_nil : Closes Ψ [.closeParen] (parameters false : Reading ε (List String)) := by
  rw [parameters_eq]
  refine .take (fun t ht => ?_) fun t ht => ⟨.parameterNameOrClose, ?_⟩
  · have hc := Token.closesParen_of_unplaced ht
    rw [if_neg (by simp [Token.kind_of_closesParen hc]), if_pos (by simp [hc])]
    exact .pure _
  · have hk := Token.kind_of_isEnd ht
    rw [if_neg (by simp [hk]), if_neg (by simp [Token.closesParen_of_kind, hk]), if_neg (by simp)]

/-- What comes after a parameter is the parenthesis. -/
theorem closes_parameter (t : Token) : Closes Ψ [.closeParen] (do
    let comma ← accept Token.isComma
    let names ← parameters comma
    pure (t.text :: names) : Reading ε (List String)) := by
  refine .decline_filler (fun _ => rfl) rfl (fun _ => Token.isEnd_of_isComma) ?_
  exact closes_parameters_nil.map _

/-- The fillers of parameters: after a comma there is one more. -/
def parameterFillers (afterComma : Bool) : List Filler :=
  if afterComma then [.name, .closeParen] else [.closeParen]

theorem closes_parameters (afterComma : Bool) :
    Closes Ψ (parameterFillers afterComma) (parameters afterComma : Reading ε (List String)) := by
  cases afterComma with
  | false => exact closes_parameters_nil
  | true =>
    rw [parameters_eq]
    refine .take (fun t ht => ?_) fun t ht => ⟨.parameterName, ?_⟩
    · rw [if_pos (Token.kind_of_unplaced ht).1]
      exact closes_parameter t
    · rw [if_neg (by simp [Token.kind_of_isEnd ht]), if_neg (by simp), if_pos rfl]

/-- What comes after the name of a function is its parentheses. -/
theorem closes_signature (t : Token) : Closes Ψ [.openParen, .closeParen] (do
    let u ← take
    if u.opensParen then do
      let params ← parameters false
      pure ⟨t.text, params, t.pos⟩
    else refuse .openParen u : Reading ε Prototype) := by
  refine .take (fun u hu => ?_) fun u hu => ⟨.openParen, ?_⟩
  · rw [if_pos (Token.opensParen_of_unplaced hu)]
    exact closes_parameters_nil.map _
  · rw [if_neg (by simp [Token.opensParen_of_kind, Token.kind_of_isEnd hu])]

theorem closes_prototype :
    Closes Ψ [.name, .openParen, .closeParen] (prototype : Reading ε Prototype) := by
  rw [prototype_eq]
  refine .take (fun t ht => ?_) fun t ht => ⟨.functionName, ?_⟩
  · rw [if_pos (Token.kind_of_unplaced ht).1]
    exact closes_signature t
  · rw [if_neg (by simp [Token.kind_of_isEnd ht])]

end Reading

/-! ## Before the end of the input -/

/-- The end of the input has not been looked at. -/
structure Cursor.Open (c : Cursor ε) : Prop where
  coming : ∀ t, .ok t ∈ c.coming → t.isEnd = false
  lookahead : ∀ t, c.lookahead = some t → t.isEnd = false

namespace Cursor.Open

variable {c : Cursor ε}

theorem skip (hc : c.Open) : c.skip.Open := ⟨hc.coming, by simp [Cursor.skip]⟩

/-- The next answer is there whatever follows, unless there is none. -/
theorem look_cases (hc : c.Open) :
    (∃ t c', Reading.look c = .ok t c' ∧ t.isEnd = false ∧ c'.Open ∧
      ∀ more ending, Reading.look (c.followed more ending) = .ok t (c'.followed more ending)) ∨
    (∃ e c', c.peek = (.error e, c') ∧ c'.Open ∧
      ∀ more ending, (c.followed more ending).peek = (.error e, c'.followed more ending)) ∨
    ∃ ending, c = ⟨none, [], ending⟩ := by
  obtain ⟨l, cs, p⟩ := c
  rcases l with _ | t
  · rcases cs with _ | ⟨e | t, cs⟩
    · exact .inr (.inr ⟨p, rfl⟩)
    · refine .inr (.inl ⟨e, ⟨none, cs, p⟩, rfl, ⟨fun t ht => ?_, by simp⟩, fun _ _ => rfl⟩)
      exact hc.coming t (List.mem_cons_of_mem _ ht)
    · have he := hc.coming t (List.mem_cons_self ..)
      refine .inl ⟨t, ⟨some t, cs, p⟩, rfl, he, ⟨fun u hu => ?_, ?_⟩, fun _ _ => rfl⟩
      · exact hc.coming u (List.mem_cons_of_mem _ hu)
      · rintro u ⟨⟩
        exact he
  · exact .inl ⟨t, _, rfl, hc.lookahead t rfl, hc, fun _ _ => rfl⟩

end Cursor.Open

namespace Reading

variable {c c' : Cursor ε} {Ψ Φ : List Token → Prop} {ws ws' : List Filler}

/-- How an action goes on when more is appended to the input. Unless it has looked at the end of the input,
it goes the same way whatever that is; otherwise it succeeds with the fillers that it lacks, and meets an
error that stands there. -/
inductive Completes (Ψ : List Token → Prop) (x : Reading ε α) (c : Cursor ε) : Prop
  | ok {a : α} {c' : Cursor ε} (h : x c = .ok a c') (hc : c'.Open)
      (hmore : ∀ more ending, x (c.followed more ending) = .ok a (c'.followed more ending))
  | error {f : Failure ε} {c' : Cursor ε} (h : x c = .error f c') (hf : f.isEnd = false)
      (hmore : ∀ more ending, ∃ d, x (c.followed more ending) = .error f d)
  | ended {ws : List Filler} (h : Lacks ws (x c))
      (hmore : ∀ vs ts ending, Fills ws vs → Ψ ts → (∀ t ∈ vs ++ ts, t.IsSound) →
        Succeeds (x (c.followed ((vs ++ ts).map .ok) ending)) ts fun _ => True)
      (hspent : ∀ e ending, Spent (x (c.followed [.error e] ending)))

namespace Completes

theorem of_closes {x : Reading ε α} {ending : Position} (h : Closes Ψ ws x)
    (hspent : ∀ e p, Spent (x ⟨none, [.error e], p⟩)) : Completes Ψ x ⟨none, [], ending⟩ :=
  .ended (h.lacks _ .nil) (fun vs ts _ hvs hts hs => h.succeeds vs ts _ hvs hts (.fresh hs)) hspent

/-- A step that does not depend on what follows. -/
theorem of_step {x y : Reading ε α} (h : x c = y c')
    (hmore : ∀ more ending, x (c.followed more ending) = y (c'.followed more ending))
    (hy : Completes Ψ y c') : Completes Ψ x c := by
  cases hy with
  | ok hy hc hymore =>
    exact .ok (h.trans hy) hc fun more ending => (hmore more ending).trans (hymore more ending)
  | error hy hf hymore =>
    refine .error (h.trans hy) hf fun more ending => ?_
    rw [hmore]
    exact hymore more ending
  | ended hy hymore hspent =>
    refine .ended (by rwa [h]) (fun vs ts ending hvs hts hs => ?_) fun e ending => ?_
    · rw [hmore]
      exact hymore vs ts ending hvs hts hs
    · rw [hmore]
      exact hspent e ending

theorem pure (hc : c.Open) (a : α) : Completes Ψ (Pure.pure a : Reading ε α) c :=
  .ok rfl hc fun _ _ => rfl

theorem throw {fault : ParseFault} {t : Token} (ht : t.isEnd = false) :
    Completes Ψ (throw (.grammar ⟨fault, t⟩) : Reading ε α) c :=
  .error rfl (by cases fault <;> simp [Failure.isEnd, ParseError.kind, ht]) fun _ _ => ⟨_, rfl⟩

/-- There is room for a token that was taken. -/
theorem refuse {wanted : Expectation} {t : Token} (ht : t.isEnd = false) (hl : c.lookahead = none) :
    Completes Ψ (Reading.refuse wanted t : Reading ε α) c := by
  have hfail {d : Cursor ε} (hd : d.lookahead = none) : ∃ d',
      (Reading.refuse wanted t : Reading ε α) d = .error (.grammar ⟨.unexpected wanted, t⟩) d' := by
    unfold Reading.refuse Cursor.refuse
    cases t.isBoundary <;> simp [Cursor.unread?, Cursor.held, hd]
  obtain ⟨c', h⟩ := hfail hl
  exact .error h (by simp [Failure.isEnd, ParseError.kind, ht]) fun more ending => hfail hl

theorem bind {x : Reading ε α} {f : α → Reading ε β} (hx : Completes Φ x c) (hlead : Leads Ψ Φ ws)
    (hclose : ∀ a, Closes Ψ ws (f a)) (hf : ∀ a c', x c = .ok a c' → c'.Open → Completes Ψ (f a) c') :
    Completes Ψ (x >>= f) c := by
  cases hx with
  | ok h hc hmore =>
    exact .of_step (bind_of_ok h) (fun more ending => bind_of_ok (hmore more ending)) (hf _ _ h hc)
  | error h hend hmore =>
    refine .error (bind_of_error h) hend fun more ending => ?_
    obtain ⟨d, hd⟩ := hmore more ending
    exact ⟨d, bind_of_error hd⟩
  | ended h hmore hspent =>
    refine .ended (h.bind fun a c' hc' => (hclose a).lacks c' hc') (fun vs ts ending hvs hts hs => ?_)
      fun e ending => (hspent e ending).bind fun a c' hc' => ((hclose a).lacks c' hc').spent
    -- what the first action lacks comes before what the second does, whatever value the first then has
    obtain ⟨us, us', rfl, hus, hus'⟩ := hvs.append
    rw [List.append_assoc] at hs ⊢
    refine (hmore us _ ending hus (hlead us' ts hus' hts) hs).bind fun a c' hc' _ => ?_
    exact (hclose a).succeeds us' ts c' hus' hts hc'

theorem map {x : Reading ε α} (g : α → β) (hx : Completes Ψ x c) :
    Completes Ψ (do let a ← x; Pure.pure (g a)) c :=
  hx.bind .refl (fun a => .pure (g a)) fun a _ _ hc' => .pure hc' (g a)

theorem look {f : Token → Reading ε α} (hc : c.Open) (hclose : Closes Ψ ws (Reading.look >>= f))
    (hf : ∀ t c', Reading.look c = .ok t c' → t.isEnd = false → c'.Open → Completes Ψ (f t) c') :
    Completes Ψ (Reading.look >>= f) c := by
  rcases hc.look_cases with ⟨t, c', hl, ht, hc', hmore⟩ | ⟨e, c', hpeek, -, hmore⟩ | ⟨ending, rfl⟩
  · exact .of_step (bind_of_ok hl) (fun more ending => bind_of_ok (hmore more ending)) (hf t c' hl ht hc')
  · refine .error (bind_of_error (look_of_peek_error hpeek)) rfl fun more ending => ?_
    exact ⟨_, bind_of_error (look_of_peek_error (hmore more ending))⟩
  · exact .of_closes hclose fun _ _ => .error rfl

theorem skip {f : Unit → Reading ε α} (h : Completes Ψ (f ()) c.skip) :
    Completes Ψ (Reading.skip >>= f) c := .of_step (y := f ()) rfl (fun _ _ => rfl) h

theorem take {f : Token → Reading ε α} (hc : c.Open) (hclose : Closes Ψ ws (Reading.take >>= f))
    (hf : ∀ t c', Reading.take c = .ok t c' → t.isEnd = false → c'.Open → c'.lookahead = none →
      Completes Ψ (f t) c') : Completes Ψ (Reading.take >>= f) c := by
  rcases hc.look_cases with ⟨t, c', hl, ht, hc', hmore⟩ | ⟨e, c', hpeek, -, hmore⟩ | ⟨ending, rfl⟩
  · have htake {d d' : Cursor ε} (h : Reading.look d = .ok t d') : Reading.take d = .ok t d'.skip := by
      rw [take_of_look h, ht]
      rfl
    refine .of_step (bind_of_ok (htake hl)) (fun more ending => bind_of_ok (htake (hmore more ending))) ?_
    exact hf t c'.skip (htake hl) ht hc'.skip rfl
  · refine .error (bind_of_error (take_of_look_error (look_of_peek_error hpeek))) rfl fun more ending => ?_
    exact ⟨_, bind_of_error (take_of_look_error (look_of_peek_error (hmore more ending)))⟩
  · exact .of_closes hclose fun _ _ => .error rfl

/-- An error takes the place of the answer, and what comes after a no is all that is left. -/
theorem accept {p : Token → Bool} {f : Bool → Reading ε α} (hc : c.Open)
    (hclose : Closes Ψ ws (Reading.accept p >>= f)) (hno : Closes Φ ws' (f false))
    (hf : ∀ b c', Reading.accept p c = .ok b c' → c'.Open → Completes Ψ (f b) c') :
    Completes Ψ (Reading.accept p >>= f) c := by
  have hstep {b : Bool} {c' : Cursor ε} (hc' : c'.Open) (h : Reading.accept p c = .ok b c')
      (hmore : ∀ more ending, Reading.accept p (c.followed more ending) =
        .ok b (c'.followed more ending)) : Completes Ψ (Reading.accept p >>= f) c :=
    .of_step (bind_of_ok h) (fun more ending => bind_of_ok (hmore more ending)) (hf b c' h hc')
  rcases hc.look_cases with ⟨t, c', hl, ht, hc', hmore⟩ | ⟨e, c', hpeek, hc', hmore⟩ | ⟨ending, rfl⟩
  · cases hp : p t with
    | true =>
      exact hstep hc'.skip (accept_of_look_true hl hp) fun more ending =>
        accept_of_look_true (hmore more ending) hp
    | false =>
      exact hstep hc' (accept_of_look_false hl hp) fun more ending =>
        accept_of_look_false (hmore more ending) hp
  · exact hstep hc' (accept_of_peek_error hpeek) fun more ending =>
      accept_of_peek_error (hmore more ending)
  · refine .of_closes hclose fun e p => ?_
    rw [bind_of_ok (accept_of_peek_error (c := ⟨none, [.error e], p⟩) rfl)]
    exact (hno.lacks _ .nil).spent

end Completes

/-! ## Expressions -/

/-- What comes after an operand on the right of an operator is nothing. -/
theorem closes_right (least : Int) (prec : Precedence) (f : Expr → Expr) (rhs : Expr) :
    Closes Ends [] (do
      let ahead ← look
      match prec.rightLevel? ahead with
      | some level => do
        let rhs ← operators level rhs
        operators least (f rhs)
      | none => operators least (f rhs) : Reading ε Expr) := by
  refine .look .refl fun ahead ha => ?_
  have hnone : prec.rightLevel? ahead = none := by simp [Precedence.rightLevel?, ha]
  simp only [hnone]
  exact closes_operators least _

/-- What comes after an expression in parentheses is the other parenthesis. -/
theorem closes_paren {t : Token} (ht : t.opensParen = true) (e : Expr) : Closes Ψ [.closeParen] (do
    let u ← take
    if u.closes t then pure e else refuse .closeParen u : Reading ε Expr) := by
  refine .take (fun u hu => ?_) fun u hu => ⟨.closeParen, ?_⟩
  · rw [if_pos (Token.closes_of_opensParen (Token.closesParen_of_unplaced hu) ht)]
    exact .pure e
  · refine if_neg fun hcloses => ?_
    rw [Token.isEnd_of_closes hcloses] at hu
    cases hu

/-- What comes after the parenthesis of a call is an argument. -/
theorem closes_call (t : Token) : Closes Ψ [.zero, .closeParen] (do
    if ← accept Token.closesParen then pure (.call t.text [] t.pos)
    else
      let args ← arguments
      pure (.call t.text args t.pos) : Reading ε Expr) := by
  -- the parenthesis alone would do, but at the end of the input it is an argument that is asked for
  refine .decline_filler (fun _ => rfl) rfl (fun _ => Token.isEnd_of_closesParen) ?_
  exact closes_arguments.map _

/-- What comes after a name is nothing. -/
theorem closes_name (t : Token) : Closes Ends [] (do
    if ← accept Token.opensParen then
      if ← accept Token.closesParen then pure (.call t.text [] t.pos)
      else
        let args ← arguments
        pure (.call t.text args t.pos)
    else pure (.name t.text t.pos) : Reading ε Expr) := by
  refine .decline (fun vs ts u hvs hts hu => ?_) (fun _ => Token.isEnd_of_opensParen) (.pure _)
  exact (Leads.refl vs ts hvs hts).opensParen u hu

mutual

theorem completes_expression {c : Cursor ε} (hc : c.Open) : Completes Ends expression c := by
  rw [expression_eq]
  refine (completes_unary hc).bind .refl (closes_operators 0) fun lhs c₁ h₁ hc₁ => ?_
  have := Parsed.size_of_outcome h₁
  exact completes_operators 0 lhs hc₁
termination_by 5 * c.size + 2

theorem completes_operators (least : Int) (lhs : Expr) {c : Cursor ε} (hc : c.Open) :
    Completes Ends (operators least lhs) c := by
  have hclose := closes_operators (ε := ε) least lhs
  rw [operators_eq] at hclose ⊢
  refine .look hc hclose fun t c₁ h₁ he hc₁ => ?_
  cases ho : t.operator? with
  | none => exact .pure hc₁ lhs
  | some op =>
    have hlt := size_skip_look_lt h₁ he
    simp only
    cases op.precedence? with
    | none => exact .throw he
    | some prec =>
      simp only
      split
      · exact .pure hc₁ lhs
      · refine .skip ?_
        refine (completes_unary hc₁.skip).bind .refl (closes_right least prec _) fun rhs c₃ h₃ hc₃ => ?_
        have hle₃ := Parsed.size_of_outcome h₃
        refine .look hc₃ (closes_right least prec _ rhs) fun ahead c₄ h₄ _ hc₄ => ?_
        have hle₄ := size_look_le h₄
        cases prec.rightLevel? ahead with
        | none => exact completes_operators least _ hc₄
        | some level =>
          refine (completes_operators level rhs hc₄).bind .refl (fun _ => closes_operators least _)
            fun rhs c₅ h₅ hc₅ => ?_
          have hle₅ := Parsed.size_of_outcome h₅
          exact completes_operators least _ hc₅
termination_by 5 * c.size

theorem completes_unary {c : Cursor ε} (hc : c.Open) : Completes Ends unary c := by
  have hclose := closes_unary (ε := ε) (Ψ := Ends)
  rw [unary_eq] at hclose ⊢
  refine .look hc hclose fun t c₁ h₁ he hc₁ => ?_
  cases ho : t.operator? with
  | none =>
    have := size_look_le h₁
    exact completes_primary hc₁
  | some op =>
    have hlt := size_skip_look_lt h₁ he
    simp only
    split
    · refine .skip ?_
      exact (completes_unary hc₁.skip).map _
    · exact .throw he
termination_by 5 * c.size + 1

theorem completes_primary {c : Cursor ε} (hc : c.Open) : Completes Ends primary c := by
  have hclose := closes_primary (ε := ε) (Ψ := Ends)
  rw [primary_eq] at hclose ⊢
  refine .take hc hclose fun t c₁ h₁ he hc₁ hl => ?_
  cases ho : t.operandStart? with
  | none => exact .refuse he hl
  | some start =>
    have hlt := size_take_lt h₁ he
    exact completes_operand ho hc₁
termination_by 5 * c.size

theorem completes_operand {start : Token.OperandStart} {t : Token} (ht : t.operandStart? = some start)
    {c : Cursor ε} (hc : c.Open) : Completes Ends (operand start t) c := by
  have he := Token.isEnd_of_operandStart? ht
  rw [operand_eq]
  cases start with
  | integer =>
    simp only
    cases Numeral.int64? t.text with
    | none => exact .throw he
    | some v => exact .pure hc _
  | float =>
    simp only
    cases Numeral.binary64? t.text with
    | none => exact .throw he
    | some v => exact .pure hc _
  | name =>
    refine .accept hc (closes_name t) (Closes.pure (Ψ := Ends) _) fun b c₁ h₁ hc₁ => ?_
    have hle₁ := size_accept_le h₁
    cases b with
    | false => exact .pure hc₁ _
    | true =>
      refine .accept hc₁ (closes_call t) ((closes_arguments (Ψ := Ends)).map _) fun b c₂ h₂ hc₂ => ?_
      have hle₂ := size_accept_le h₂
      cases b with
      | true => exact .pure hc₂ _
      | false =>
        exact (completes_arguments hc₂).map _
  | paren =>
    have hclose := closes_paren (ε := ε) (Ψ := Ends) (Token.opensParen_of_operandStart? ht)
    refine (completes_expression hc).bind (.ends (by decide)) hclose fun e c₁ _ hc₁ => ?_
    refine .take hc₁ (hclose e) fun u c₂ _ hu hc₂ hl => ?_
    split
    · exact .pure hc₂ e
    · exact .refuse hu hl
  | binding => exact completes_bindings hc
termination_by 5 * c.size + 4

theorem completes_arguments {c : Cursor ε} (hc : c.Open) : Completes Ends arguments c := by
  rw [arguments_eq]
  refine (completes_expression hc).bind (.ends (by decide)) closes_argument fun e c₁ h₁ hc₁ => ?_
  have hle₁ := Parsed.size_of_outcome h₁
  refine .take hc₁ (closes_argument e) fun u c₂ h₂ hu hc₂ hl => ?_
  split
  · exact .pure hc₂ _
  · split
    · have hlt := size_take_lt h₂ hu
      exact (completes_arguments hc₂).map _
    · exact .refuse hu hl
termination_by 5 * c.size + 3

theorem completes_bindings {c : Cursor ε} (hc : c.Open) : Completes Ends bindings c := by
  have hclose := closes_bindings (ε := ε)
  rw [bindings_eq] at hclose ⊢
  refine .take hc hclose fun t c₁ h₁ ht hc₁ hl => ?_
  have hlt := size_take_lt h₁ ht
  split
  · refine .look hc₁ (closes_initializer t) fun u c₂ h₂ _ hc₂ => ?_
    have hle₂ := size_look_le h₂
    split
    · have hle₃ := c₂.size_skip_le
      refine .skip ((completes_expression hc₂.skip).bind (.ends (by decide)) (closes_afterBinding t)
        fun init c₄ h₄ hc₄ => ?_)
      have hle₄ := Parsed.size_of_outcome h₄
      exact completes_afterBinding t init hc₄
    · exact completes_afterBinding t _ hc₂
  · exact .refuse ht hl
termination_by 5 * c.size + 2

theorem completes_afterBinding (t : Token) (init : Expr) {c : Cursor ε} (hc : c.Open) :
    Completes Ends (afterBinding t init) c := by
  have hclose := closes_afterBinding (ε := ε) t init
  rw [afterBinding_eq] at hclose ⊢
  refine .accept hc hclose (closes_within t init) fun b c₁ h₁ hc₁ => ?_
  have hle₁ := size_accept_le h₁
  cases b with
  | true => exact (completes_bindings hc₁).map _
  | false =>
    refine .take hc₁ (closes_within t init) fun u c₂ h₂ hu hc₂ hl => ?_
    split
    · have hlt := size_take_lt h₂ hu
      exact (completes_expression hc₂).map _
    · exact .refuse hu hl
termination_by 5 * c.size + 3

end

/-! ## Items -/

theorem completes_parameters (afterComma : Bool) {c : Cursor ε} (hc : c.Open) :
    Completes Ψ (parameters afterComma) c := by
  have hclose := closes_parameters (ε := ε) (Ψ := Ψ) afterComma
  rw [parameters_eq] at hclose ⊢
  refine .take hc hclose fun t c₁ h₁ ht hc₁ hl => ?_
  have hlt := size_take_lt h₁ ht
  split
  · refine .accept hc₁ (closes_parameter t) ((closes_parameters_nil (Ψ := Ψ)).map _) fun comma c₂ h₂ hc₂ => ?_
    have hle₂ := size_accept_le h₂
    exact (completes_parameters comma hc₂).map _
  · split
    · exact .pure hc₁ _
    · exact .refuse ht hl
termination_by c.size

theorem completes_prototype {c : Cursor ε} (hc : c.Open) : Completes Ψ prototype c := by
  have hclose := closes_prototype (ε := ε) (Ψ := Ψ)
  rw [prototype_eq] at hclose ⊢
  refine .take hc hclose fun t c₁ _ ht hc₁ hl => ?_
  split
  · refine .take hc₁ (closes_signature t) fun u c₂ _ hu hc₂ hl => ?_
    split
    · exact (completes_parameters false hc₂).map _
    · exact .refuse hu hl
  · exact .refuse ht hl

theorem completes_itemFrom {t : Token} (ht : t.isEnd = false) {c : Cursor ε} (hc : c.Open)
    (hl : c.lookahead = none) : Completes Ends (itemFrom t) c := by
  rw [itemFrom_eq]
  split
  · refine (completes_prototype hc).bind .any
      (fun _ => closes_expression.map _) fun proto c₁ _ hc₁ => ?_
    exact (completes_expression hc₁).map _
  · split
    · exact (completes_prototype hc).map _
    · have hunread (d : Cursor ε) (hd : d.lookahead = none) :
          unread t d = .ok () ⟨some t, d.coming, d.ending⟩ := by
        simp [unread, Cursor.unread?, Cursor.held, hd]
      have hopen : (⟨some t, c.coming, c.ending⟩ : Cursor ε).Open :=
        ⟨hc.coming, by rintro u ⟨⟩; exact ht⟩
      refine .of_step (bind_of_ok (hunread c hl)) (fun more ending => bind_of_ok (hunread _ hl)) ?_
      exact (completes_expression hopen).map _

theorem closes_item : Closes (· = []) [] (item : Reading ε (Option Item)) where
  succeeds vs ts c hvs hts hc := by
    rw [hvs.eq_nil, hts] at hc
    obtain ⟨t, c', hl, ht, hc', -⟩ := hc.look
    rw [item_of_look_end hl ht, hts]
    exact ⟨none, c', rfl, hc', trivial⟩
  lacks c hc := by
    obtain ⟨t, c', hl, ht, hc', -⟩ := hc.look
    rw [item_of_look_end hl ht]
    exact .ok hc'

theorem completes_item {c : Cursor ε} (hc : c.Open) : Completes (· = []) item c := by
  have hclose := closes_item (ε := ε)
  rw [item_eq] at hclose ⊢
  refine .take hc hclose fun t c₁ h₁ ht hc₁ hl => ?_
  have hlt := size_take_lt h₁ ht
  rw [if_neg (by simp [ht])]
  split
  · exact completes_item hc₁
  · have hlead : Leads (· = []) Ends [] := by
      rintro vs ts hvs rfl
      rw [hvs.eq_nil]
      exact ends_nil
    exact (completes_itemFrom ht hc₁ hl).bind hlead (fun _ => .pure _) fun i c₂ _ hc₂ => .pure hc₂ _
termination_by c.size

/-! ## Programs -/

/-- After an item at the end of the input there is no other. -/
theorem program_of_item {i : Option Item} (h : item c = .ok i c') (hc' : c'.Reads []) :
    ∃ items, Parse.program c = .ok items := by
  rw [program_eq, h]
  cases i with
  | none => exact ⟨[], rfl⟩
  | some i => exact ⟨[i], by simp [program_nil hc', Except.map]⟩

/-- How a program goes on: its items are read, or an error stays whatever follows, or fillers complete it. -/
inductive Continued (c : Cursor ε) : Prop
  | ok {items : List Item} (h : Parse.program c = .ok items)
  | error {f : Failure ε} (h : Parse.program c = .error f) (hf : f.isEnd = false)
      (hmore : ∀ more ending, Parse.program (c.followed more ending) = .error f)
  | unfinished {f : Failure ε} (ws : List Filler) (h : Parse.program c = .error f) (hf : f.isEnd = true)
      (hmore : ∀ vs ending, Fills ws vs → (∀ t ∈ vs, t.IsSound) →
        ∃ items, Parse.program (c.followed (vs.map .ok) ending) = .ok items)

/-- An item that was read without a look at the end leaves everything to the items after it. -/
theorem Continued.cons {i : Item} (h : item c = .ok (some i) c')
    (hmore : ∀ more ending, item (c.followed more ending) = .ok (some i) (c'.followed more ending))
    (hc : Continued c') : Continued c := by
  have hcons : Parse.program c = (Parse.program c').map (i :: ·) := by rw [program_eq, h]
  have hcons' (more : List (Except ε Token)) (ending : Position) :
      Parse.program (c.followed more ending) =
        (Parse.program (c'.followed more ending)).map (i :: ·) := by rw [program_eq, hmore]
  cases hc with
  | ok hp => exact .ok (by rw [hcons, hp]; rfl)
  | error hp hf hpmore =>
    refine .error (by rw [hcons, hp]; rfl) hf fun more ending => ?_
    rw [hcons', hpmore]
    rfl
  | unfinished ws hp hf hpmore =>
    refine .unfinished ws (by rw [hcons, hp]; rfl) hf fun vs ending hvs hs => ?_
    obtain ⟨items, hitems⟩ := hpmore vs ending hvs hs
    exact ⟨i :: items, by rw [hcons', hitems]; rfl⟩

theorem continued {c : Cursor ε} (hc : c.Open) : Continued c := by
  cases completes_item hc with
  | @ok i c' h hc' hmore =>
    cases i with
    | none => exact .ok (show Parse.program c = .ok [] by rw [program_eq, h])
    | some i =>
      have hlt := size_item_lt h
      exact .cons h hmore (continued hc')
  | error h hf hmore =>
    refine .error (by rw [program_eq, h]) hf fun more ending => ?_
    obtain ⟨d, hd⟩ := hmore more ending
    rw [program_eq, hd]
  | @ended ws h hmore _ =>
    generalize hitem : item c = r at h
    cases h with
    | ok hc' =>
      obtain ⟨items, hitems⟩ := program_of_item hitem hc'
      exact .ok hitems
    | error ws hf _ =>
      refine .unfinished ws (by rw [program_eq, hitem]) hf fun vs ending hvs hs => ?_
      obtain ⟨i, d, hd, hreads, -⟩ := hmore vs [] ending hvs rfl (by simpa using hs)
      rw [List.append_nil] at hd
      exact program_of_item hd hreads
termination_by c.size

end Reading

/-! ## Texts -/

/-- The items of a text, or its first error. -/
def Parse.text (bytes : List UInt8) : Except (Failure ScanError) (List Item) :=
  program (.ofStream (.ofBytes bytes none))

theorem Cursor.coming_ofStream (s : TokenStream ε) : (Cursor.ofStream s).coming = s.answers := rfl

/-- A text and the lines after it are read one after the other. -/
theorem Cursor.ofStream_append (a b : List UInt8) : ∃ f ending,
    Cursor.ofStream (.ofBytes (a ++ Text.Line.lineFeed :: b) none) =
      (Cursor.ofStream (.ofBytes a none)).followed
        (((TokenStream.scan .start (Glyph.decode b)).1.map (placed f)).map (·.mapError .lexical))
        ending := by
  refine ⟨.moved (TokenStream.scan .start (Glyph.decode a)).2.line
    ((TokenStream.scan .start (Glyph.decode a)).2.offset + 1),
    (TokenStream.scan .start (Glyph.decode (a ++ 10 :: b))).2, ?_⟩
  simp only [Cursor.ofStream, Cursor.followed, TokenStream.ofBytes, List.append_nil, Text.Line.lineFeed]
  rw [TokenStream.scan_decode_append, List.map_append]

theorem Cursor.open_ofBytes (bytes : List UInt8) : (Cursor.ofStream (.ofBytes bytes none)).Open := by
  refine ⟨fun t ht => ?_, by simp [Cursor.ofStream]⟩
  have hmem : .ok t ∈ (TokenStream.ofBytes bytes none).answers := ht
  exact Reading.isEnd_of_mem_ofBytes hmem

namespace Filler

/-- The line that fillers are written in. -/
def line (ws : List Filler) : String := " ".intercalate ((ws.map token).map Token.text)

theorem scan_line (ws : List Filler) : ∃ us,
    (TokenStream.scan .start (Glyph.decode (line ws).toUTF8.toList)).1 = us.map .ok ∧ Fills ws us := by
  have hspells : ∀ t ∈ ws.map token, t.kind.Spells t.text := by
    intro t ht
    obtain ⟨w, -, rfl⟩ := List.mem_map.1 ht
    exact w.spells
  obtain ⟨us, hscan, hus⟩ := TokenStream.scan_of_lexes (Lexes.intercalate hspells)
  refine ⟨us, hscan, hus.trans ?_⟩
  rw [List.map_map]
  exact List.map_congr_left fun w _ => by cases w <;> rfl

end Filler

namespace Reading

/-- A text is continued by the line of its fillers. -/
theorem text_append_line {text : List UInt8} {ws : List Filler}
    (h : ∀ vs ending, Fills ws vs → (∀ t ∈ vs, t.IsSound) → ∃ items,
      Parse.program ((Cursor.ofStream (.ofBytes text none)).followed (vs.map .ok) ending) = .ok items) :
    ∃ items, Parse.text (text ++ Text.Line.lineFeed :: (Filler.line ws).toUTF8.toList) = .ok items := by
  obtain ⟨us, hscan, hus⟩ := Filler.scan_line ws
  obtain ⟨f, ending, hcursor⟩ := Cursor.ofStream_append text (Filler.line ws).toUTF8.toList
  have hmore : ((us.map .ok).map (placed f)).map (·.mapError ScanError.lexical) =
      (us.map fun t => { t with pos := f t.pos }).map .ok := by
    simp only [List.map_map]
    rfl
  rw [hscan, hmore] at hcursor
  rw [Parse.text, hcursor]
  refine h _ ending ?_ fun t ht => ?_
  · unfold Fills
    rw [List.map_map, ← hus]
    rfl
  · have hmem : .ok t ∈ (TokenStream.ofBytes
        (text ++ Text.Line.lineFeed :: (Filler.line ws).toUTF8.toList) none).answers := by
      rw [← Cursor.coming_ofStream, hcursor]
      exact List.mem_append_right _ (List.mem_map_of_mem ht)
    exact (TokenStream.isLexed_of_mem_ofBytes hmem).isSound

end Reading

namespace Repl

variable {text : List UInt8}

theorem isUnfinished_of_error {f : Failure ScanError} (h : Parse.text text = .error f) :
    isUnfinished text = f.isEnd := by
  unfold Parse.text at h
  unfold isUnfinished
  rw [h]
  cases f <;> rfl

theorem exists_error_of_isUnfinished (h : isUnfinished text = true) :
    ∃ f, Parse.text text = .error f := by
  cases hp : Parse.text text with
  | error f => exact ⟨f, rfl⟩
  | ok items =>
    unfold Parse.text at hp
    unfold isUnfinished at h
    rw [hp] at h
    cases h

theorem exists_line_of_isUnfinished (h : isUnfinished text = true) :
    ∃ (line : String) (items : List Item),
      Parse.text (text ++ Text.Line.lineFeed :: line.toUTF8.toList) = .ok items := by
  obtain ⟨f, hf⟩ := exists_error_of_isUnfinished h
  have hend := (isUnfinished_of_error hf).symm.trans h
  cases Reading.continued (Cursor.open_ofBytes text) with
  | ok hok => cases hf.symm.trans hok
  | error herror hne _ =>
    cases hf.symm.trans herror
    rw [hne] at hend
    cases hend
  | unfinished ws _ _ hmore => exact ⟨Filler.line ws, Reading.text_append_line hmore⟩

theorem error_append {f : Failure ScanError} (hf : Parse.text text = .error f)
    (h : isUnfinished text = false) (more : List UInt8) :
    Parse.text (text ++ Text.Line.lineFeed :: more) = .error f := by
  have hne := (isUnfinished_of_error hf).symm.trans h
  cases Reading.continued (Cursor.open_ofBytes text) with
  | ok hok => cases hf.symm.trans hok
  | error herror _ hmore =>
    cases hf.symm.trans herror
    obtain ⟨g, ending, hcursor⟩ := Cursor.ofStream_append text more
    rw [Parse.text, hcursor, hmore]
  | unfinished _ herror hend _ =>
    cases hf.symm.trans herror
    rw [hend] at hne
    cases hne

/-- The text that a line belongs to. -/
def gathered (r : Repl) (line : List UInt8) : List UInt8 :=
  if r.pending.isEmpty then line else r.pending ++ Text.Line.lineFeed :: line

theorem enter_eq (r : Repl) (line : List UInt8) : r.enter line =
    if isUnfinished (r.gathered line) then (.printed "", { r with pending := r.gathered line })
    else if isBlank (r.gathered line) then (.printed "", { r with pending := [] })
    else r.eval (r.gathered line) := rfl

/-- Lines wait for more exactly if their text is unfinished. -/
theorem pending_enter_ne_nil_iff (r : Repl) (line : List UInt8) :
    (r.enter line).2.pending ≠ [] ↔ isUnfinished (r.gathered line) = true := by
  have hnil : isUnfinished [] = false := by decide +kernel
  rw [enter_eq]
  split
  · rename_i h
    refine iff_of_true (fun hempty : r.gathered line = [] => ?_) h
    rw [hempty, hnil] at h
    cases h
  · rename_i h
    refine iff_of_false (fun hne => hne ?_) h
    split
    · rfl
    · rfl

/-- More lines are asked for exactly if they can help: a text is unfinished if it is no program and some
line after it makes it one, and a text with another error keeps that error whatever lines follow. -/
theorem isUnfinished_iff_continued (text : List UInt8) :
    (isUnfinished text = true ↔ (∃ f, Parse.text text = .error f) ∧
      ∃ (line : String) (items : List Item),
        Parse.text (text ++ Text.Line.lineFeed :: line.toUTF8.toList) = .ok items) ∧
    (∀ f, Parse.text text = .error f → isUnfinished text = false →
      ∀ more, Parse.text (text ++ Text.Line.lineFeed :: more) = .error f) ∧
    ∀ (r : Repl) (line : List UInt8), r.gathered line = text →
      ((r.enter line).2.pending ≠ [] ↔ isUnfinished text = true) := by
  refine ⟨⟨fun h => ⟨exists_error_of_isUnfinished h, exists_line_of_isUnfinished h⟩, ?_⟩,
    fun f => error_append, fun r line h => h ▸ pending_enter_ne_nil_iff r line⟩
  rintro ⟨⟨f, hf⟩, line, items, hitems⟩
  by_contra hn
  have hstays := error_append hf (Bool.eq_false_iff.2 hn) line.toUTF8.toList
  cases hstays.symm.trans hitems

/-- The first text asks for an argument, the second has two without a comma. -/
theorem isUnfinished_iff_continued_call :
    isUnfinished "var x = f(".toUTF8.toList = true ∧
    (∃ (line : String) (items : List Item), Parse.text
      ("var x = f(".toUTF8.toList ++ Text.Line.lineFeed :: line.toUTF8.toList) = .ok items) ∧
    ((start ⟨[]⟩).enter "var x = f(".toUTF8.toList).2.pending ≠ [] ∧
    isUnfinished "f(1 2".toUTF8.toList = false ∧
    ∀ more, Parse.text ("f(1 2".toUTF8.toList ++ Text.Line.lineFeed :: more) =
      .error (.grammar ⟨.unexpected .commaOrClose, ⟨.integer, "2", ⟨1, 5, 4⟩⟩⟩) := by
  have hunfinished : isUnfinished "var x = f(".toUTF8.toList = true := by decide +kernel
  have hwrong : isUnfinished "f(1 2".toUTF8.toList = false := by decide +kernel
  have herror : Parse.text "f(1 2".toUTF8.toList =
      .error (.grammar ⟨.unexpected .commaOrClose, ⟨.integer, "2", ⟨1, 5, 4⟩⟩⟩) := by
    with_unfolding_all rfl
  obtain ⟨hiff, -, hasks⟩ := isUnfinished_iff_continued "var x = f(".toUTF8.toList
  refine ⟨hunfinished, (hiff.1 hunfinished).2, (hasks (start ⟨[]⟩) _ rfl).2 hunfinished, hwrong, ?_⟩
  exact (isUnfinished_iff_continued _).2.1 _ herror hwrong

end Repl

end ScalarLang
