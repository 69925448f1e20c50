import ScalarLang.Proofs.InternalErrors
import ScalarLang.Proofs.Tiling
/-!
# Where errors are reported

What an item is made of, and what is wrong with it, stands at the places of the tokens that it was read
from (`spans_item`), and the items of a source are read one after another. A token that starts the next
item can be the place where the item before it fails; but no item fails at the keyword that it starts
with. So the errors of a source are reported in the order of their places, and no place is reported twice
(`located_errors`).
-/
namespace ScalarLang

/-! ## Places in trees -/

mutual

/-- The places of all nodes of an expression. -/
def Expr.places : Expr → List Position
  | .integer _ pos | .float _ pos | .name _ pos => [pos]
  | .bind _ init body pos => pos :: (init.places ++ body.places)
  | .unary _ x pos => pos :: x.places
  | .binary _ x y pos => pos :: (x.places ++ y.places)
  | .call _ args pos => pos :: placesOfAll args
  | .missing => []

/-- The places of some expressions, in order. -/
def placesOfAll : List Expr → List Position
  | [] => []
  | e :: es => e.places ++ placesOfAll es

end

/-- The places that something can be wrong at: that of the head, which is the name of the function, and those
of the body. -/
def Item.places : Item → List Position
  | external p _ => [p.pos]
  | define p body _ => p.pos :: body.places
  | evaluate body _ => body.places

namespace Demand

/-- Where a demand comes from. -/
def pos : Demand → Position
  | name _ _ pos | call _ _ pos => pos

theorem pos_of_error? {arity? : String → Option Nat} {d : Demand} {e : LoweringError}
    (h : d.error? arity? = some e) : e.pos = d.pos := by
  cases d with
  | name id scope pos =>
    obtain ⟨-, hsome⟩ := Option.ite_none_left_eq_some.1 h
    cases hsome
    rfl
  | call callee given pos =>
    simp only [error?] at h
    split at h
    · cases h
      rfl
    · obtain ⟨-, hsome⟩ := Option.ite_none_left_eq_some.1 h
      cases hsome
      rfl

end Demand

mutual

theorem Expr.pos_of_mem_demands : ∀ (e : Expr) {scope : List String} {d : Demand},
    d ∈ e.demands scope → d.pos ∈ e.places
  | .integer .., _, _, h | .float .., _, _, h | .missing, _, _, h => by simp [Expr.demands] at h
  | .name id pos, scope, d, h => by
    obtain rfl := List.mem_singleton.1 h
    simp [Expr.places, Demand.pos]
  | .bind id init body pos, scope, d, h => by
    refine List.mem_cons_of_mem _ (List.mem_append.2 ?_)
    exact (List.mem_append.1 h).imp init.pos_of_mem_demands body.pos_of_mem_demands
  | .unary op x pos, scope, d, h => List.mem_cons_of_mem _ (x.pos_of_mem_demands h)
  | .binary op x y pos, scope, d, h => by
    refine List.mem_cons_of_mem _ (List.mem_append.2 ?_)
    exact (List.mem_append.1 h).imp x.pos_of_mem_demands y.pos_of_mem_demands
  | .call callee args pos, scope, d, h => by
    rcases List.mem_cons.1 h with rfl | h
    · exact List.mem_cons_self ..
    · exact List.mem_cons_of_mem _ (pos_of_mem_demandsOfAll args h)

theorem pos_of_mem_demandsOfAll : ∀ (es : List Expr) {scope : List String} {d : Demand},
    d ∈ demandsOfAll scope es → d.pos ∈ placesOfAll es
  | [], _, _, h => by simp [demandsOfAll] at h
  | e :: es, scope, d, h =>
    List.mem_append.2 ((List.mem_append.1 h).imp e.pos_of_mem_demands (pos_of_mem_demandsOfAll es))

end

theorem Expr.pos_of_mem_errors {e : Expr} {arity? : String → Option Nat} {scope : List String}
    {error : LoweringError} (h : error ∈ e.errors arity? scope) : error.pos ∈ e.places := by
  obtain ⟨d, hd, herror⟩ := List.mem_filterMap.1 h
  rw [Demand.pos_of_error? herror]
  exact e.pos_of_mem_demands hd

theorem Prototype.pos_of_mem_errors {p : Prototype} {known : Known} {e : LoweringError}
    (h : e ∈ p.errors known) : e.pos = p.pos := by
  simp only [errors, List.mem_append, List.mem_map] at h
  rcases h with (hname | ⟨param, -, rfl⟩) | harity
  · split at hname <;> simp at hname
    rw [hname]
  · rfl
  · split at harity
    · split at harity <;> simp at harity
      rw [harity]
    · simp at harity

theorem Known.pos_of_mem_definitionErrors {known : Known} {outer : List String} {p : Prototype}
    {body : Expr} {e : LoweringError} (h : e ∈ known.definitionErrors outer p body) :
    e.pos ∈ p.pos :: body.places := by
  simp only [definitionErrors, List.mem_append] at h
  rcases h with (hdefined | hp) | hbody
  · split at hdefined <;> simp at hdefined
    simp [hdefined]
  · simp [Prototype.pos_of_mem_errors hp]
  · exact List.mem_cons_of_mem _ (Expr.pos_of_mem_errors hbody)

/-- A complete item fails at one of its places, whatever state the generator is in. -/
theorem Generator.pos_of_item (g : Generator) {i : Item} {e : LoweringError} (hi : i.isComplete = true)
    (h : (g.item i).result = .error e) : e.pos ∈ i.places := by
  obtain ⟨outer, hs⟩ := g.scope.exists_binds
  have hevaluate {body : Expr} (hb : body.isComplete = true) (h : (g.evaluate body).result = .error e) :
      e.pos ∈ body.places :=
    Expr.pos_of_mem_errors ((reports_evaluate hs hb).mem h)
  cases i with
  | external p pos =>
    simp [Item.places, Prototype.pos_of_mem_errors ((reports_declare g p).mem h)]
  | evaluate body pos => exact hevaluate hi h
  | define p body pos =>
    simp only [item] at h
    split at h
    · exact List.mem_cons_of_mem _ (hevaluate hi h)
    · exact Known.pos_of_mem_definitionErrors ((reports_define hs hi).mem h)

/-! ## Places that are still to be read -/

namespace Cursor

/-- The places of all that is still to be taken, up to the end of the input. -/
def places (c : Cursor ScanError) : List Position :=
  (match c.lookahead with
    | some t => if t.isEnd then [] else [t.pos]
    | none => []) ++ c.coming.map TokenStream.place ++ [c.ending]

/-- The end of the input comes after all answers, and at their ending. -/
structure Regular (c : Cursor ScanError) : Prop where
  coming : ∀ t, .ok t ∈ c.coming → t.isEnd = false
  lookahead : ∀ t, c.lookahead = some t → t.isEnd = true → c.coming = [] ∧ t.pos = c.ending

namespace Regular

variable {c c' : Cursor ScanError} {t : Token}

theorem skip (hc : c.Regular) : c.skip.Regular := ⟨hc.coming, by simp [Cursor.skip]⟩

/-- The token in the lookahead is the first to be taken. -/
theorem places_skip (ht : c.lookahead = some t) (he : t.isEnd = false) :
    c.places = [t.pos] ++ c.skip.places := by
  simp [places, Cursor.skip, ht, he]

theorem pos_mem (hc : c.Regular) (ht : c.lookahead = some t) : t.pos ∈ c.places := by
  cases he : t.isEnd with
  | false => simp [places_skip ht he]
  | true => simp [places, (hc.lookahead t ht he).2]

/-- A look moves nothing but an error, which is then gone. -/
theorem look_cases (hc : c.Regular) :
    (∃ t c', Reading.look c = .ok t c' ∧ c'.Regular ∧ c'.places = c.places ∧ c'.lookahead = some t) ∨
    ∃ e c', c.peek = (.error e, c') ∧ c'.Regular ∧ c.places = e.pos :: c'.places := by
  obtain ⟨l, cs, p⟩ := c
  rcases l with _ | t
  · rcases cs with _ | ⟨e | t, cs⟩
    · refine .inl ⟨_, _, rfl, ⟨by simp, ?_⟩, by simp [places, Token.isEnd], rfl⟩
      rintro t ⟨⟩ -
      exact ⟨rfl, rfl⟩
    · refine .inr ⟨e, _, rfl, ⟨fun t ht => hc.coming t (List.mem_cons_of_mem _ ht), by simp⟩, ?_⟩
      simp [places, TokenStream.place]
    · have he := hc.coming t (List.mem_cons_self ..)
      refine .inl ⟨t, _, rfl, ⟨fun u hu => hc.coming u (List.mem_cons_of_mem _ hu), ?_⟩, ?_, rfl⟩
      · rintro u ⟨⟩ hend
        rw [he] at hend
        cases hend
      · simp [places, he, TokenStream.place]
  · exact .inl ⟨t, _, rfl, hc, rfl, rfl⟩

end Regular

end Cursor

/-- A failure that is reported at `p`. -/
def Failure.At (p : Position) : Failure ScanError → Prop
  | stream e => e.pos = p
  | grammar e => e.pos = p
  | overfull => False

namespace Reading

variable {α β : Type} {A : α → List Position} {B : β → List Position} {base all : List Position}
  {c : Cursor ScanError}

/-- An outcome of reading from the places `all`, when those of `base` were read before: what is read comes before
what is left. `A` gives the places of a result, which were all read. A failure is reported at a place that
was read, or at the token that comes next. -/
inductive Spans (A : α → List Position) (base all : List Position) :
    EStateM.Result (Failure ScanError) (Cursor ScanError) α → Prop
  | ok {a : α} {c : Cursor ScanError} (used : List Position) (hc : c.Regular)
      (hall : all = used ++ c.places) (ha : A a ⊆ base ++ used) : Spans A base all (.ok a c)
  | error {f : Failure ScanError} {c : Cursor ScanError} (used : List Position) {p : Position}
      (hc : c.Regular) (hall : all = used ++ c.places) (hf : f.At p)
      (hp : p ∈ base ++ used ∨ ∃ t, c.lookahead = some t ∧ p = t.pos) : Spans A base all (.error f c)

namespace Spans

theorem done {a : α} (hc : c.Regular) (ha : A a ⊆ base) : Spans A base c.places (.ok a c) :=
  .ok [] hc rfl (by simpa using ha)

theorem refused {t : Token} {fault : ParseFault} (hc : c.Regular) (ht : c.lookahead = some t) :
    Spans A base c.places (.error (.grammar ⟨fault, t⟩) c) :=
  .error [] (p := t.pos) hc rfl rfl (.inr ⟨t, ht, rfl⟩)

/-- A failure at a token that was taken. -/
theorem failed {t : Token} {fault : ParseFault} (hc : c.Regular) (ht : t.pos ∈ base) :
    Spans A base c.places (.error (.grammar ⟨fault, t⟩) c) :=
  .error [] (p := t.pos) hc rfl rfl (.inl (by simpa using ht))

/-- What was read before comes in front. -/
theorem after {used rest : List Position} {r : EStateM.Result (Failure ScanError) (Cursor ScanError) α}
    (h : Spans A (base ++ used) rest r) (hall : all = used ++ rest) : Spans A base all r := by
  cases h with
  | ok more hc hrest ha =>
    rw [List.append_assoc] at ha
    exact .ok (used ++ more) hc (by rw [hall, hrest, List.append_assoc]) ha
  | error more hc hrest hf hp =>
    rw [List.append_assoc] at hp
    exact .error (used ++ more) hc (by rw [hall, hrest, List.append_assoc]) hf hp

theorem bind {act : Reading ScanError α} {f : α → Reading ScanError β} (h : Spans A base all (act c))
    (hf : ∀ a c' base', act c = .ok a c' → c'.Regular → base ⊆ base' → A a ⊆ base' →
      Spans B base' c'.places (f a c')) : Spans B base all ((act >>= f) c) := by
  generalize hact : act c = r at h
  cases h with
  | @ok a c' used hc hall ha =>
    rw [bind_of_ok hact]
    exact (hf a c' _ hact hc (List.subset_append_left ..) ha).after hall
  | error used hc hall hf hp =>
    rw [bind_of_error hact]
    exact .error used hc hall hf hp

theorem look {f : Token → Reading ScanError α} (hc : c.Regular)
    (hf : ∀ t c', Reading.look c = .ok t c' → c'.Regular → c'.lookahead = some t →
      Spans A base c'.places (f t c')) : Spans A base c.places ((Reading.look >>= f) c) := by
  rcases hc.look_cases with ⟨t, c', hl, hc', hplaces, ht⟩ | ⟨e, c', hpeek, hc', hplaces⟩
  · rw [bind_of_ok hl, ← hplaces]
    exact hf t c' hl hc' ht
  · have hl := look_of_peek_error hpeek
    rw [bind_of_error hl, hplaces]
    exact .error [e.pos] hc' rfl rfl (.inl (by simp))

theorem skip {t : Token} {f : Unit → Reading ScanError α} (ht : c.lookahead = some t)
    (he : t.isEnd = false) (h : Spans A (base ++ [t.pos]) c.skip.places (f () c.skip)) :
    Spans A base c.places ((Reading.skip >>= f) c) :=
  h.after (Cursor.Regular.places_skip ht he)

/-- A token that is taken has been read, unless it is the end of the input. It can be refused. -/
theorem take {f : Token → Reading ScanError α} (hc : c.Regular)
    (hf : ∀ t c', Reading.take c = .ok t c' → c'.Regular →
      (∀ {r}, t.isEnd = false → Spans A (base ++ [t.pos]) c'.places r → Spans A base c.places r) →
      (∀ wanted, Spans A base c.places ((refuse wanted t : Reading ScanError α) c')) →
      Spans A base c.places (f t c')) :
    Spans A base c.places ((Reading.take >>= f) c) := by
  rcases hc.look_cases with ⟨t, c', hl, hc', hplaces, ht⟩ | ⟨e, c', hpeek, hc', hplaces⟩
  · rw [bind_of_ok (take_of_look hl)]
    refine hf t _ (take_of_look hl) ?_ (fun he h => ?_) fun wanted => ?_
    · split
      · exact hc'
      · exact hc'.skip
    · rw [he] at h
      exact h.after (by rw [← hplaces, Cursor.Regular.places_skip ht he]; rfl)
    · rw [refuse_take wanted hl, ← hplaces]
      cases hb : t.isBoundary with
      | true => exact .refused hc' ht
      | false =>
        have he := Parse.isEnd_of_isBoundary hb
        rw [Cursor.Regular.places_skip ht he]
        exact .error [t.pos] (p := t.pos) hc'.skip rfl rfl (.inl (by simp))
  · have hl := look_of_peek_error hpeek
    rw [bind_of_error (take_of_look_error hl), hplaces]
    exact .error [e.pos] hc' rfl rfl (.inl (by simp))

/-- A question for a token may move over the token or over an error. -/
theorem accept {p : Token → Bool} {f : Bool → Reading ScanError α} (hc : c.Regular)
    (hp : ∀ t, p t = true → t.isEnd = false)
    (hf : ∀ b c' base', Reading.accept p c = .ok b c' → c'.Regular → base ⊆ base' →
      Spans A base' c'.places (f b c')) : Spans A base c.places ((Reading.accept p >>= f) c) := by
  rcases hc.look_cases with ⟨t, c', hl, hc', hplaces, ht⟩ | ⟨e, c', hpeek, hc', hplaces⟩
  · rw [← hplaces]
    cases hpt : p t with
    | true =>
      have hyes := accept_of_look_true hl hpt
      rw [bind_of_ok hyes]
      refine (hf _ _ (base ++ [t.pos]) hyes hc'.skip (List.subset_append_left ..)).after ?_
      rw [Cursor.Regular.places_skip ht (hp t hpt)]
    | false =>
      have hno := accept_of_look_false hl hpt
      rw [bind_of_ok hno]
      exact hf _ _ base hno hc' (List.Subset.refl _)
  · have hno := accept_of_peek_error (p := p) hpeek
    rw [bind_of_ok hno]
    refine (hf _ _ (base ++ [e.pos]) hno hc' (List.subset_append_left ..)).after ?_
    rw [hplaces]
    rfl

end Spans

/-! ## Expressions -/

mutual

theorem spans_expression {base : List Position} {c : Cursor ScanError} (hc : c.Regular) :
    Spans Expr.places base c.places (expression c) := by
  rw [expression_eq]
  refine (spans_unary hc).bind fun lhs c₁ base₁ h₁ hc₁ _ hl => ?_
  have := Parsed.size_of_outcome h₁
  exact spans_operators 0 hl hc₁
termination_by 5 * c.size + 2

theorem spans_operators (least : Int) {lhs : Expr} {base : List Position} (hl : lhs.places ⊆ base)
    {c : Cursor ScanError} (hc : c.Regular) :
    Spans Expr.places base c.places (operators least lhs c) := by
  rw [operators_eq]
  refine .look hc fun t c₁ h₁ hc₁ ht => ?_
  cases ho : t.operator? with
  | none => exact .done hc₁ hl
  | some op =>
    have he := Token.isEnd_of_operator? ho
    have hlt := size_skip_look_lt h₁ he
    simp only
    cases op.precedence? with
    | none => exact .refused hc₁ ht
    | some prec =>
      simp only
      split
      · exact .done hc₁ hl
      · refine .skip ht he ?_
        refine (spans_unary hc₁.skip).bind fun rhs c₃ base₃ h₃ hc₃ hbase₃ hr => ?_
        have hle₃ := Parsed.size_of_outcome h₃
        have hleft : (t.pos :: lhs.places) ⊆ base₃ := by
          refine List.cons_subset.2 ⟨hbase₃ (by simp), fun q hq => hbase₃ ?_⟩
          exact List.mem_append_left _ (hl hq)
        refine .look hc₃ fun ahead c₄ h₄ hc₄ _ => ?_
        have hle₄ := size_look_le h₄
        cases prec.rightLevel? ahead with
        | none =>
          refine spans_operators least ?_ hc₄
          exact List.append_subset.2 ⟨hleft, hr⟩
        | some level =>
          refine (spans_operators level hr hc₄).bind fun rhs c₅ base₅ h₅ hc₅ hbase₅ hr₅ => ?_
          have hle₅ := Parsed.size_of_outcome h₅
          refine spans_operators least ?_ hc₅
          exact List.append_subset.2 ⟨List.Subset.trans hleft hbase₅, hr₅⟩
termination_by 5 * c.size

theorem spans_unary {base : List Position} {c : Cursor ScanError} (hc : c.Regular) :
    Spans Expr.places base c.places (unary c) := by
  rw [unary_eq]
  refine .look hc fun t c₁ h₁ hc₁ ht => ?_
  cases ho : t.operator? with
  | none =>
    have := size_look_le h₁
    exact spans_primary hc₁
  | some op =>
    have he := Token.isEnd_of_operator? ho
    have hlt := size_skip_look_lt h₁ he
    simp only
    split
    · refine .skip ht he ?_
      refine (spans_unary hc₁.skip).bind fun x c₃ base₃ _ hc₃ hbase₃ hx => ?_
      exact .done hc₃ (List.cons_subset.2 ⟨hbase₃ (by simp), hx⟩)
    · exact .refused hc₁ ht
termination_by 5 * c.size + 1

theorem spans_primary {base : List Position} {c : Cursor ScanError} (hc : c.Regular) :
    Spans Expr.places base c.places (primary c) := by
  rw [primary_eq]
  refine .take hc fun t c₁ h₁ hc₁ htaken hrefuse => ?_
  cases ho : t.operandStart? with
  | none => exact hrefuse .expression
  | some start =>
    have he := Token.isEnd_of_operandStart? ho
    have hlt := size_take_lt h₁ he
    exact htaken he (spans_operand start (by simp) hc₁)
termination_by 5 * c.size

theorem spans_operand (start : Token.OperandStart) {t : Token} {base : List Position} (ht : t.pos ∈ base)
    {c : Cursor ScanError} (hc : c.Regular) :
    Spans Expr.places base c.places (operand start t c) := by
  rw [operand_eq]
  cases start with
  | integer =>
    simp only
    cases Numeral.int64? t.text with
    | none => exact .failed hc ht
    | some v => exact .done hc (by simpa [Expr.places] using ht)
  | float =>
    simp only
    cases Numeral.binary64? t.text with
    | none => exact .failed hc ht
    | some v => exact .done hc (by simpa [Expr.places] using ht)
  | name =>
    refine .accept hc (fun _ => Token.isEnd_of_opensParen) fun b c₁ base₁ h₁ hc₁ hbase₁ => ?_
    have hle₁ := size_accept_le h₁
    cases b with
    | false => exact .done hc₁ (by simpa [Expr.places] using hbase₁ ht)
    | true =>
      refine .accept hc₁ (fun _ => Token.isEnd_of_closesParen)
        fun b c₂ base₂ h₂ hc₂ hbase₂ => ?_
      have hle₂ := size_accept_le h₂
      have ht₂ := hbase₂ (hbase₁ ht)
      cases b with
      | true => exact .done hc₂ (by simpa [Expr.places, placesOfAll] using ht₂)
      | false =>
        refine (spans_arguments hc₂).bind fun xs c₃ base₃ _ hc₃ hbase₃ hxs => ?_
        exact .done hc₃ (List.cons_subset.2 ⟨hbase₃ ht₂, hxs⟩)
  | paren =>
    refine (spans_expression hc).bind fun e c₁ base₁ _ hc₁ _ he => ?_
    refine .take hc₁ fun u c₂ _ hc₂ htaken hrefuse => ?_
    split
    · rename_i hcl
      refine htaken (Token.isEnd_of_closes hcl) (.done hc₂ ?_)
      exact List.Subset.trans he (List.subset_append_left ..)
    · exact hrefuse .closeParen
  | binding => exact spans_bindings hc
termination_by 5 * c.size + 4

theorem spans_arguments {base : List Position} {c : Cursor ScanError} (hc : c.Regular) :
    Spans placesOfAll base c.places (arguments c) := by
  rw [arguments_eq]
  refine (spans_expression hc).bind fun e c₁ base₁ h₁ hc₁ _ he => ?_
  have hle₁ := Parsed.size_of_outcome h₁
  refine .take hc₁ fun u c₂ h₂ hc₂ htaken hrefuse => ?_
  split
  · rename_i hcl
    refine htaken (Token.isEnd_of_closesParen hcl) (.done hc₂ ?_)
    simpa [placesOfAll] using List.Subset.trans he (List.subset_append_left ..)
  · split
    · rename_i hcomma
      have hend := Token.isEnd_of_isComma hcomma
      have hlt := size_take_lt h₂ hend
      refine htaken hend ((spans_arguments hc₂).bind fun es c₃ base₃ _ hc₃ hbase₃ hes => ?_)
      have he₃ := List.Subset.trans he (List.Subset.trans (List.subset_append_left ..) hbase₃)
      exact .done hc₃ (List.append_subset.2 ⟨he₃, hes⟩)
    · exact hrefuse .commaOrClose
termination_by 5 * c.size + 3

theorem spans_bindings {base : List Position} {c : Cursor ScanError} (hc : c.Regular) :
    Spans Expr.places base c.places (bindings c) := by
  rw [bindings_eq]
  refine .take hc fun t c₁ h₁ hc₁ htaken hrefuse => ?_
  split
  · rename_i hk
    have hend : t.isEnd = false := Token.isEnd_of_kind hk (by simp)
    have hlt := size_take_lt h₁ hend
    refine htaken hend (.look hc₁ fun u c₂ h₂ hc₂ hu => ?_)
    have hle₂ := size_look_le h₂
    split
    · rename_i ho
      have hend' := Token.isEnd_of_operator? ho
      have hle₃ := c₂.size_skip_le
      refine .skip hu hend' ?_
      refine (spans_expression hc₂.skip).bind fun init c₄ base₄ h₄ hc₄ hbase₄ hinit => ?_
      have hle₄ := Parsed.size_of_outcome h₄
      exact spans_afterBinding (hbase₄ (by simp)) hinit hc₄
    · exact spans_afterBinding (by simp) (by simp [Expr.places]) hc₂
  · exact hrefuse .variableName
termination_by 5 * c.size + 2

theorem spans_afterBinding {t : Token} {init : Expr} {base : List Position} (ht : t.pos ∈ base)
    (hinit : init.places ⊆ base) {c : Cursor ScanError} (hc : c.Regular) :
    Spans Expr.places base c.places (afterBinding t init c) := by
  rw [afterBinding_eq]
  refine .accept hc (fun _ => Token.isEnd_of_isComma) fun b c₁ base₁ h₁ hc₁ hbase₁ => ?_
  have hle₁ := size_accept_le h₁
  have hbind {body : Expr} {base' : List Position} (hbase : base₁ ⊆ base') (hbody : body.places ⊆ base') :
      (Expr.bind t.text init body t.pos).places ⊆ base' :=
    List.cons_subset.2 ⟨hbase (hbase₁ ht),
      List.append_subset.2 ⟨List.Subset.trans hinit (List.Subset.trans hbase₁ hbase), hbody⟩⟩
  cases b with
  | true =>
    exact (spans_bindings hc₁).bind fun body c₂ base₂ _ hc₂ hbase₂ hbody => .done hc₂ (hbind hbase₂ hbody)
  | false =>
    refine .take hc₁ fun v c₂ h₂ hc₂ htaken hrefuse => ?_
    split
    · rename_i hin
      have hend := Token.isEnd_of_isKeyword hin
      have hlt := size_take_lt h₂ hend
      refine htaken hend ((spans_expression hc₂).bind fun body c₃ base₃ _ hc₃ hbase₃ hbody => ?_)
      exact .done hc₃ (hbind (List.Subset.trans (List.subset_append_left ..) hbase₃) hbody)
    · exact hrefuse .within
termination_by 5 * c.size + 3

end

/-! ## Items -/

theorem spans_parameters (afterComma : Bool) {base : List Position} {c : Cursor ScanError}
    (hc : c.Regular) : Spans (fun _ => []) base c.places (parameters afterComma c) := by
  rw [parameters_eq]
  refine .take hc fun t c₁ h₁ hc₁ htaken hrefuse => ?_
  split
  · rename_i hk
    have hend : t.isEnd = false := Token.isEnd_of_kind hk (by simp)
    have hlt := size_take_lt h₁ hend
    refine htaken hend (.accept hc₁ (fun _ => Token.isEnd_of_isComma) fun comma c₂ base₂ h₂ hc₂ _ => ?_)
    have hle₂ := size_accept_le h₂
    exact (spans_parameters comma hc₂).bind fun names c₃ base₃ _ hc₃ _ _ => .done hc₃ (by simp)
  · split
    · rename_i hclose
      have hcl := (Bool.and_eq_true_iff.1 hclose).1
      exact htaken (Token.isEnd_of_closesParen hcl) (.done hc₁ (by simp))
    · exact hrefuse _
termination_by c.size

theorem spans_prototype {base : List Position} {c : Cursor ScanError} (hc : c.Regular) :
    Spans (fun p : Prototype => [p.pos]) base c.places (prototype c) := by
  rw [prototype_eq]
  refine .take hc fun t c₁ _ hc₁ htaken hrefuse => ?_
  split
  · rename_i hk
    refine htaken (Token.isEnd_of_kind hk (by simp)) (.take hc₁ fun u c₂ _ hc₂ htaken' hrefuse' => ?_)
    split
    · rename_i hopen
      refine htaken' (Token.isEnd_of_opensParen hopen) ?_
      refine (spans_parameters false hc₂).bind fun params c₃ base₃ _ hc₃ hbase₃ _ => ?_
      exact .done hc₃ (List.cons_subset.2 ⟨hbase₃ (by simp), by simp⟩)
    · exact hrefuse' _
  · exact hrefuse _

/-- The item that starts with a keyword. The keyword is no place of it. -/
theorem spans_itemFrom_keyword {t : Token} (ht : t.isKeyword .define = true ∨ t.isKeyword .external = true)
    {base : List Position} {c : Cursor ScanError} (hc : c.Regular) :
    Spans Item.places base c.places (itemFrom t c) := by
  rw [itemFrom_eq]
  split
  · refine (spans_prototype hc).bind fun proto c₁ base₁ _ hc₁ _ hproto => ?_
    refine (spans_expression hc₁).bind fun body c₂ base₂ _ hc₂ hbase₂ hbody => ?_
    exact .done hc₂ (List.cons_subset.2 ⟨hbase₂ (hproto (by simp)), hbody⟩)
  · rename_i hdefine
    rw [if_pos (ht.resolve_left hdefine)]
    exact (spans_prototype hc).bind fun proto c₁ base₁ _ hc₁ _ hproto => .done hc₁ hproto

theorem spans_itemFrom {t : Token} {base : List Position} {c : Cursor ScanError} (hc : c.Regular)
    (ht : c.lookahead = some t) (he : t.isEnd = false) :
    Spans Item.places base c.places (itemFrom t c.skip) := by
  by_cases hk : t.isKeyword .define = true ∨ t.isKeyword .external = true
  · exact (spans_itemFrom_keyword hk hc.skip).after (Cursor.Regular.places_skip ht he)
  · obtain ⟨hdefine, hexternal⟩ := not_or.1 hk
    rw [itemFrom_eq, if_neg hdefine, if_neg hexternal, bind_of_ok (unread_skip ht)]
    exact (spans_expression hc).bind fun body c₁ base₁ _ hc₁ _ hbody => .done hc₁ hbody

end Reading

namespace Cursor

/-- The places at which the next items can fail. The keyword that the next item starts with is none of them, if it
was looked at. -/
def failing (c : Cursor ScanError) : List Position :=
  match c.lookahead with
  | some t =>
    if t.isEnd then [] else if t.isKeyword .define || t.isKeyword .external then c.skip.places else c.places
  | none => c.places

theorem failing_sublist (c : Cursor ScanError) : c.failing.Sublist c.places := by
  unfold failing
  split
  · rename_i t ht
    split
    · exact List.nil_sublist _
    · rename_i he
      split
      · rw [Regular.places_skip ht (by simpa using he)]
        exact List.sublist_cons_self ..
      · exact .refl _
  · exact .refl _

end Cursor

namespace Reading

/-- The places of an item that may be missing. -/
def itemPlaces (i : Option Item) : List Position := i.elim [] Item.places

variable {c c' : Cursor ScanError} {t : Token}

theorem failing_of_look (hl : look c = .ok t c') (hplaces : c'.places = c.places) (he : t.isEnd = false) :
    c.failing = c'.places ∨
      (t.isKeyword .define = true ∨ t.isKeyword .external = true) ∧ c.failing = c'.skip.places := by
  cases hc : c.lookahead with
  | none => exact .inl (by simp [Cursor.failing, hc, hplaces])
  | some u =>
    rw [look_of_lookahead hc] at hl
    cases hl
    by_cases hk : t.isKeyword .define = true ∨ t.isKeyword .external = true
    · exact .inr ⟨hk, by simp [Cursor.failing, hc, he, hk]⟩
    · exact .inl (by simp [Cursor.failing, hc, he, hk])

theorem Spans.some {base all : List Position} (h : Spans Item.places base all (itemFrom t c)) :
    Spans itemPlaces base all ((some <$> itemFrom t) c) := by
  rw [map_itemFrom]
  generalize itemFrom t c = r at h
  cases h with
  | ok used hc hall ha => exact .ok used hc hall ha
  | error used hc hall hf hp => exact .error used hc hall hf hp

/-- Unless the input ends, an item is read from the places at which it can fail. -/
theorem spans_item {c : Cursor ScanError} (hc : c.Regular) (base : List Position) :
    (∃ c', item c = .ok none c') ∨ Spans itemPlaces base c.failing (item c) := by
  rcases hc.look_cases with ⟨t, c', hl, hc', hplaces, ht⟩ | ⟨e, c', hpeek, hc', hplaces⟩
  · cases he : t.isEnd with
    | true => exact .inl ⟨c', item_of_look_end hl he⟩
    | false =>
      have hlt := size_skip_look_lt hl he
      have hskip := Cursor.Regular.places_skip ht he
      rw [item_of_look hl he]
      rcases failing_of_look hl hplaces he with hfailing | ⟨hk, hfailing⟩
      · rw [hfailing]
        split
        · exact (spans_item hc'.skip (base ++ [t.pos])).imp id fun h => h.after hskip
        · exact .inr (spans_itemFrom hc' ht he).some
      · rw [hfailing, if_neg (fun hs => by simp [Token.isKeyword, Token.keyword?, hs] at hk)]
        exact .inr (spans_itemFrom_keyword hk hc'.skip).some
  · have hl := look_of_peek_error hpeek
    have hnone : c.lookahead = none := by
      cases hla : c.lookahead with
      | none => rfl
      | some u =>
        rw [Cursor.peek_of_lookahead hla] at hpeek
        cases hpeek
    have hfailing : c.failing = c.places := by simp [Cursor.failing, hnone]
    rw [item_of_look_error hl, hfailing, hplaces]
    exact .inr (.error [e.pos] hc' rfl rfl (.inl (by simp)))
termination_by c.size

/-- What follows after synchronizing is among what was still to be read. -/
theorem regular_synchronize {c : Cursor ScanError} (hc : c.Regular) :
    (Parse.synchronize c).Regular ∧ (Parse.synchronize c).failing.Sublist c.places := by
  rw [synchronize_eq]
  rcases hc.look_cases with ⟨t, c', hl, hc', hplaces, ht⟩ | ⟨e, c', hpeek, hc', hplaces⟩
  · simp only [hl, ← hplaces]
    split
    · exact ⟨hc', c'.failing_sublist⟩
    · rename_i hk
      have he : t.isEnd = false := by
        cases he : t.isEnd with
        | false => rfl
        | true => simp [he] at hk
      have hskip : c'.skip.places.Sublist c'.places := by
        rw [Cursor.Regular.places_skip ht he]
        exact List.sublist_append_right ..
      split
      · exact ⟨hc'.skip, c'.skip.failing_sublist.trans hskip⟩
      · have hlt := size_skip_look_lt hl he
        obtain ⟨hregular, hsublist⟩ := regular_synchronize hc'.skip
        exact ⟨hregular, hsublist.trans hskip⟩
  · have hlt := Cursor.size_peek_error_lt hpeek
    have hl := look_of_peek_error hpeek
    obtain ⟨hregular, hsublist⟩ := regular_synchronize hc'
    simp only [hl, hplaces]
    exact ⟨hregular, hsublist.cons _⟩
termination_by c.size

/-- A token that was looked at is passed over, or it is none of the places that follow. -/
theorem failing_synchronize_of_lookahead (hc : c.Regular) (ht : c.lookahead = some t) :
    (Parse.synchronize c).failing = [] ∨
      t.isEnd = false ∧ (Parse.synchronize c).failing.Sublist c.skip.places := by
  rw [synchronize_eq, look_of_lookahead ht]
  dsimp only
  cases he : t.isEnd with
  | true => exact .inl (by simp [Cursor.failing, ht, he])
  | false =>
    refine .inr ⟨rfl, ?_⟩
    split
    · rename_i hk
      have hfailing : c.failing = c.skip.places := by
        simp only [Bool.false_or] at hk
        simp only [Cursor.failing, ht, he, hk, Bool.false_eq_true, ↓reduceIte]
      rw [hfailing]
    · split
      · exact c.skip.failing_sublist
      · exact (regular_synchronize hc.skip).2

/-- Behind a failure come the places that follow after synchronizing. -/
theorem Spans.failing_of_error {α : Type} {A : α → List Position} {all : List Position}
    {f : Failure ScanError} (h : Spans A [] all (.error f c)) :
    (Parse.synchronize c).Regular ∧
      ∃ p, f.At p ∧ (p :: (Parse.synchronize c).failing).Sublist all := by
  cases h with
  | @error _ _ used p hc hall hf hp =>
    obtain ⟨hregular, hsublist⟩ := regular_synchronize hc
    refine ⟨hregular, p, hf, ?_⟩
    subst hall
    rcases hp with hp | ⟨t, ht, rfl⟩
    · exact (List.singleton_sublist.2 hp).append hsublist
    · refine List.Sublist.trans ?_ (List.sublist_append_right used _)
      rcases failing_synchronize_of_lookahead hc ht with hnil | ⟨he, hskip⟩
      · rw [hnil]
        exact List.singleton_sublist.2 (hc.pos_mem ht)
      · rw [Cursor.Regular.places_skip ht he]
        exact hskip.cons_cons _

end Reading

/-! ## Compilations -/

namespace Compilation

theorem pos_of_diagnose {f : Failure ScanError} {e : CompileError} {p : Position} (hf : f.At p)
    (h : f.diagnose = .ok e) : e.pos = p := by
  unfold Failure.diagnose at h
  split at h
  · cases h; exact hf
  · cases h
  · cases h; exact hf
  · cases h

/-- The errors are reported at places that come one after another. -/
theorem sublist_ofResults {c : Cursor ScanError} (hc : c.Regular) (g : Generator) :
    ((ofResults true g (Parse.results c)).errors.map CompileError.pos).Sublist c.failing := by
  rw [Reading.results_eq]
  rcases hi : Reading.item c with ⟨_ | i, c'⟩ | ⟨f, c'⟩
  · exact List.nil_sublist _
  · have hlt := Reading.size_item_lt hi
    have hspans := (Reading.spans_item hc []).resolve_left (by simp [hi])
    have hcomplete := Parse.isComplete_of_item (Parsed.of_outcome_ok hi).1
    rw [hi] at hspans
    cases hspans with
    | ok used hc' hall ha =>
      have hrest := (sublist_ofResults hc' (g.item i).generator).trans c'.failing_sublist
      rw [hall, ofResults.eq_def]
      cases hr : (g.item i).result with
      | ok symbol =>
        simp only [hr]
        exact hrest.trans (List.sublist_append_right ..)
      | error e =>
        have hpos : e.pos ∈ used := ha (g.pos_of_item hcomplete hr)
        simp only [hr, g.isInternal_item hcomplete hr, Bool.not_false, Bool.and_true, ↓reduceIte]
        exact (List.singleton_sublist.2 hpos).append hrest
  · have hlt := Reading.size_synchronize_item_lt hi
    have hspans := (Reading.spans_item hc []).resolve_left (by simp [hi])
    rw [hi] at hspans
    obtain ⟨hregular, p, hf, hsublist⟩ := hspans.failing_of_error
    rw [ofResults.eq_def]
    cases hd : f.diagnose with
    | error cause =>
      simp only [hd]
      exact List.nil_sublist _
    | ok e =>
      simp only [hd, ↓reduceIte, List.map_cons, pos_of_diagnose hf hd]
      exact ((sublist_ofResults hregular g).cons_cons p).trans hsublist
termination_by c.size

/-- Errors that are reported at places of the source, each after the one before. -/
structure Located (bytes : List UInt8) (errors : List CompileError) : Prop where
  known : ∀ e ∈ errors, e.pos.isKnown = true
  place : ∀ e ∈ errors, ∃ n ≤ bytes.length, e.pos = .ofOffset bytes n
  increasing : (errors.map fun e => e.pos.offset).Pairwise (· < ·)

theorem located_ofStream (g : Generator) (bytes : List UInt8) :
    Located bytes (ofStream true g (.ofBytes bytes none)).errors := by
  have hregular : (Cursor.ofStream (.ofBytes bytes none)).Regular := by
    refine ⟨fun t ht => ?_, by simp [Cursor.ofStream]⟩
    have hmem : .ok t ∈ (TokenStream.ofBytes bytes none).answers := ht
    exact Reading.isEnd_of_mem_ofBytes hmem
  have hsublist := sublist_ofResults hregular g
  obtain ⟨hplaces, hending⟩ := TokenStream.place_ofBytes bytes
  have hfailing : (Cursor.ofStream (.ofBytes bytes none)).failing =
      (TokenStream.ofBytes bytes none).answers.map TokenStream.place ++
        [(TokenStream.ofBytes bytes none).ending] := rfl
  rw [hfailing] at hsublist
  have hplace : ∀ e ∈ (ofStream true g (.ofBytes bytes none)).errors,
      ∃ n ≤ bytes.length, e.pos = .ofOffset bytes n := by
    intro e he
    rcases List.mem_append.1 (hsublist.subset (List.mem_map_of_mem he)) with hmem | hmem
    · obtain ⟨a, ha, hpos⟩ := List.mem_map.1 hmem
      obtain ⟨n, hn, hplace⟩ := hplaces a ha
      exact ⟨n, Nat.le_of_lt hn, hpos ▸ hplace⟩
    · exact ⟨_, Nat.le_refl _, (List.mem_singleton.1 hmem).trans hending⟩
  refine ⟨fun e he => ?_, hplace, ?_⟩
  · obtain ⟨n, -, hpos⟩ := hplace e he
    rw [hpos, Position.isKnown, decide_eq_true_eq, Position.ofOffset]
    dsimp only
    omega
  · have hordered : (((TokenStream.ofBytes bytes none).answers.map TokenStream.place ++
        [(TokenStream.ofBytes bytes none).ending]).map Position.offset).Pairwise (· < ·) := by
      rw [List.map_append, List.pairwise_append, List.map_map]
      refine ⟨TokenStream.pairwise_offset_ofBytes bytes, by simp, ?_⟩
      intro a ha b hb
      obtain ⟨answer, hanswer, rfl⟩ := List.mem_map.1 ha
      obtain ⟨n, hn, hplace⟩ := hplaces answer hanswer
      rw [List.map_singleton, List.mem_singleton] at hb
      simp only [Function.comp_apply, hb, hplace, hending, Position.ofOffset]
      omega
    have hoffsets := hordered.sublist (hsublist.map Position.offset)
    rwa [List.map_map] at hoffsets

/-- A source that can be read is compiled to its end, and its errors are reported where they are and in the
order of their places; so are those of a fragment in a session. -/
theorem located_errors (bytes : List UInt8) :
    (∀ name, (ofSource true name bytes none).interruption? = none ∧
      Located bytes (ofSource true name bytes none).errors) ∧
    ∀ s : Session, (s.eval bytes).1.interruption? = none ∧ Located bytes (s.eval bytes).1.errors :=
  ⟨fun _ => ⟨(exhausts_ofBytes .initial bytes).interruption, located_ofStream .initial bytes⟩,
    fun s => ⟨(exhausts_ofBytes s.generator bytes).interruption, located_ofStream s.generator bytes⟩⟩

end Compilation

end ScalarLang
