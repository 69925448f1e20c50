import Mathlib.Data.List.Forall2
import ScalarLang.Lowering.Expr
import ScalarLang.Proofs.Doubles
import ScalarLang.Proofs.Execution
import ScalarLang.Proofs.Source
/-!
# Lowering writes code that does what the tree means

Two things are said of a lowering action: it only adds code and leaves the scope as it was, also when it
fails (`Extends`); and the code that it adds, run after the code before it, does the same as a given
computation on values (`Lowers`). Both are closed under sequencing, so each is shown once for every
function of the lowering.
-/
namespace ScalarLang

open IR

/-! ## Scopes -/

namespace Scope

variable {α : Type}

theorem enclosing_foldl_set (names : List (String × α)) (s : Scope α) :
    (names.foldl (fun s (id, v) => s.set id v) s).enclosing = s.enclosing := by
  induction names generalizing s with
  | nil => rfl
  | cons n names ih => exact ih (s.set n.1 n.2)

/-- Dropping a frame restores the scope around it, whatever was bound in the frame. -/
theorem pop_foldl_set_push (names : List (String × α)) (s : Scope α) :
    (names.foldl (fun s (id, v) => s.set id v) s.push).pop = s := by
  unfold pop
  rw [enclosing_foldl_set]
  rfl

theorem get?_push (s : Scope α) (id : String) : s.push.get? id = s.get? id := by
  rfl

theorem get?_set (s : Scope α) (id id' : String) (v : α) :
    (s.set id v).get? id' = if id' = id then some v else s.get? id' := by
  by_cases h : id' = id
  · simp [get?, set, h]
  · have hne : (id' == id) = false := by simpa using h
    simp [get?, set, List.findSome?_cons, List.lookup_cons, h, hne]

end Scope

/-! ## What a lowering leaves alone -/

namespace Draft

/-- A later draft: more code, and the same scope. -/
structure Grows (d d' : Draft) : Prop where
  scope : d'.scope = d.scope
  code : d.code.toList <+: d'.code.toList

theorem Grows.refl (d : Draft) : d.Grows d := ⟨rfl, List.prefix_rfl⟩

theorem Grows.trans {d d' d'' : Draft} (h : d.Grows d') (h' : d'.Grows d'') : d.Grows d'' :=
  ⟨h'.scope.trans h.scope, h.code.trans h'.code⟩

/-- The code that a later draft has and `d` has not. -/
def written (d d' : Draft) : List Instr := d'.code.toList.drop d.code.size

theorem written_self (d : Draft) : d.written d = [] := by
  simp [written]

theorem written_append {d d' d'' : Draft} (h : d.Grows d') (h' : d'.Grows d'') :
    d.written d'' = d.written d' ++ d'.written d'' := by
  obtain ⟨first, hf⟩ := h.code
  obtain ⟨second, hs⟩ := h'.code
  simp only [written, ← Array.length_toList, ← hs, List.drop_left]
  simp only [← hf, List.append_assoc, List.drop_left]

theorem length_written {d d' : Draft} (h : d.Grows d') :
    d.code.size + (d.written d').length = d'.code.size := by
  have := h.code.length_le
  simp only [written, List.length_drop, Array.length_toList] at *
  omega

end Draft

namespace Lowering

variable {α β : Type}

/-- The draft that an action leaves. -/
def draft (act : Lowering α) (d : Draft) : Draft :=
  match act d with
  | .ok _ d' => d'
  | .error _ d' => d'

theorem draft_of_ok {act : Lowering α} {d d' : Draft} {a : α} (h : act d = .ok a d') :
    act.draft d = d' := by
  simp [draft, h]

/-- An action that adds code and does nothing else, whether or not it fails. -/
def Extends (act : Lowering α) : Prop := ∀ d : Draft, d.Grows (act.draft d)

theorem Extends.pure (a : α) : Extends (pure a) := fun d => .refl d

theorem Extends.throw (e : LoweringError) : Extends (throw e : Lowering α) := fun d => .refl d

theorem Extends.bind {act : Lowering α} {f : α → Lowering β} (h : Extends act)
    (hf : ∀ a, Extends (f a)) : Extends (act >>= f) := by
  intro d
  have hd := h d
  show d.Grows (draft (EStateM.bind act f) d)
  unfold draft EStateM.bind at *
  cases hact : act d with
  | ok a d' =>
    rw [hact] at hd
    exact hd.trans (hf a d')
  | error e d' =>
    rw [hact] at hd
    exact hd

/-- An action that is left out if constants decide its result. -/
theorem Extends.unless {act : Lowering Operand} (h : Extends act) (known : Option Operand) :
    Extends (match known with
      | some k => Pure.pure k
      | none => act) := by
  cases known with
  | none => exact h
  | some k => exact .pure k

theorem extends_emit (i : Instr) : Extends (emit i) := by
  intro d
  refine ⟨rfl, ?_⟩
  show d.code.toList <+: (d.code.push i).toList
  simp

theorem extends_promote (v : Operand) : Extends (promote v) := by
  unfold promote
  split
  · exact .pure _
  · split
    · exact .pure _
    · exact extends_emit _

theorem extends_lookup (id : String) (pos : Position) : Extends (lookup id pos) := by
  refine .bind (fun d => .refl d) fun d => ?_
  split
  · exact .pure _
  · exact .throw _

theorem lookup_of_some {d : Draft} {id : String} {v : Operand} (h : d.scope.get? id = some v)
    (pos : Position) : lookup id pos d = .ok v d := by
  change (match d.scope.get? id with
    | some v => (pure v : Lowering Operand)
    | none => throw (⟨.undefinedName id, pos⟩ : LoweringError)) d = _
  rw [h]
  rfl

theorem lookup_of_none {d : Draft} {id : String} (h : d.scope.get? id = none) (pos : Position) :
    lookup id pos d = .error ⟨.undefinedName id, pos⟩ d := by
  change (match d.scope.get? id with
    | some v => (pure v : Lowering Operand)
    | none => throw (⟨.undefinedName id, pos⟩ : LoweringError)) d = _
  rw [h]
  rfl

theorem extends_within {names : List (String × Operand)} {act : Lowering α} (h : Extends act) :
    Extends (within names act) := by
  intro d
  have hpop := Scope.pop_foldl_set_push names d.scope
  unfold draft within
  dsimp only
  generalize List.foldl _ _ names = inner at hpop ⊢
  have hd := h { d with scope := inner }
  unfold draft at hd
  cases hact : act { d with scope := inner } with
  | ok a d' =>
    simp only [hact] at hd ⊢
    exact ⟨by rw [hd.scope, hpop], hd.code⟩
  | error e d' =>
    simp only [hact] at hd ⊢
    exact ⟨by rw [hd.scope, hpop], hd.code⟩

theorem extends_negate (v : Operand) : Extends (negate v) := by
  unfold negate
  split
  · exact .pure _
  · split <;> exact extends_emit _

theorem extends_balance (x y : Operand) : Extends (balance x y) := by
  unfold balance
  split
  · exact (extends_promote x).bind fun _ => (extends_promote y).bind fun _ => .pure _
  · exact .pure _

theorem extends_arith (op : Arithmetic) (x y : Operand) : Extends (arith op x y) := by
  exact (extends_balance x y).bind fun (on, x, y) =>
    .unless (extends_emit (.arith op on x y)) (Operand.foldArith? op x y)

theorem extends_compare (op : Comparison) (x y : Operand) : Extends (compare op x y) := by
  exact (extends_balance x y).bind fun (on, x, y) =>
    .unless ((extends_emit (.compare op on x y)).bind fun bit => extends_emit (.widen bit))
      (Operand.foldCompare? op x y)

theorem extends_callPower (x y : Operand) : Extends (do
    modify fun d => { d with usesPower := true }
    emit (.call .power [x, y])) :=
  .bind (fun _ => ⟨rfl, List.prefix_rfl⟩) fun _ => extends_emit _

theorem extends_power (x y : Operand) : Extends (power x y) := by
  exact (extends_promote x).bind fun x => (extends_promote y).bind fun y =>
    .unless (extends_callPower x y) (Operand.foldPower? x y)

theorem extends_binary {op : Operator} {compute : Operand → Operand → Lowering Operand}
    (h : binary? op = some compute) (x y : Operand) : Extends (compute x y) := by
  cases op <;> simp only [binary?, Option.some.injEq, reduceCtorEq] at h <;> subst h
  all_goals first
    | exact extends_arith _ x y
    | exact extends_compare _ x y
    | exact extends_power x y

mutual

theorem extends_expression (arity? : String → Option Nat) :
    ∀ e : Expr, Extends (expression arity? e)
  | .integer v _ => by simpa only [expression] using .pure _
  | .float v _ => by simpa only [expression] using .pure _
  | .name id pos => by simpa only [expression] using extends_lookup id pos
  | .bind id init body _ => by
    simp only [expression]
    exact (extends_expression arity? init).bind fun _ =>
      extends_within (extends_expression arity? body)
  | .unary op x pos => by
    simp only [expression]
    refine (extends_expression arity? x).bind fun v => ?_
    split
    · exact .pure v
    · exact extends_negate v
    · exact .throw _
  | .binary op x y pos => by
    simp only [expression]
    refine (extends_expression arity? x).bind fun v => (extends_expression arity? y).bind fun w => ?_
    split
    · rename_i compute h
      exact extends_binary h v w
    · exact .throw _
  | .call callee args pos => by
    simp only [expression]
    split
    · exact .throw _
    · split
      · exact (extends_arguments arity? args).bind fun _ => extends_emit _
      · exact .throw _
  | .missing => by simpa only [expression] using .throw _

theorem extends_arguments (arity? : String → Option Nat) :
    ∀ es : List Expr, Extends (arguments arity? es)
  | [] => by simpa only [arguments] using .pure _
  | e :: es => by
    simp only [arguments]
    exact (extends_expression arity? e).bind fun v => (extends_promote v).bind fun _ =>
      (extends_arguments arity? es).bind fun _ => .pure _

end

end Lowering

/-! ## What code does -/

namespace IR

variable {α β : Type} (callees : Callees) (args : List Binary64)

theorem runCode_append (first second : List Instr) (rs : List Word) :
    runCode callees args (first ++ second) rs =
      runCode callees args first rs >>= runCode callees args second := by
  induction first generalizing rs with
  | nil => simp [runCode]
  | cons i first ih => simp [runCode, ih]

/-- Code does what `m` does: it halts as `m` halts, and if `m` gives a value, it adds its results to
`rs` such that the value and all results have the property `post`. -/
def Does (code : List Instr) (rs : List Word) (m : Run α) (post : α → List Word → Prop) : Prop :=
  ∀ made, match m made with
    | .ok a made' => ∃ rs', runCode callees args code rs made = .ok rs' made' ∧ rs <+: rs' ∧
        rs'.length = rs.length + code.length ∧ post a rs'
    | .error h made' => runCode callees args code rs made = .error h made'

variable {callees args} {rs : List Word}

theorem Does.nil {a : α} {post : α → List Word → Prop} (h : post a rs) :
    Does callees args [] rs (pure a) post :=
  fun _ => ⟨rs, rfl, List.prefix_rfl, rfl, h⟩

/-- A single instruction that gives the word for the value of `m`. -/
theorem Does.instr {i : Instr} {m : Run α} {word : α → Word} {post : α → List Word → Prop}
    (hi : i.run callees args rs = word <$> m) (h : ∀ a, post a (rs ++ [word a])) :
    Does callees args [i] rs m post := by
  intro made
  have hrun : runCode callees args [i] rs = (word <$> m >>= fun w => pure (rs ++ [w])) := by
    simp [runCode, hi]
  rw [hrun]
  show match m made with
    | .ok a made' => ∃ rs', EStateM.bind (EStateM.map word m) _ made = _ ∧ _
    | .error h made' => EStateM.bind (EStateM.map word m) _ made = _
  unfold EStateM.bind EStateM.map
  cases m made with
  | ok a made' => exact ⟨_, rfl, List.prefix_append .., by simp, h a⟩
  | error h made' => rfl

theorem Does.map {code : List Instr} {m : Run α} {post : β → List Word → Prop} (f : α → β)
    (h : Does callees args code rs m fun a => post (f a)) :
    Does callees args code rs (f <$> m) post := by
  intro made
  have hm := h made
  show match EStateM.map f m made with
    | .ok a made' => _
    | .error h made' => _
  unfold EStateM.map
  cases hmade : m made with
  | ok a made' => simpa only [hmade] using hm
  | error h made' => simpa only [hmade] using hm

theorem Does.bind {first second : List Instr} {m : Run α} {f : α → Run β}
    {mid : α → List Word → Prop} {post : β → List Word → Prop}
    (h : Does callees args first rs m mid)
    (hf : ∀ a rs', rs <+: rs' → rs'.length = rs.length + first.length → mid a rs' →
      Does callees args second rs' (f a) post) :
    Does callees args (first ++ second) rs (m >>= f) post := by
  intro made
  have hm := h made
  rw [runCode_append]
  show match EStateM.bind m f made with
    | .ok a made' => ∃ rs', EStateM.bind _ _ made = _ ∧ _
    | .error h made' => EStateM.bind _ _ made = _
  unfold EStateM.bind
  cases hmade : m made with
  | error h made' =>
    simp only [hmade] at hm
    simp only [hm]
  | ok a made' =>
    simp only [hmade] at hm
    obtain ⟨rs', hrun, hext, hlen, hmid⟩ := hm
    have hk := hf a rs' hext hlen hmid made'
    simp only [hrun]
    cases hfa : f a made' with
    | error h made'' => simpa only [hfa] using hk
    | ok b made'' =>
      simp only [hfa] at hk
      obtain ⟨rs'', hrun', hext', hlen', hpost⟩ := hk
      refine ⟨rs'', hrun', hext.trans hext', ?_, hpost⟩
      simp only [hlen', hlen, List.length_append]
      omega

end IR

namespace Lowering

variable {α β γ δ : Type} (callees : Callees) (args : List Binary64)

/-- The code that a successful action adds to `d` does what `m` does, after the results `rs` of the
code of `d`. -/
def Lowers (d : Draft) (rs : List Word) (act : Lowering α) (m : Run β)
    (post : α → β → List Word → Prop) : Prop :=
  ∀ a d', act d = .ok a d' → rs.length = d.code.size →
    Does callees args (d.written d') rs m (post a)

variable {callees args} {d : Draft} {rs : List Word}

theorem Lowers.pure {a : α} {b : β} {post : α → β → List Word → Prop} (h : post a b rs) :
    Lowers callees args d rs (pure a) (pure b) post := by
  rintro a d' ⟨⟩ -
  rw [Draft.written_self]
  exact Does.nil h

theorem Lowers.throw {e : LoweringError} {m : Run β} {post : α → β → List Word → Prop} :
    Lowers callees args d rs (throw e) m post := by
  rintro a d' ⟨⟩

theorem Lowers.emit {i : Instr} {m : Run β} {word : β → Word}
    {post : Operand → β → List Word → Prop} (hi : i.run callees args rs = word <$> m)
    (h : ∀ b, rs.length = d.code.size → post (.result i.ty rs.length) b (rs ++ [word b])) :
    Lowers callees args d rs (emit i) m post := by
  rintro a d' ⟨⟩ hlen
  have hw : d.written { d with code := d.code.push i } = [i] := by simp [Draft.written]
  rw [hw, ← hlen]
  exact Does.instr hi fun b => h b hlen

theorem Lowers.map {act : Lowering α} {m : Run β} {post : α → γ → List Word → Prop} (f : β → γ)
    (h : Lowers callees args d rs act m fun a b => post a (f b)) :
    Lowers callees args d rs act (f <$> m) post :=
  fun a d' hd hlen => (h a d' hd hlen).map f

theorem Lowers.bind {act : Lowering α} {f : α → Lowering γ} {m : Run β} {g : β → Run δ}
    {mid : α → β → List Word → Prop} {post : γ → δ → List Word → Prop} (hext : Extends act)
    (hfext : ∀ a, Extends (f a)) (h : Lowers callees args d rs act m mid)
    (hf : ∀ a d' b rs', act d = .ok a d' → rs <+: rs' → mid a b rs' →
      Lowers callees args d' rs' (f a) (g b) post) :
    Lowers callees args d rs (act >>= f) (m >>= g) post := by
  intro c d'' hc hlen
  change EStateM.bind act f d = _ at hc
  unfold EStateM.bind at hc
  cases hact : act d with
  | error e d' => rw [hact] at hc; cases hc
  | ok a d' =>
    rw [hact] at hc
    have hgrows : d.Grows d' := draft_of_ok hact ▸ hext d
    have hgrows' : d'.Grows d'' := draft_of_ok hc ▸ hfext a d'
    rw [Draft.written_append hgrows hgrows']
    refine (h a d' hact hlen).bind fun b rs' hpre hlen' hmid => ?_
    refine hf a d' b rs' hact hpre hmid c d'' hc ?_
    rw [hlen', hlen, Draft.length_written hgrows]

/-- An action whose code computes nothing that the meaning has to wait for. -/
theorem Lowers.bind_pure {act : Lowering α} {f : α → Lowering γ} {b : β} {m : Run δ}
    {mid : α → β → List Word → Prop} {post : γ → δ → List Word → Prop} (hext : Extends act)
    (hfext : ∀ a, Extends (f a)) (h : Lowers callees args d rs act (Pure.pure b) mid)
    (hf : ∀ a d' rs', act d = .ok a d' → rs <+: rs' → mid a b rs' →
      Lowers callees args d' rs' (f a) m post) :
    Lowers callees args d rs (act >>= f) m post := by
  have hunit : Lowers callees args d rs act (Pure.pure ()) (fun a _ => mid a b) := h
  exact Lowers.bind (g := fun _ => m) hext hfext hunit fun a d' _ rs' => hf a d' rs'

theorem Lowers.within {names : List (String × Operand)} {act : Lowering α} {m : Run β}
    {post : α → β → List Word → Prop}
    (h : Lowers callees args
      { d with scope := names.foldl (fun s (id, v) => s.set id v) d.scope.push } rs act m post) :
    Lowers callees args d rs (within names act) m post := by
  intro a d' hd hlen
  unfold Lowering.within at hd
  dsimp only at hd
  split at hd
  · rename_i a' d₁ hact
    cases hd
    exact h a d₁ hact hlen
  · cases hd

/-! ## Operands and values -/

/-- An operand stands for a value. A constant double is finite. -/
structure Holds (args : List Binary64) (rs : List Word) (o : Operand) (v : Value) : Prop where
  word : o.word? args rs = some (.ofValue v)
  finite : ∀ x, o = .float x → x.isFinite = true

theorem ty_of_word? {o : Operand} {w : Word} (h : o.word? args rs = some w) : o.ty = w.ty := by
  cases o with
  | integer v => cases h; rfl
  | float v => cases h; rfl
  | param i =>
    obtain ⟨v, -, rfl⟩ := Option.map_eq_some_iff.1 h
    rfl
  | result ty i =>
    obtain ⟨w', -, hw⟩ := Option.bind_eq_some_iff.1 h
    unfold Word.ofTy? at hw
    split at hw
    · cases hw
      exact Eq.symm ‹_›
    · cases hw

namespace Holds

variable {o : Operand} {v : Value} {a : Int64} {x : Binary64}

/-- More results do not change what an operand stands for. -/
theorem mono {rs' : List Word} (h : Holds args rs o v) (hpre : rs <+: rs') : Holds args rs' o v := by
  refine ⟨?_, h.finite⟩
  have hw := h.word
  cases o with
  | integer v => exact hw
  | float v => exact hw
  | param i => exact hw
  | result ty i =>
    obtain ⟨w, hi, hw⟩ := Option.bind_eq_some_iff.1 hw
    obtain ⟨more, rfl⟩ := hpre
    have hlt := (List.getElem?_eq_some_iff.1 hi).1
    simpa only [Operand.word?, List.getElem?_append_left hlt, hi, Option.bind_some] using hw

theorem integer (args : List Binary64) (rs : List Word) (a : Int64) :
    Holds args rs (.integer a) (.integer a) :=
  ⟨rfl, by rintro x ⟨⟩⟩

theorem float (args : List Binary64) (rs : List Word) (hx : x.isFinite = true) :
    Holds args rs (.float x) (.float x) :=
  ⟨rfl, by rintro y ⟨⟩; exact hx⟩

/-- The result that was added last. -/
theorem last (args : List Binary64) (rs : List Word) (v : Value) :
    Holds args (rs ++ [.ofValue v]) (.result (Word.ofValue v).ty rs.length) v :=
  ⟨by simp [Operand.word?, Word.ofTy?], by rintro x ⟨⟩⟩

theorem ty_integer (h : Holds args rs o (.integer a)) : o.ty = .i64 := ty_of_word? h.word

theorem ty_float (h : Holds args rs o (.float x)) : o.ty = .double := ty_of_word? h.word

theorem readInteger (h : Holds args rs o (.integer a)) : o.readInteger args rs = pure a := by
  simp [Operand.readInteger, Operand.read, h.word, Word.ofValue]

theorem readFloat (h : Holds args rs o (.float x)) : o.readFloat args rs = pure x := by
  simp [Operand.readFloat, Operand.read, h.word, Word.ofValue]

end Holds

/-! ## Constants -/

theorem onIntegers_of_onIntegers? {op : Arithmetic} {a b r : Int64}
    (h : op.onIntegers? a b = some r) : op.onIntegers a b = pure r := by
  cases op with
  | div =>
    simp only [Arithmetic.onIntegers?, Option.ite_none_left_eq_some, Option.some.injEq] at h
    obtain ⟨hdef, rfl⟩ := h
    simp [Arithmetic.onIntegers, quotient, hdef]
  | _ =>
    cases h
    rfl

theorem onFloats_of_onFloats? {op : Arithmetic} {a b r : Binary64} (h : op.onFloats? a b = some r) :
    op.onFloats a b = r ∧ r.isFinite = true := by
  simp only [Arithmetic.onFloats?, Option.ite_none_left_eq_some, Option.ite_none_right_eq_some,
    Option.some.injEq] at h
  obtain ⟨-, hfin, rfl⟩ := h
  exact ⟨rfl, hfin⟩

/-- Only two constants of one kind are folded. -/
theorem foldArith?_eq_some {op : Arithmetic} {x y k : Operand}
    (h : Operand.foldArith? op x y = some k) :
    (∃ a b r, x = .integer a ∧ y = .integer b ∧ op.onIntegers? a b = some r ∧ k = .integer r) ∨
    ∃ a b r, x = .float a ∧ y = .float b ∧
      op.onFloats? (Operand.counted a) (Operand.counted b) = some r ∧ k = .float r := by
  unfold Operand.foldArith? at h
  split at h
  · obtain ⟨r, hr, rfl⟩ := Option.map_eq_some_iff.1 h
    exact .inl ⟨_, _, r, rfl, rfl, hr, rfl⟩
  · obtain ⟨r, hr, rfl⟩ := Option.map_eq_some_iff.1 h
    exact .inr ⟨_, _, r, rfl, rfl, hr, rfl⟩
  · cases h

theorem foldCompare?_eq_some {op : Comparison} {x y k : Operand}
    (h : Operand.foldCompare? op x y = some k) :
    (∃ a b, x = .integer a ∧ y = .integer b ∧
      k = .integer (if op.holds (Operand.orderOfIntegers a b) then 1 else 0)) ∨
    ∃ a b, x = .float a ∧ y = .float b ∧ k = .integer
      (if op.holds (Operand.orderOfFloats (Operand.counted a) (Operand.counted b)) then 1 else 0) := by
  unfold Operand.foldCompare? at h
  split at h
  · cases h
    exact .inl ⟨_, _, rfl, rfl, rfl⟩
  · cases h
    exact .inr ⟨_, _, rfl, rfl, rfl⟩
  · cases h

theorem counted_of_isFinite {x : Binary64} (h : x.isFinite = true) : Operand.counted x = x := by
  simp [Operand.counted, Binary64.isNaN_of_isFinite h]

/-- What a comparison says of the order of two numbers. -/
theorem holds_order (op : Comparison) (m n : Int) :
    op.holds (if m < n then .lt else if n < m then .gt else .eq) =
      match op with
      | .less => decide (m < n)
      | .greater => decide (n < m)
      | .lessEqual => decide (m ≤ n)
      | .greaterEqual => decide (n ≤ m)
      | .equal => decide (m = n) := by
  rcases Int.lt_trichotomy m n with h | h | h
  · have hle : m ≤ n := by omega
    have hne : m ≠ n := by omega
    cases op <;> simp [Comparison.holds, h, hle, hne]
  · subst h
    cases op <;> simp [Comparison.holds]
  · have hle : n ≤ m := by omega
    have hne : m ≠ n := by omega
    have hnlt : ¬ m < n := by omega
    cases op <;> simp [Comparison.holds, h, hle, hne, hnlt]

theorem holds_orderOfIntegers (op : Comparison) (a b : Int64) :
    op.holds (Operand.orderOfIntegers a b) = op.onIntegers a b := by
  simp only [Operand.orderOfIntegers, Int64.lt_iff_toInt_lt, holds_order]
  cases op <;>
    simp [Comparison.onIntegers, Int64.lt_iff_toInt_lt, Int64.le_iff_toInt_le, Int64.toInt_inj]

/-- The order of two doubles decides every comparison of them, unless one is not a number. -/
theorem holds_orderOfFloats (op : Comparison) {a b : Binary64} (ha : a.isFinite = true)
    (hb : b.isFinite = true) :
    op.holds (Operand.orderOfFloats a b) = op.onFloats a b := by
  have ha' := Binary64.isNaN_of_isFinite ha
  have hb' := Binary64.isNaN_of_isFinite hb
  simp only [Operand.orderOfFloats, Binary64.lt, ha', hb', Bool.not_false, Bool.true_and,
    decide_eq_true_eq, holds_order]
  cases op with
  | lessEqual =>
    simp [Comparison.onFloats, Binary64.le, Binary64.lt, Binary64.eq, ha', hb', Int.le_iff_lt_or_eq]
  | greaterEqual =>
    simp [Comparison.onFloats, Binary64.le, Binary64.lt, Binary64.eq, ha', hb', Int.le_iff_lt_or_eq]
  | _ => simp [Comparison.onFloats, Binary64.lt, Binary64.eq, ha', hb']

/-! ## Operations -/

variable {o x y : Operand} {v w : Value}

/-- An instruction whose result is the value of `m`. -/
theorem lowers_emit {i : Instr} {m : Run β} (value : β → Value)
    (hi : i.run callees args rs = (fun b => Word.ofValue (value b)) <$> m)
    (ht : ∀ b, (Word.ofValue (value b)).ty = i.ty) :
    Lowers callees args d rs (emit i) (value <$> m) fun o v rs' => Holds args rs' o v :=
  .map value (.emit hi fun b _ => ht b ▸ .last args rs (value b))

theorem lowers_promote (h : Holds args rs o v) :
    Lowers callees args d rs (promote o) (pure (.float v.toFloat)) fun o' v' rs' =>
      Holds args rs' o' v' := by
  unfold promote
  cases v with
  | float x =>
    rw [if_pos h.ty_float]
    exact .pure h
  | integer a =>
    rw [if_neg (by rw [h.ty_integer]; simp)]
    split
    · cases h.word
      exact .pure (.float _ _ (Binary64.isFinite_ofInt64 _))
    · refine lowers_emit (m := pure (Binary64.ofInt64 a)) .float ?_ fun _ => rfl
      simp [Instr.run, h.readInteger, Word.ofValue]

theorem lowers_negate (h : Holds args rs o v) :
    Lowers callees args d rs (negate o) (pure v.negate) fun o' v' rs' => Holds args rs' o' v' := by
  unfold negate
  split
  · rename_i k hk
    cases o with
    | integer a =>
      cases v <;> cases h.word
      cases hk
      exact .pure (.integer args rs _)
    | float x =>
      have hx := h.finite x rfl
      cases v <;> cases h.word
      cases hk
      simp only [Operand.counted, Binary64.isNaN_of_isFinite hx]
      exact .pure (.float args rs (Binary64.isFinite_neg hx))
    | param i => cases hk
    | result ty i => cases hk
  · cases v with
    | float x =>
      rw [if_pos h.ty_float]
      refine lowers_emit (m := pure x.neg) .float ?_ fun _ => rfl
      simp [Instr.run, h.readFloat, Word.ofValue]
    | integer a =>
      rw [if_neg (by rw [h.ty_integer]; simp)]
      refine lowers_emit (m := pure (-a)) .integer ?_ fun _ => rfl
      simp [Instr.run, h.readInteger, (Holds.integer args rs 0).readInteger, Word.ofValue,
        Arithmetic.onIntegers]

/-- Operands that stand for two values as numbers of one kind. -/
inductive Balanced (args : List Binary64) (rs : List Word) (v w : Value) :
    Scalar × Operand × Operand → Prop
  | integers {a b : Int64} {x y : Operand} (hv : v = .integer a) (hw : w = .integer b)
      (hx : Holds args rs x (.integer a)) (hy : Holds args rs y (.integer b)) :
      Balanced args rs v w (.integer, x, y)
  | floats {x y : Operand} (hmixed : ∀ a b, v = .integer a → w ≠ .integer b)
      (hx : Holds args rs x (.float v.toFloat)) (hy : Holds args rs y (.float w.toFloat)) :
      Balanced args rs v w (.float, x, y)

theorem lowers_balance (hx : Holds args rs x v) (hy : Holds args rs y w) :
    Lowers callees args d rs (balance x y) (pure ()) fun p _ rs' => Balanced args rs' v w p := by
  have hfloats (hmixed : ∀ a b, v = .integer a → w ≠ .integer b) :
      Lowers callees args d rs
        (do let x ← promote x
            let y ← promote y
            pure (.float, x, y)) (pure ()) fun p _ rs' => Balanced args rs' v w p := by
    refine .bind_pure (extends_promote x)
      (fun _ => (extends_promote y).bind fun _ => .pure _) (lowers_promote hx) ?_
    intro x' d₁ rs₁ _ hpre₁ hx'
    refine .bind_pure (extends_promote y) (fun _ => .pure _) (lowers_promote (hy.mono hpre₁)) ?_
    intro y' d₂ rs₂ _ hpre₂ hy'
    exact .pure (.floats hmixed (hx'.mono hpre₂) hy')
  unfold balance
  cases v with
  | float a =>
    rw [if_pos (.inl hx.ty_float)]
    exact hfloats (by simp)
  | integer a =>
    cases w with
    | float b =>
      rw [if_pos (.inr hy.ty_float)]
      exact hfloats (by simp)
    | integer b =>
      rw [if_neg (by simp [hx.ty_integer, hy.ty_integer])]
      exact .pure (.integers rfl rfl hx hy)

/-- An operation on numbers of one kind is folded or written; the meaning is the same. -/
theorem lowers_arith (op : Arithmetic) (hx : Holds args rs x v) (hy : Holds args rs y w) :
    Lowers callees args d rs (arith op x y) (v.arithmetic op.onIntegers op.onFloats w)
      fun o v' rs' => Holds args rs' o v' := by
  refine .bind_pure (extends_balance x y) ?_ (lowers_balance hx hy) ?_
  · exact fun _ => .unless (extends_emit _) _
  · rintro ⟨on, x', y'⟩ d₁ rs₁ - - hb
    dsimp only
    cases hb with
    | integers hv hw hx' hy' =>
      rename_i a b
      subst hv hw
      split
      · rename_i k hk
        rcases foldArith?_eq_some hk with ⟨a', b', r, rfl, rfl, hr, rfl⟩ | ⟨a', -, -, rfl, -⟩
        · cases hx'.word
          cases hy'.word
          rw [Value.arithmetic, onIntegers_of_onIntegers? hr]
          exact .pure (.integer args rs₁ r)
        · cases hx'.word
      · refine lowers_emit (m := op.onIntegers a b) .integer ?_ fun _ => rfl
        simp [Instr.run, hx'.readInteger, hy'.readInteger, Word.ofValue]
    | floats hmixed hx' hy' =>
      rw [Value.arithmetic_of_mixed hmixed]
      split
      · rename_i k hk
        rcases foldArith?_eq_some hk with ⟨a', -, -, rfl, -⟩ | ⟨a', b', r, rfl, rfl, hr, rfl⟩
        · cases hx'.word
        · rw [counted_of_isFinite (hx'.finite _ rfl), counted_of_isFinite (hy'.finite _ rfl)] at hr
          obtain ⟨rfl, hfin⟩ := onFloats_of_onFloats? hr
          cases hx'.word
          cases hy'.word
          exact .pure (.float args rs₁ hfin)
      · refine lowers_emit (m := pure (op.onFloats v.toFloat w.toFloat)) .float ?_ fun _ => rfl
        simp [Instr.run, hx'.readFloat, hy'.readFloat, Word.ofValue]

theorem lowers_compare (op : Comparison) (hx : Holds args rs x v) (hy : Holds args rs y w) :
    Lowers callees args d rs (compare op x y) (pure (v.comparison op.onIntegers op.onFloats w))
      fun o v' rs' => Holds args rs' o v' := by
  -- a comparison that is not folded is written as two instructions, over a word of one bit
  have hwritten {d : Draft} {rs : List Word} {on : Scalar} {x y : Operand} {b : Bool}
      (hi : (Instr.compare op on x y).run callees args rs = pure (.i1 b)) :
      Lowers callees args d rs (emit (.compare op on x y) >>= fun bit => emit (.widen bit))
        (pure (Value.truth b)) fun o v' rs' => Holds args rs' o v' := by
    have hcompare : Lowers callees args d rs (emit (.compare op on x y)) (pure b)
        fun o b rs' => o.word? args rs' = some (.i1 b) :=
      .emit hi fun b _ => by simp [Operand.word?, Word.ofTy?, Word.ty, Instr.ty]
    refine .bind_pure (extends_emit _) (fun _ => extends_emit _) hcompare ?_
    intro bit d₁ rs₁ _ _ hbit
    refine lowers_emit (m := pure (if b then 1 else 0)) .integer ?_ fun _ => rfl
    simp [Instr.run, Operand.readBit, Operand.read, hbit, Word.ofValue]
  refine .bind_pure (extends_balance x y) ?_ (lowers_balance hx hy) ?_
  · exact fun _ => .unless ((extends_emit _).bind fun _ => extends_emit _) _
  · rintro ⟨on, x', y'⟩ d₁ rs₁ - - hb
    dsimp only
    cases hb with
    | integers hv hw hx' hy' =>
      subst hv hw
      split
      · rename_i k hk
        rcases foldCompare?_eq_some hk with ⟨a', b', rfl, rfl, rfl⟩ | ⟨a', -, rfl, -⟩
        · cases hx'.word
          cases hy'.word
          rw [holds_orderOfIntegers]
          exact .pure (.integer args rs₁ _)
        · cases hx'.word
      · refine hwritten ?_
        simp [Instr.run, hx'.readInteger, hy'.readInteger]
    | floats hmixed hx' hy' =>
      rw [Value.comparison_of_mixed hmixed]
      split
      · rename_i k hk
        rcases foldCompare?_eq_some hk with ⟨a', -, rfl, -⟩ | ⟨a', b', rfl, rfl, rfl⟩
        · cases hx'.word
        · have ha := hx'.finite _ rfl
          have hb := hy'.finite _ rfl
          rw [counted_of_isFinite ha, counted_of_isFinite hb, holds_orderOfFloats op ha hb]
          cases hx'.word
          cases hy'.word
          exact .pure (.integer args rs₁ _)
      · refine hwritten ?_
        simp [Instr.run, hx'.readFloat, hy'.readFloat]

theorem lowers_power (hx : Holds args rs x v) (hy : Holds args rs y w) :
    Lowers callees args d rs (power x y) (pure (.float (v.toFloat.pow w.toFloat)))
      fun o v' rs' => Holds args rs' o v' := by
  refine .bind_pure (extends_promote x) (fun x' => (extends_promote y).bind fun y' =>
    .unless (extends_callPower x' y') _) (lowers_promote hx) ?_
  intro x' d₁ rs₁ _ hpre₁ hx'
  refine .bind_pure (extends_promote y) (fun y' => .unless (extends_callPower x' y') _)
    (lowers_promote (hy.mono hpre₁)) ?_
  intro y' d₂ rs₂ _ hpre₂ hy'
  have hx'' := hx'.mono hpre₂
  split
  · rename_i k hk
    unfold Operand.foldPower? at hk
    split at hk
    · rw [counted_of_isFinite (hx''.finite _ rfl), counted_of_isFinite (hy'.finite _ rfl)] at hk
      simp only [Option.ite_none_right_eq_some, Option.some.injEq] at hk
      obtain ⟨hfin, rfl⟩ := hk
      cases hx''.word
      cases hy'.word
      exact .pure (.float args rs₂ hfin)
    · cases hk
  · have hmark : Lowers callees args d₂ rs₂ (modify fun d => { d with usesPower := true })
        (pure ()) fun _ _ rs' => rs' = rs₂ := by
      rintro a d' ⟨⟩ -
      have hw : d₂.written { d₂ with usesPower := true } = [] := by simp [Draft.written]
      rw [hw]
      exact Does.nil rfl
    refine .bind_pure (fun d => ⟨rfl, List.prefix_rfl⟩) (fun _ => extends_emit _) hmark ?_
    rintro _ d₃ rs₃ - - rfl
    refine lowers_emit (m := pure (v.toFloat.pow w.toFloat)) .float ?_ fun _ => rfl
    simp [Instr.run, hx''.readFloat, hy'.readFloat, Word.ofValue]

theorem lowers_binary {op : Operator} {compute : Operand → Operand → Lowering Operand}
    (h : binary? op = some compute) (hx : Holds args rs x v) (hy : Holds args rs y w) :
    Lowers callees args d rs (compute x y) (op.eval v w) fun o v' rs' => Holds args rs' o v' := by
  cases op <;> simp only [binary?, Option.some.injEq, reduceCtorEq] at h <;> subst h
  case add => exact lowers_arith .add hx hy
  case sub => exact lowers_arith .sub hx hy
  case mul => exact lowers_arith .mul hx hy
  case div => exact lowers_arith .div hx hy
  case pow => exact lowers_power hx hy
  case less => exact lowers_compare .less hx hy
  case greater => exact lowers_compare .greater hx hy
  case lessEqual => exact lowers_compare .lessEqual hx hy
  case greaterEqual => exact lowers_compare .greaterEqual hx hy
  case equal => exact lowers_compare .equal hx hy

/-! ## Expressions -/

/-- The names in scope stand for their values. A name that is not in scope may have a value. -/
def Agrees (args : List Binary64) (rs : List Word) (scope : Scope Operand) (env : Environment) : Prop :=
  ∀ id o, scope.get? id = some o → ∃ v, env.lookup id = some v ∧ Holds args rs o v

theorem Agrees.mono {rs' : List Word} {scope : Scope Operand} {env : Environment}
    (h : Agrees args rs scope env) (hpre : rs <+: rs') : Agrees args rs' scope env := by
  intro id o ho
  obtain ⟨v, hv, hold⟩ := h id o ho
  exact ⟨v, hv, hold.mono hpre⟩

theorem Agrees.push {scope : Scope Operand} {env : Environment} (h : Agrees args rs scope env)
    (id : String) (ho : Holds args rs o v) :
    Agrees args rs (scope.push.set id o) ((id, v) :: env) := by
  intro id' o' ho'
  rw [Scope.get?_set] at ho'
  by_cases hid : id' = id
  · simp only [hid, ↓reduceIte, Option.some.injEq] at ho'
    subst ho' hid
    exact ⟨v, by simp, ho⟩
  · rw [if_neg hid, Scope.get?_push] at ho'
    obtain ⟨v', hv', hold⟩ := h id' o' ho'
    have hne : (id' == id) = false := by simpa using hid
    exact ⟨v', by simp [List.lookup_cons, hne, hv'], hold⟩

theorem lowers_lookup {env : Environment} (id : String) (pos : Position)
    (h : Agrees args rs d.scope env) :
    Lowers callees args d rs (lookup id pos)
      (match env.lookup id with
        | some v => pure v
        | none => throw .stuck)
      fun o v rs' => Holds args rs' o v := by
  intro o d' hd hlen
  cases hget : d.scope.get? id with
  | none =>
    rw [lookup_of_none hget] at hd
    cases hd
  | some o' =>
    rw [lookup_of_some hget] at hd
    cases hd
    obtain ⟨v, hv, ho⟩ := h id o hget
    rw [hv, Draft.written_self]
    exact Does.nil ho

/-- Operands that stand for doubles are read as these. -/
theorem mapM_readFloat {os : List Operand} {xs : List Binary64}
    (h : List.Forall₂ (fun o x => Holds args rs o (.float x)) os xs) :
    os.mapM (Operand.readFloat args rs) = pure xs := by
  induction h with
  | nil => rfl
  | cons ho _ ih => simp [List.mapM_cons, ho.readFloat, ih]

mutual

theorem lowers_expression (arity? : String → Option Nat) :
    ∀ (e : Expr), e.isSource = true → ∀ {d : Draft} {rs : List Word} {env : Environment},
      Agrees args rs d.scope env →
      Lowers callees args d rs (expression arity? e) (e.eval callees env)
        fun o v rs' => Holds args rs' o v
  | .integer a _, _, d, rs, env, _ => by
    simp only [expression, Expr.eval]
    exact .pure (.integer args rs a)
  | .float x _, he, d, rs, env, _ => by
    simp only [Expr.isSource, Bool.and_eq_true] at he
    simp only [expression, Expr.eval]
    exact .pure (.float args rs he.1)
  | .name id pos, _, d, rs, env, h => by
    simp only [expression, Expr.eval]
    exact lowers_lookup id pos h
  | .bind id init body _, he, d, rs, env, h => by
    simp only [Expr.isSource, Bool.and_eq_true] at he
    simp only [expression, Expr.eval]
    refine .bind (extends_expression arity? init)
      (fun _ => extends_within (extends_expression arity? body))
      (lowers_expression arity? init he.1.2 h) ?_
    intro o d' v rs' hd hpre ho
    -- the code for `init` leaves the scope as it was; the body sees one name more
    have hscope := (draft_of_ok hd ▸ extends_expression arity? init d).scope
    refine .within (lowers_expression arity? body he.2 ?_)
    exact (hscope ▸ h.mono hpre).push id ho
  | .unary op x pos, he, d, rs, env, h => by
    simp only [Expr.isSource, Bool.and_eq_true] at he
    simp only [expression, Expr.eval]
    refine .bind (extends_expression arity? x) ?_ (lowers_expression arity? x he.2 h) ?_
    · intro v
      split
      · exact .pure v
      · exact extends_negate v
      · exact .throw _
    · intro o d' v rs' hd hpre ho
      cases op with
      | add => exact .pure ho
      | sub => exact lowers_negate ho
      | _ => exact .throw
  | .binary op x y pos, he, d, rs, env, h => by
    simp only [Expr.isSource, Bool.and_eq_true] at he
    simp only [expression, Expr.eval]
    have hcompute (v w : Operand) : Extends (match binary? op with
        | some compute => compute v w
        | none => throw ⟨.notBinary op, pos⟩) := by
      split
      · exact extends_binary ‹_› v w
      · exact .throw _
    refine .bind (extends_expression arity? x)
      (fun v => (extends_expression arity? y).bind fun w => hcompute v w)
      (lowers_expression arity? x he.1.2 h) ?_
    intro o₁ d₁ v rs₁ hd₁ hpre₁ ho₁
    have hscope := (draft_of_ok hd₁ ▸ extends_expression arity? x d).scope
    refine .bind (extends_expression arity? y) (hcompute o₁)
      (lowers_expression arity? y he.2 (hscope ▸ h.mono hpre₁)) ?_
    intro o₂ d₂ w rs₂ _ hpre₂ ho₂
    split
    · exact lowers_binary ‹_› (ho₁.mono hpre₂) ho₂
    · exact .throw
  | .call callee es pos, he, d, rs, env, h => by
    simp only [Expr.isSource, Bool.and_eq_true] at he
    simp only [expression, Expr.eval]
    split
    · exact .throw
    · split
      · refine .bind (extends_arguments arity? es) (fun _ => extends_emit _)
          (lowers_arguments arity? es he.2 h) ?_
        -- the operands stand for doubles, whatever the arguments were, and so does the result
        intro os d₁ xs rs₁ _ _ hos
        refine lowers_emit .float ?_ fun _ => rfl
        simp [Instr.run, mapM_readFloat hos, Word.ofValue]
      · exact .throw
  | .missing, he, _, _, _, _ => by simp [Expr.isSource] at he

theorem lowers_arguments (arity? : String → Option Nat) :
    ∀ (es : List Expr), areSource es = true → ∀ {d : Draft} {rs : List Word} {env : Environment},
      Agrees args rs d.scope env →
      Lowers callees args d rs (arguments arity? es) (evalArguments callees env es)
        fun os xs rs' => List.Forall₂ (fun o x => Holds args rs' o (.float x)) os xs
  | [], _, d, rs, env, _ => by
    simp only [arguments, evalArguments]
    exact .pure .nil
  | e :: es, he, d, rs, env, h => by
    simp only [areSource, Bool.and_eq_true] at he
    simp only [arguments, evalArguments]
    refine .bind (extends_expression arity? e) (fun o => (extends_promote o).bind fun _ =>
      (extends_arguments arity? es).bind fun _ => .pure _) (lowers_expression arity? e he.1 h) ?_
    intro o₁ d₁ v rs₁ hd₁ hpre₁ ho₁
    have hscope₁ := (draft_of_ok hd₁ ▸ extends_expression arity? e d).scope
    refine .bind_pure (extends_promote o₁) (fun _ => (extends_arguments arity? es).bind fun _ =>
      .pure _) (lowers_promote ho₁) ?_
    intro o₂ d₂ rs₂ hd₂ hpre₂ ho₂
    have hscope₂ := (draft_of_ok hd₂ ▸ extends_promote o₁ d₁).scope
    have hagrees : Agrees args rs₂ d₂.scope env := by
      rw [hscope₂, hscope₁]
      exact h.mono (hpre₁.trans hpre₂)
    refine .bind (extends_arguments arity? es) (fun _ => .pure _)
      (lowers_arguments arity? es he.2 hagrees) ?_
    intro os d₃ xs rs₃ _ hpre₃ hos
    exact .pure (.cons (ho₂.mono hpre₃) hos)

end

end Lowering

end ScalarLang
