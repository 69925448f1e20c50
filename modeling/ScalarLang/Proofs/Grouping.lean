import ScalarLang.Proofs.Reading
/-!
# How operators group their operands

A chain is an operand followed by operators with an operand each; a grouping of it is a tree with the
operands as leaves and the operators as nodes, in the order of the chain. In a proper grouping no
operator stands below one that binds tighter, and on one level the side of the operators decides. A chain
has at most one proper grouping (`eq_of_chain_eq`), since of two operators that could both be at the root
each would have to take the operands of the other. Reading a chain gives its proper grouping
(`expression_chain`).
-/
namespace ScalarLang

/-! ## Operators between operands -/

/-- A token that joins two operands. -/
structure Connective where
  token : Token
  op : Operator
  prec : Precedence
  operator?_token : token.operator? = some op
  precedence?_op : op.precedence? = some prec

namespace Connective

/-- Levels are not negative, and right-associative operators are alone on the highest one. -/
theorem level_and_side (k : Connective) :
    0 ≤ k.prec.level ∧ k.prec.level ≤ 60 ∧ (k.prec.side = .right ↔ k.prec.level = 60) := by
  obtain ⟨token, op, prec, -, hprec⟩ := k
  cases op <;> cases hprec <;> simp

theorem side_eq_of_level_eq {k j : Connective} (h : k.prec.level = j.prec.level) :
    k.prec.side = j.prec.side := by
  obtain ⟨-, -, hk⟩ := k.level_and_side
  obtain ⟨-, -, hj⟩ := j.level_and_side
  rw [h, ← hj] at hk
  cases hks : k.prec.side <;> cases hjs : j.prec.side <;> simp_all

/-- What has a higher level above it is left-associative. -/
theorem side_of_level_lt {k j : Connective} (h : k.prec.level < j.prec.level) :
    k.prec.side = .left := by
  obtain ⟨-, -, hk⟩ := k.level_and_side
  obtain ⟨-, hj, -⟩ := j.level_and_side
  cases hs : k.prec.side with
  | left => rfl
  | right =>
    have := hk.1 hs
    omega

/-- The least level of the operators in the right operand of `k`. -/
def rightLevel (k : Connective) : Int :=
  if k.prec.side = .right then k.prec.level else k.prec.level + 1

/-- An operator that binds tighter on the same level associates to the right, and so does `k`. -/
theorem rightLevel_of_bindsTighter {k j : Connective} (h : j.prec.bindsTighter k.prec = true) :
    (if j.prec.level = k.prec.level then k.prec.level else k.prec.level + 1) = k.rightLevel := by
  unfold Precedence.bindsTighter at h
  unfold rightLevel
  by_cases hlevel : j.prec.level = k.prec.level
  · simp only [hlevel, ne_eq, not_true_eq_false, ↓reduceIte, decide_eq_true_eq] at h
    rw [if_pos hlevel, if_pos ((side_eq_of_level_eq hlevel).symm.trans h)]
  · simp only [hlevel, ne_eq, not_false_eq_true, ↓reduceIte, decide_eq_true_eq] at h
    rw [if_neg hlevel, if_neg (by simp [side_of_level_lt h])]

end Connective

/-- An operand, and the operators after it with an operand each. -/
@[ext]
structure Chain where
  first : Expr
  rest : List (Connective × Expr)

/-! ## Groupings -/

/-- A tree over operands and operators. -/
inductive Grouping where
  | operand (e : Expr)
  | node (k : Connective) (left right : Grouping)

/-- Whether an operator with precedence `q` may stand directly under one with precedence `p`, on the
given side of it: it has a higher level, or the same level and associates to that side. -/
def Precedence.isUnder (q : Precedence) (side : Associativity) (p : Precedence) : Bool :=
  decide (p.level < q.level) || (q.level = p.level && q.side = side)

namespace Grouping

/-- The expression that a grouping stands for. Every operation has the place of its operator. -/
def expr : Grouping → Expr
  | operand e => e
  | node k l r => .binary k.op l.expr r.expr k.token.pos

/-- The operands and operators of a grouping, in order. -/
def chain : Grouping → Chain
  | operand e => ⟨e, []⟩
  | node k l r => ⟨l.chain.first, l.chain.rest ++ (k, r.chain.first) :: r.chain.rest⟩

/-- Whether a grouping may stand on the given side of an operator with precedence `p`. An operand may
stand anywhere. -/
def isUnder (g : Grouping) (side : Associativity) (p : Precedence) : Bool :=
  match g with
  | operand _ => true
  | node k _ _ => k.prec.isUnder side p

/-- No operator stands below one that binds tighter, and on one level the side decides. -/
def isProper : Grouping → Bool
  | operand _ => true
  | node k l r => l.isUnder .left k.prec && r.isUnder .right k.prec && l.isProper && r.isProper

/-! ## A chain has one proper grouping -/

variable {g g' : Grouping} {k j : Connective} {side : Associativity}

theorem isUnder_iff : k.prec.isUnder side j.prec = true ↔
    j.prec.level < k.prec.level ∨ (k.prec.level = j.prec.level ∧ k.prec.side = side) := by
  simp [Precedence.isUnder]

/-- What may stand under `k`, on any side, may stand where `k` may stand. -/
theorem isUnder_trans {side' : Associativity} (hk : k.prec.isUnder side j.prec = true)
    (hg : g.isUnder side' k.prec = true) : g.isUnder side j.prec = true := by
  cases g with
  | operand e => rfl
  | node i l r =>
    have hi := isUnder_iff.1 hg
    refine isUnder_iff.2 ?_
    rcases isUnder_iff.1 hk with hlevel | ⟨hlevel, hside⟩
    · left
      omega
    · rcases hi with hi | ⟨hi, -⟩
      · left
        omega
      · right
        exact ⟨hi.trans hlevel, (Connective.side_eq_of_level_eq hi).trans hside⟩

/-- In a proper grouping all operators may stand where the root may stand. -/
theorem isUnder_of_mem_chain (hg : g.isProper = true) (hunder : g.isUnder side j.prec = true) :
    ∀ x ∈ g.chain.rest, x.1.prec.isUnder side j.prec = true := by
  induction g with
  | operand e => simp [chain]
  | node k l r ihl ihr =>
    simp only [isProper, Bool.and_eq_true] at hg
    obtain ⟨⟨⟨hl, hr⟩, hlp⟩, hrp⟩ := hg
    intro x hx
    rcases List.mem_append.1 hx with hx | hx
    · exact ihl hlp (isUnder_trans hunder hl) x hx
    · rcases List.mem_cons.1 hx with rfl | hx
      · exact hunder
      · exact ihr hrp (isUnder_trans hunder hr) x hx

/-- Two operators cannot stand under each other, the first on the left and the second on the right. -/
theorem not_isUnder_both (hk : k.prec.isUnder .left j.prec = true)
    (hj : j.prec.isUnder .right k.prec = true) : False := by
  rcases isUnder_iff.1 hk with hk | ⟨hlevel, hk⟩ <;> rcases isUnder_iff.1 hj with hj | ⟨hlevel', hj⟩
  · omega
  · omega
  · omega
  · rw [Connective.side_eq_of_level_eq hlevel, hj] at hk
    cases hk

/-- A list that is cut at two of its elements is cut at one place, or one cut is further on. -/
theorem append_cons_cases {α : Type} {a b a' b' : List α} {x x' : α}
    (h : a ++ x :: b = a' ++ x' :: b') :
    (a = a' ∧ x = x' ∧ b = b') ∨ (∃ mid, a' = a ++ x :: mid ∧ b = mid ++ x' :: b') ∨
      ∃ mid, a = a' ++ x' :: mid ∧ b' = mid ++ x :: b := by
  rcases List.append_eq_append_iff.1 h with ⟨mid, ha, hb⟩ | ⟨mid, ha, hb⟩
  · cases mid with
    | nil => simp_all
    | cons y mid => simp_all
  · cases mid with
    | nil => simp_all
    | cons y mid => simp_all

/-- Of two operators that are at the root of proper groupings of one chain, none is further on. -/
theorem false_of_roots {l r l' r' : Grouping} {mid : List (Connective × Expr)}
    (hg : (node k l r).isProper = true) (hg' : (node j l' r').isProper = true)
    (hl : l'.chain.rest = l.chain.rest ++ (k, r.chain.first) :: mid)
    (hr : r.chain.rest = mid ++ (j, r'.chain.first) :: r'.chain.rest) : False := by
  simp only [isProper, Bool.and_eq_true] at hg hg'
  have hk : k.prec.isUnder .left j.prec = true :=
    isUnder_of_mem_chain hg'.1.2 hg'.1.1.1 (k, r.chain.first) (by simp [hl])
  have hj : j.prec.isUnder .right k.prec = true :=
    isUnder_of_mem_chain hg.2 hg.1.1.2 (j, r'.chain.first) (by simp [hr])
  exact not_isUnder_both hk hj

/-- A chain has at most one proper grouping. -/
theorem eq_of_chain_eq (hg : g.isProper = true) (hg' : g'.isProper = true)
    (h : g.chain = g'.chain) : g = g' := by
  induction g generalizing g' with
  | operand e =>
    cases g' with
    | operand e' => simpa [chain] using h
    | node j l' r' => simp [chain] at h
  | node k l r ihl ihr =>
    cases g' with
    | operand e' => simp [chain] at h
    | node j l' r' =>
      simp only [chain, Chain.mk.injEq] at h
      obtain ⟨hfirst, hrest⟩ := h
      rcases append_cons_cases hrest with ⟨hl, hroot, hr⟩ | ⟨mid, hl, hr⟩ | ⟨mid, hl, hr⟩
      · obtain ⟨rfl, hright⟩ := Prod.mk.inj hroot
        simp only [isProper, Bool.and_eq_true] at hg hg'
        rw [ihl hg.1.2 hg'.1.2 (Chain.ext hfirst hl), ihr hg.2 hg'.2 (Chain.ext hright hr)]
      · exact (false_of_roots hg hg' hl hr).elim
      · exact (false_of_roots hg' hg hl hr).elim

/-! ## Extending a grouping -/

variable {rest left : List (Connective × Expr)} {least : Int}

/-- The next operator may have the grouping `g` as its left operand. -/
def IsLeftOf (g : Grouping) (rest : List (Connective × Expr)) : Prop :=
  ∀ x ∈ rest.head?, g.isUnder .left x.1.prec = true

/-- From the level `least` on, the operators of `rest` extend the grouping `g` to the proper grouping `g'`,
up to those in `left`. -/
structure Extends (least : Int) (g : Grouping) (rest : List (Connective × Expr)) (g' : Grouping)
    (left : List (Connective × Expr)) : Prop where
  proper : g'.isProper = true
  first : g'.chain.first = g.chain.first
  append : g'.chain.rest ++ left = g.chain.rest ++ rest
  below : ∀ x ∈ left.head?, x.1.prec.level < least
  root : g' = g ∨ ∃ k l r, g' = .node k l r ∧ least ≤ k.prec.level

theorem Extends.refl (hg : g.isProper = true) (h : ∀ x ∈ rest.head?, x.1.prec.level < least) :
    Extends least g rest g rest := ⟨hg, rfl, rfl, h, .inl rfl⟩

/-- The grouping goes on with `k` at its root. -/
theorem Extends.cons {e : Expr} {r : Grouping} {mid : List (Connective × Expr)} (hk : least ≤ k.prec.level)
    (hfirst : r.chain.first = e) (happend : r.chain.rest ++ mid = rest)
    (h : Extends least (.node k g r) mid g' left) : Extends least g ((k, e) :: rest) g' left where
  proper := h.proper
  first := h.first
  append := by rw [h.append, ← hfirst, ← happend]; simp [chain]
  below := h.below
  root := by
    right
    rcases h.root with rfl | hroot
    · exact ⟨k, g, r, rfl, hk⟩
    · exact hroot

/-- The operand after `k` is all of its right operand if the next operator does not bind tighter. -/
theorem isLeftOf_of_not_bindsTighter (r : Grouping)
    (h : ∀ x ∈ rest.head?, x.1.prec.bindsTighter k.prec = false) : (node k g r).IsLeftOf rest := by
  intro x hx
  have hloose := h x hx
  unfold Precedence.bindsTighter at hloose
  refine isUnder_iff.2 ?_
  split at hloose
  · left
    have := of_decide_eq_false hloose
    omega
  · rename_i hlevel
    have hlevel : k.prec.level = x.1.prec.level := by omega
    right
    refine ⟨hlevel, ?_⟩
    rw [Connective.side_eq_of_level_eq hlevel]
    cases hs : x.1.prec.side with
    | left => rfl
    | right => simp [hs] at hloose

/-- A right operand that goes on with the level for it may stand under `k`, and what it leaves does not
belong to it. -/
theorem Extends.right {e : Expr} {r : Grouping} (h : Extends k.rightLevel (.operand e) rest r left) :
    r.isUnder .right k.prec = true ∧ (Grouping.node k g r).IsLeftOf left := by
  obtain ⟨-, -, -, hbelow, hroot⟩ := h
  unfold Connective.rightLevel at hbelow hroot
  constructor
  · rcases hroot with rfl | ⟨j, l, r, rfl, hj⟩
    · rfl
    · refine isUnder_iff.2 ?_
      split at hj
      · rename_i hside
        rcases Int.lt_or_eq_of_le hj with hlt | heq
        · exact .inl hlt
        · exact .inr ⟨heq.symm, (Connective.side_eq_of_level_eq heq).symm.trans hside⟩
      · left
        omega
  · intro x hx
    have hx := hbelow x hx
    refine isUnder_iff.2 ?_
    split at hx
    · exact .inl hx
    · rename_i hside
      rcases Int.lt_or_eq_of_le (Int.lt_add_one_iff.1 hx) with hlt | heq
      · exact .inl hlt
      · exact .inr ⟨heq.symm, by cases hs : k.prec.side <;> simp_all⟩

end Grouping

/-! ## Reading a chain -/

namespace Reading

variable {ε : Type} {c c₁ c' : Cursor ε} {rest : List (Connective × Expr)}

/-- After an operand the cursor `c` gives these operators, each with an operand that is read in full
before the next one, and then a token that is no operator, which stays in the lookahead of `c'`. -/
inductive Continues : Cursor ε → List (Connective × Expr) → Cursor ε → Prop
  | stop {c c' : Cursor ε} {t : Token} (hl : look c = .ok t c') (ht : t.operator? = none) :
      Continues c [] c'
  | step {c c₁ c₂ c' : Cursor ε} {k : Connective} {e : Expr} {rest : List (Connective × Expr)}
      (hl : look c = .ok k.token c₁) (hu : (Parse.unary c₁.skip).outcome = .ok e c₂)
      (h : Continues c₂ rest c') : Continues c ((k, e) :: rest) c'

/-- A look does not change what a cursor gives. -/
theorem Continues.of_look (h : Continues c rest c') {t : Token} (hl : look c = .ok t c₁) :
    Continues c₁ rest c' := by
  have hagain : look c₁ = .ok t c₁ := look_of_lookahead (Cursor.lookahead_peek (peek_of_look hl))
  cases h with
  | stop hl' ht =>
    cases hl.symm.trans hl'
    exact .stop hagain ht
  | step hl' hu h =>
    cases hl.symm.trans hl'
    exact .step hagain hu h

theorem Continues.look (h : Continues c rest c') : ∃ t c₁, look c = .ok t c₁ := by
  cases h with
  | stop hl _ => exact ⟨_, _, hl⟩
  | step hl _ _ => exact ⟨_, _, hl⟩

/-- Whether the operand after `k` goes on is decided by the next operator. -/
theorem Continues.rightLevel? (h : Continues c rest c') {t : Token} (hl : Reading.look c = .ok t c₁)
    (k : Connective) : (k.prec.rightLevel? t = none ∧
        ∀ x ∈ rest.head?, x.1.prec.bindsTighter k.prec = false) ∨
      k.prec.rightLevel? t = some k.rightLevel := by
  cases h with
  | stop hl' ht =>
    cases hl.symm.trans hl'
    simp [Precedence.rightLevel?, ht]
  | @step _ _ _ _ j e rest hl' hu h =>
    cases hl.symm.trans hl'
    simp only [Precedence.rightLevel?, j.operator?_token, Option.bind_some, j.precedence?_op]
    cases htight : j.prec.bindsTighter k.prec with
    | false => simpa using htight
    | true =>
      right
      rw [if_pos rfl, Connective.rightLevel_of_bindsTighter htight]

/-- Reading operators from a level on extends a proper grouping by those that belong to it. -/
theorem extends_operators (least : Int) {g : Grouping} (h : Continues c rest c') (hg : g.isProper = true)
    (hleft : g.IsLeftOf rest) :
    ∃ g' left c₁, operators least g.expr c = .ok g'.expr c₁ ∧ Continues c₁ left c' ∧
      c₁.lookahead.isSome = true ∧ g.Extends least rest g' left := by
  induction hn : rest.length using Nat.strongRecOn generalizing rest least g c with
  | _ n ih =>
    rw [operators_eq]
    obtain ⟨t, c₁, hl⟩ := h.look
    have hc₁ := h.of_look hl
    have hahead : c₁.lookahead.isSome = true := by
      rw [Cursor.lookahead_peek (peek_of_look hl), Option.isSome_some]
    rw [bind_of_ok hl]
    cases h with
    | stop hl' ht =>
      cases hl'.symm.trans hl
      simp only [ht]
      exact ⟨g, [], _, rfl, hc₁, hahead, .refl hg (by simp)⟩
    | @step _ _ c₂ _ k e rest hl' hu h =>
      cases hl'.symm.trans hl
      simp only [k.operator?_token, k.precedence?_op]
      by_cases hlow : k.prec.level < least
      · rw [if_pos hlow]
        exact ⟨g, (k, e) :: rest, c₁, rfl, hc₁, hahead, .refl hg (by simpa using hlow)⟩
      · rw [if_neg hlow]
        obtain ⟨ahead, c₃, hl₃⟩ := h.look
        have hc₃ := h.of_look hl₃
        have hunder : g.isUnder .left k.prec = true := hleft (k, e) rfl
        -- what the right operand `r` leaves is read with `k` at the root
        have hgo {r : Grouping} {mid : List (Connective × Expr)} {c₄ : Cursor ε}
            (hc₄ : Continues c₄ mid c') (hright : r.isUnder .right k.prec = true)
            (hr : r.isProper = true) (hfirst : r.chain.first = e) (happend : r.chain.rest ++ mid = rest)
            (hmid : (Grouping.node k g r).IsLeftOf mid) :
            ∃ g' left c₁, operators least (Grouping.node k g r).expr c₄ = .ok g'.expr c₁ ∧
              Continues c₁ left c' ∧ c₁.lookahead.isSome = true ∧
              g.Extends least ((k, e) :: rest) g' left := by
          have hproper : (Grouping.node k g r).isProper = true := by
            simp [Grouping.isProper, hunder, hright, hg, hr]
          have hlt : mid.length < n := by
            rw [← hn, ← happend, List.length_cons, List.length_append]
            omega
          obtain ⟨g', left, c₅, hread, hc₅, hahead, hextends⟩ := ih _ hlt least hc₄ hproper hmid rfl
          exact ⟨g', left, c₅, hread, hc₅, hahead, hextends.cons (Int.not_lt.1 hlow) hfirst happend⟩
        have hskip : skip c₁ = .ok () c₁.skip := rfl
        have hu : unary c₁.skip = .ok e c₂ := hu
        rw [bind_of_ok hskip, bind_of_ok hu, bind_of_ok hl₃]
        rcases h.rightLevel? hl₃ k with ⟨hnone, hloose⟩ | hsome
        · simp only [hnone]
          exact hgo (r := .operand e) hc₃ rfl rfl rfl rfl (Grouping.isLeftOf_of_not_bindsTighter _ hloose)
        · simp only [hsome]
          have hfree : (Grouping.operand e).IsLeftOf rest := fun _ _ => rfl
          obtain ⟨r, mid, c₄, hread, hc₄, -, hr⟩ :=
            ih rest.length (by simp at hn; omega) k.rightLevel hc₃ rfl hfree rfl
          have hread : operators k.rightLevel e c₃ = .ok r.expr c₄ := hread
          rw [bind_of_ok hread]
          obtain ⟨hright, hmid⟩ := hr.right
          exact hgo hc₄ hright hr.proper hr.first hr.append hmid

/-- Reading an operand and what continues it gives the one proper grouping of the whole chain. -/
theorem expression_chain {e : Expr} (hu : (Parse.unary c).outcome = .ok e c₁)
    (h : Continues c₁ rest c') :
    ∃ g : Grouping, (Parse.expression c).outcome = .ok g.expr c' ∧ g.isProper = true ∧
      g.chain = ⟨e, rest⟩ ∧
      ∀ g' : Grouping, g'.isProper = true → g'.chain = ⟨e, rest⟩ → g' = g := by
  have hfree : (Grouping.operand e).IsLeftOf rest := fun _ _ => rfl
  obtain ⟨g, left, c₂, hread, hc₂, hahead, hg⟩ := extends_operators 0 h rfl hfree
  have hnone : left = [] := by
    cases left with
    | nil => rfl
    | cons x left =>
      have hbelow := hg.below x rfl
      have hlevel := x.1.level_and_side.1
      omega
  subst hnone
  have hchain : g.chain = ⟨e, rest⟩ := Chain.ext hg.first (by simpa [Grouping.chain] using hg.append)
  obtain ⟨t, ht⟩ := Option.isSome_iff_exists.1 hahead
  cases hc₂ with
  | stop hl _ =>
    cases (look_of_lookahead ht).symm.trans hl
    refine ⟨g, ?_, hg.proper, hchain, fun g' hg' h' => ?_⟩
    · show expression c = _
      have hu : unary c = .ok e c₁ := hu
      rw [expression_eq, bind_of_ok hu]
      exact hread
    · exact Grouping.eq_of_chain_eq hg' hg.proper (h'.trans hchain.symm)

/-- The operators of the text `a - b ^ c ^ d < e`. -/
def minus : Connective := ⟨⟨.operator, "-", ⟨1, 3, 2⟩⟩, .sub, ⟨20, .left⟩, by decide, rfl⟩

/-- The first power of that text. -/
def power : Connective := ⟨⟨.operator, "^", ⟨1, 7, 6⟩⟩, .pow, ⟨60, .right⟩, by decide, rfl⟩

/-- The power on the right of it. -/
def innerPower : Connective := ⟨⟨.operator, "^", ⟨1, 11, 10⟩⟩, .pow, ⟨60, .right⟩, by decide, rfl⟩

/-- The comparison at the end. -/
def less : Connective := ⟨⟨.operator, "<", ⟨1, 15, 14⟩⟩, .less, ⟨10, .left⟩, by decide, rfl⟩

/-- The cursor in that text that holds the token `t` and is to give the tokens `ts` after it. -/
def holding (t : Token) (ts : List Token) : Cursor ScanError := ⟨some t, ts.map .ok, ⟨1, 18, 17⟩⟩

theorem expression_chain_powers :
    ∃ c', (Parse.expression (.ofStream (.ofString "a - b ^ c ^ d < e"))).outcome =
      .ok (.binary .less
        (.binary .sub (.name "a" ⟨1, 1, 0⟩)
          (.binary .pow (.name "b" ⟨1, 5, 4⟩)
            (.binary .pow (.name "c" ⟨1, 9, 8⟩) (.name "d" ⟨1, 13, 12⟩) ⟨1, 11, 10⟩) ⟨1, 7, 6⟩) ⟨1, 3, 2⟩)
        (.name "e" ⟨1, 17, 16⟩) ⟨1, 15, 14⟩) c' := by
  let b : Token := ⟨.identifier, "b", ⟨1, 5, 4⟩⟩
  let c : Token := ⟨.identifier, "c", ⟨1, 9, 8⟩⟩
  let d : Token := ⟨.identifier, "d", ⟨1, 13, 12⟩⟩
  let e : Token := ⟨.identifier, "e", ⟨1, 17, 16⟩⟩
  have ha : (Parse.unary (.ofStream (.ofString "a - b ^ c ^ d < e"))).outcome = .ok (.name "a" ⟨1, 1, 0⟩)
      (holding minus.token [b, power.token, c, innerPower.token, d, less.token, e]) := by
    with_unfolding_all rfl
  have hb : (Parse.unary
      (holding minus.token [b, power.token, c, innerPower.token, d, less.token, e]).skip).outcome =
        .ok (.name "b" b.pos) (holding power.token [c, innerPower.token, d, less.token, e]) := by
    with_unfolding_all rfl
  have hc : (Parse.unary (holding power.token [c, innerPower.token, d, less.token, e]).skip).outcome =
      .ok (.name "c" c.pos) (holding innerPower.token [d, less.token, e]) := by
    with_unfolding_all rfl
  have hd : (Parse.unary (holding innerPower.token [d, less.token, e]).skip).outcome =
      .ok (.name "d" d.pos) (holding less.token [e]) := by
    with_unfolding_all rfl
  have he : (Parse.unary (holding less.token [e]).skip).outcome =
      .ok (.name "e" e.pos) (holding ⟨.endOfInput, "", ⟨1, 18, 17⟩⟩ []) := by
    with_unfolding_all rfl
  obtain ⟨g, hread, -, -, hunique⟩ := expression_chain ha
    (.step rfl hb (.step rfl hc (.step rfl hd (.step rfl he (.stop rfl (by decide))))))
  have hg := hunique (.node less (.node minus (.operand (.name "a" ⟨1, 1, 0⟩))
    (.node power (.operand (.name "b" b.pos)) (.node innerPower (.operand (.name "c" c.pos))
      (.operand (.name "d" d.pos))))) (.operand (.name "e" e.pos))) rfl rfl
  rw [← hg] at hread
  exact ⟨_, hread⟩

end Reading

end ScalarLang
