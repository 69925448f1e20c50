import ScalarLang.Proofs.Lexing
import ScalarLang.Proofs.Lockstep
/-!
# What parsing a text gives

A parser on a source text takes items and synchronizes in any order; every item it finds that way is one
that a text can spell, and a definition has a name.
-/
namespace ScalarLang

variable {ε : Type}

/-! ## Parsers at work -/

/-- The cursors that a parser comes to from `c`. -/
inductive Parse.Visits (c : Cursor ε) : Cursor ε → Prop
  | start : Visits c c
  | item {d : Cursor ε} (h : Visits c d) : Visits c (Parse.item d).cursor
  | synchronize {d : Cursor ε} (h : Visits c d) : Visits c (Parse.synchronize d)

/-- An item that a parser finds in a source text. -/
def Item.IsParsed (i : Item) : Prop :=
  ∃ bytes failure c, Parse.Visits (.ofStream (.ofBytes bytes failure)) c ∧
    (Parse.item c).result = .ok (some i)

/-! ## Sound tokens -/

/-- All tokens that are still to be read are sound, but for the end of input. -/
structure Cursor.IsSound (c : Cursor ε) : Prop where
  lookahead : ∀ t, c.lookahead = some t → t.IsSound ∨ t.isEnd = true
  coming : ∀ t, .ok t ∈ c.coming → t.IsSound

theorem Cursor.IsSound.skip {c : Cursor ε} (h : c.IsSound) : c.skip.IsSound :=
  ⟨by simp [Cursor.skip], h.coming⟩

theorem Cursor.IsSound.ofBytes (bytes : List UInt8) (failure : Option String) :
    (Cursor.ofStream (.ofBytes bytes failure)).IsSound :=
  ⟨by simp [Cursor.ofStream], fun _ ht => (TokenStream.isLexed_of_mem_ofBytes ht).isSound⟩

namespace Reading

/-- A cursor over sound tokens, related to itself. -/
def Sound (c d : Cursor ε) : Prop := c = d ∧ c.IsSound

/-- A sound token, or the end of input, related to itself. -/
def SoundToken (t u : Token) : Prop := t = u ∧ (t.IsSound ∨ t.isEnd = true)

/-- A tree that a text can spell, related to itself. -/
def SourceExpr (x y : Expr) : Prop := x = y ∧ x.isSource = true

theorem SoundToken.isSound {t u : Token} (h : SoundToken t u) (hk : t.kind ≠ .endOfInput) :
    t.IsSound := by
  rcases h.2 with h | h
  · exact h
  · exact absurd (by simpa [Token.isEnd] using h) hk

theorem SoundToken.isName {t u : Token} (h : SoundToken t u) (hk : t.kind = .identifier) :
    isName t.text = true := by
  have hs := h.isSound (by simp [hk])
  simpa only [Token.IsSound, hk] using hs

theorem looks_sound {c : Cursor ε} (h : c.IsSound) :
    Looks Sound SoundToken Eq c.peek c.peek := by
  obtain ⟨l, cs, p⟩ := c
  rcases l with _ | t
  · rcases cs with _ | ⟨e | t, cs⟩
    · have hc : (⟨some ⟨.endOfInput, "", p⟩, [], p⟩ : Cursor ε).IsSound := ⟨by simp [Token.isEnd], by simp⟩
      exact .token ⟨rfl, .inr rfl⟩ ⟨rfl, hc⟩ fun _ => ⟨rfl, hc.skip⟩
    · exact .error rfl ⟨rfl, by simp, fun t ht => h.coming t (by simp [ht])⟩
    · have ht := h.coming t (by simp)
      have hc : (⟨some t, cs, p⟩ : Cursor ε).IsSound :=
        ⟨by simp [ht], fun u hu => h.coming u (by simp [hu])⟩
      exact .token ⟨rfl, .inl ht⟩ ⟨rfl, hc⟩ fun _ => ⟨rfl, hc.skip⟩
  · exact .token ⟨rfl, h.lookahead t rfl⟩ ⟨rfl, h⟩ fun _ => ⟨rfl, h.skip⟩

theorem areSource_of_forall₂ {xs ys : List Expr} (h : List.Forall₂ SourceExpr xs ys) :
    xs = ys ∧ areSource xs = true := by
  induction h with
  | nil => exact ⟨rfl, rfl⟩
  | cons hx _ ih => exact ⟨by rw [hx.1, ih.1], by simp [areSource, hx.2, ih.2]⟩

/-- Sound tokens build trees that a text can spell. -/
theorem lockstep_sound :
    Lockstep Sound SoundToken SourceExpr (Eq : Failure ε → Failure ε → Prop) where
  same := by rintro t u ⟨rfl, -⟩; exact ⟨rfl, rfl⟩
  look := by rintro c d ⟨rfl, h⟩; exact looks_sound h
  grammar := by rintro t u fault ⟨rfl, -⟩; rfl
  integer := by
    rintro t u v ht hk hv
    have hs := ht.isSound (by simp [hk])
    simp only [Token.IsSound, hk] at hs
    obtain ⟨w, hw, hpos⟩ := hs
    rw [hv] at hw
    cases hw
    exact ⟨by rw [ht.1], by simpa [Expr.isSource] using hpos⟩
  float := by
    rintro t u v ht hk hv
    have hs := ht.isSound (by simp [hk])
    simp only [Token.IsSound, hk] at hs
    obtain ⟨w, hw, hfin, hneg⟩ := hs
    rw [hv] at hw
    cases hw
    exact ⟨by rw [ht.1], by simp [Expr.isSource, hfin, hneg]⟩
  name := by
    rintro t u ht hk
    exact ⟨by rw [ht.1], by simpa [Expr.isSource] using ht.isName hk⟩
  call := by
    rintro t u xs ys ht hk hx
    obtain ⟨rfl, hxs⟩ := areSource_of_forall₂ hx
    exact ⟨by rw [ht.1], by simp [Expr.isSource, ht.isName hk, hxs]⟩
  unary := by
    rintro t u op x y ht hop hx
    exact ⟨by rw [ht.1, hx.1], by simp [Expr.isSource, hop, hx.2]⟩
  binary := by
    rintro t u op p x x' y y' ht hp hx hy
    exact ⟨by rw [ht.1, hx.1, hy.1], by simp [Expr.isSource, hp, hx.2, hy.2]⟩
  zero := by rintro t u ht; exact ⟨by rw [ht.1], by simp [Expr.isSource]⟩
  bind := by
    rintro t u x x' y y' ht hk hx hy
    exact ⟨by rw [ht.1, hx.1, hy.1], by simp [Expr.isSource, ht.isName hk, hx.2, hy.2]⟩

theorem Heads.isSource {p q : Prototype} (h : Heads SoundToken p q) : p.isSource = true := by
  obtain ⟨ht, hk, ts, us, hts, hks, rfl, -⟩ := h
  simp only [Prototype.isSource, Bool.and_eq_true, List.all_eq_true]
  have hnames : ∀ t ∈ ts, t.kind = .identifier → isName t.text = true :=
    ((List.forall₂_and_left ts us).1 (hts.imp fun t u h => ⟨h.isName, h⟩)).1
  refine ⟨ht.isName hk, fun name hname => ?_⟩
  obtain ⟨t, hmem, rfl⟩ := List.mem_map.1 hname
  exact hnames t hmem (hks t hmem)

/-- A text spells an item, and the function that it defines has a name. -/
def SourceItem (i : Item) : Prop :=
  match i with
  | .external p _ => p.isSource = true
  | .define p body _ => p.isSource = true ∧ body.isSource = true
  | .evaluate body _ => body.isSource = true

theorem Items.sourceItem {i j : Item} (h : Items SoundToken SourceExpr i j) : SourceItem i := by
  cases h with
  | external _ hp => exact hp.isSource
  | define _ hp hx => exact ⟨hp.isSource, hx.2⟩
  | evaluate _ hx => exact hx.2

theorem Sound.skip {c d : Cursor ε} (h : Sound c d) : Sound c.skip d.skip :=
  ⟨by rw [h.1], h.2.skip⟩

theorem alike_item_self {c : Cursor ε} (h : c.IsSound) :
    Alike Sound Eq (Option.Rel (Items SoundToken SourceExpr)) (item c) (item c) :=
  (lockstep_sound.aligned Sound.skip).alike_item ⟨rfl, h⟩

end Reading

/-- Every cursor that a parser comes to holds sound tokens if the first one does. -/
theorem Parse.Visits.isSound {c d : Cursor ε} (h : Visits c d) (hc : c.IsSound) : d.IsSound := by
  induction h with
  | start => exact hc
  | item _ ih => exact (Reading.alike_item_self ih).cursor.2
  | synchronize _ ih =>
    exact ((Reading.lockstep_sound.aligned Reading.Sound.skip).related_synchronize ⟨rfl, ih⟩).2

theorem Item.IsParsed.sourceItem {i : Item} (h : i.IsParsed) : Reading.SourceItem i := by
  obtain ⟨bytes, failure, c, hv, hr⟩ := h
  have hc := hv.isSound (.ofBytes bytes failure)
  obtain ⟨j, -, hij⟩ := (Reading.alike_item_self hc).result hr
  cases hij with
  | some hij => exact hij.sourceItem

end ScalarLang
