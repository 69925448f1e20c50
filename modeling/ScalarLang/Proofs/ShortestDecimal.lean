import ScalarLang.Number.Shortest
import ScalarLang.Proofs.Rounding
/-!
# The shortest decimal of a double rounds to it

A decimal is in a window exactly if it rounds to the double (`Shortest.contains_of`), and the search
comes to a grid that is finer than the window before it runs out of steps.
-/
namespace ScalarLang

/-! ## Powers -/

theorem zpow_eq_div_toNat {b : ℚ} (hb : b ≠ 0) (k : Int) : b ^ k = b ^ k.toNat / b ^ (-k).toNat := by
  rw [← zpow_natCast, ← zpow_natCast, ← zpow_sub₀ hb]
  congr 1
  omega

/-- Three tenths are below the logarithm of two. -/
theorem ten_zpow_le_of_nonneg {q e : Int} (he : 0 ≤ e) (h : 10 * q ≤ 3 * e) : (10 : ℚ) ^ q ≤ 2 ^ e := by
  have hpow : ((10 : ℚ) ^ q) ^ 10 ≤ (2 ^ e) ^ 10 :=
    calc ((10 : ℚ) ^ q) ^ 10 = 10 ^ (10 * q) := by rw [← zpow_natCast, ← zpow_mul, mul_comm]; rfl
      _ ≤ 10 ^ (3 * e) := zpow_le_zpow_right₀ (by norm_num) h
      _ = (10 ^ (3 : Int)) ^ e := zpow_mul _ _ _
      _ ≤ (2 ^ (10 : Int)) ^ e := zpow_le_zpow_left₀ he (by norm_num) (by norm_num)
      _ = (2 ^ e) ^ 10 := by rw [← zpow_mul, ← zpow_natCast, ← zpow_mul, mul_comm]; rfl
  exact le_of_pow_le_pow_left₀ (by norm_num) (by positivity) hpow

/-- Twenty-eight ninety-thirds are above the logarithm of two. -/
theorem ten_zpow_le_of_nonpos {q e : Int} (he : e ≤ 0) (h : 93 * q ≤ 28 * e) :
    (10 : ℚ) ^ q ≤ 2 ^ e := by
  have hpow : ((10 : ℚ) ^ q) ^ 93 ≤ (2 ^ e) ^ 93 :=
    calc ((10 : ℚ) ^ q) ^ 93 = 10 ^ (93 * q) := by rw [← zpow_natCast, ← zpow_mul, mul_comm]; rfl
      _ ≤ 10 ^ (28 * e) := zpow_le_zpow_right₀ (by norm_num) h
      _ = (10 ^ (28 : Int)) ^ e := zpow_mul _ _ _
      _ ≤ (2 ^ (93 : Int)) ^ e := by
        obtain ⟨f, rfl⟩ : ∃ f : Nat, e = -(f : Int) := ⟨(-e).toNat, by omega⟩
        rw [zpow_neg, zpow_neg, zpow_natCast, zpow_natCast]
        exact inv_anti₀ (by positivity) (pow_le_pow_left₀ (by positivity) (by norm_num) f)
      _ = (2 ^ e) ^ 93 := by rw [← zpow_mul, ← zpow_natCast, ← zpow_mul, mul_comm]; rfl
  exact le_of_pow_le_pow_left₀ (by norm_num) (by positivity) hpow

namespace Shortest

/-! ## Windows -/

/-- The window in units of a power of ten holds the integers whose multiples of it lie in the
window. -/
theorem contains_inUnits {w : Window} (hd : 0 < w.den) (p : Int) (n : Nat) :
    (w.inUnits p).contains n = true ↔
      (w.low : ℚ) / w.den ≤ n * 10 ^ p ∧ (n : ℚ) * 10 ^ p ≤ w.high / w.den ∧
        (w.closed = true ∨ (w.low : ℚ) / w.den < n * 10 ^ p ∧ (n : ℚ) * 10 ^ p < w.high / w.den) := by
  have hdq : (0 : ℚ) < w.den := by exact_mod_cast hd
  have hten : (0 : ℚ) < 10 ^ (-p).toNat := by positivity
  have hpow := zpow_eq_div_toNat (by norm_num : (10 : ℚ) ≠ 0) p
  have hle (a : Nat) : (a : ℚ) / w.den ≤ n * 10 ^ p ↔
      a * Numeral.tenTo (-p).toNat ≤ n * (w.den * Numeral.tenTo p.toNat) := by
    rw [hpow, ← mul_div_assoc, div_le_div_iff₀ hdq hten, ← Nat.cast_le (α := ℚ)]
    simp only [Numeral.tenTo, Nat.pow_eq]
    push_cast
    rw [mul_assoc (n : ℚ), mul_comm ((10 : ℚ) ^ p.toNat)]
  have hge (a : Nat) : (n : ℚ) * 10 ^ p ≤ a / w.den ↔
      n * (w.den * Numeral.tenTo p.toNat) ≤ a * Numeral.tenTo (-p).toNat := by
    rw [hpow, ← mul_div_assoc, div_le_div_iff₀ hten hdq, ← Nat.cast_le (α := ℚ)]
    simp only [Numeral.tenTo, Nat.pow_eq]
    push_cast
    rw [mul_assoc (n : ℚ), mul_comm ((10 : ℚ) ^ p.toNat)]
  have hlt (a : Nat) := (hge a).not
  have hgt (a : Nat) := (hle a).not
  simp only [not_le] at hlt hgt
  rw [hle, hge, hlt, hgt]
  have hinner : (w.inUnits p).closed = w.closed := rfl
  unfold Window.contains
  by_cases hclosed : w.closed = true
  · rw [if_pos (hinner.trans hclosed), decide_eq_true_iff]
    exact and_congr_right fun _ => (and_iff_left (.inl hclosed)).symm
  · rw [if_neg (by rwa [hinner]), decide_eq_true_iff]
    constructor
    · intro h
      exact ⟨h.1.le, h.2.le, .inr h⟩
    · rintro ⟨-, -, h | h⟩
      · exact absurd h hclosed
      · exact h

theorem roundQuotient_mem (n d : Nat) :
    Binary64.roundQuotient n d = n / d ∨ Binary64.roundQuotient n d = n / d + 1 := by
  unfold Binary64.roundQuotient
  simp only
  split
  · exact .inl rfl
  · split <;> omega

theorem contains_nearest? {w : Window} {n : Nat} (h : w.nearest? = some n) : w.contains n = true := by
  unfold Window.nearest? at h
  simp only at h
  split at h
  · rename_i h₁ h₂
    cases h
    rcases roundQuotient_mem w.value w.den with hq | hq <;> rw [hq] <;> assumption
  · rename_i h₁ _
    cases h
    exact h₁
  · rename_i _ h₂
    cases h
    exact h₂
  · cases h

/-- A search that comes to a grid with a number in the window finds one. -/
theorem contains_search {w : Window} {steps k : Nat} {p : Int} (hk : k < steps)
    (h : ((w.inUnits (p - k)).contains ((w.inUnits (p - k)).value / (w.inUnits (p - k)).den)) = true) :
    (w.inUnits (search w steps p).2).contains (search w steps p).1 = true := by
  induction steps generalizing p k with
  | zero => omega
  | succ steps ih =>
    unfold search
    -- a coarser grid may have a number in the window before the one that is known to have it
    cases hn : (w.inUnits p).nearest? with
    | some n => exact contains_nearest? hn
    | none =>
      cases k with
      | zero =>
        simp only [Int.ofNat_zero, Int.sub_zero] at h
        unfold Window.nearest? at hn
        simp only [h] at hn
        split at hn <;> cases hn
        contradiction
      | succ k =>
        refine ih (k := k) (by omega) ?_
        rwa [show p - 1 - (k : Int) = p - ((k + 1 : Nat) : Int) by omega]

theorem cast_shift (a : Nat) (u : Int) :
    ((a <<< (u - 2).toNat : Nat) : ℚ) / (1 <<< (2 - u).toNat : Nat) = a / 4 * 2 ^ u := by
  have hpow : (2 : ℚ) ^ u = 4 * (2 ^ (u - 2).toNat / 2 ^ (2 - u).toNat) := by
    have := zpow_eq_div_toNat (by norm_num : (2 : ℚ) ≠ 0) (u - 2)
    rw [show -(u - 2) = 2 - u by omega, zpow_sub₀ two_ne_zero] at this
    rw [← this]
    norm_num
    field_simp
  rw [Nat.shiftLeft_eq, Nat.shiftLeft_eq, hpow]
  push_cast
  ring

theorem den_of_pos (m : Nat) (u : Int) : 0 < (Window.of m u).den := by
  show 0 < 1 <<< (2 - u).toNat
  rw [Nat.shiftLeft_eq]
  positivity

/-- A decimal lies in the window of a double exactly if it rounds to the double. -/
theorem contains_of {m : Nat} (hm : 0 < m) (u p : Int) (n : Nat) :
    ((Window.of m u).inUnits p).contains n = true ↔ Binary64.RoundsTo m u (n * 10 ^ p) := by
  have hlow : ((Window.of m u).low : ℚ) / (Window.of m u).den = (m - Binary64.reach m u) * 2 ^ u := by
    refine (cast_shift _ u).trans ?_
    unfold Binary64.reach
    split
    · rw [Nat.cast_sub (by omega)]
      push_cast
      ring
    · rw [Nat.cast_sub (by omega)]
      push_cast
      ring
  have hhigh : ((Window.of m u).high : ℚ) / (Window.of m u).den = (m + 1 / 2) * 2 ^ u := by
    refine (cast_shift _ u).trans ?_
    push_cast
    ring
  have hclosed : (Window.of m u).closed = true ↔ m % 2 = 0 := decide_eq_true_iff
  rw [contains_inUnits (den_of_pos m u), hlow, hhigh, hclosed]
  exact ⟨fun h => ⟨h.1, h.2.1, h.2.2⟩, fun h => ⟨h.low, h.high, h.inner⟩⟩

/-- On a grid of at most a quarter of the unit, the integer part of a double rounds to it. -/
theorem contains_floor {m : Nat} {u p : Int} (hm : 0 < m) (hp : (10 : ℚ) ^ p ≤ 2 ^ (u - 2)) :
    ((Window.of m u).inUnits p).contains
      (((Window.of m u).inUnits p).value / ((Window.of m u).inUnits p).den) = true := by
  rw [contains_of hm]
  generalize hw : (Window.of m u).inUnits p = w
  have hd : 0 < w.den := by
    have := den_of_pos m u
    subst hw
    exact Nat.mul_pos this (Nat.pow_pos (by decide))
  -- the value of the window, in steps of the grid, is the double
  have hvalue : (w.value : ℚ) / w.den * 10 ^ p = m * 2 ^ u := by
    have hshift := cast_shift (4 * m) u
    have hden : ((1 <<< (2 - u).toNat : Nat) : ℚ) ≠ 0 := by
      exact_mod_cast (den_of_pos m u).ne'
    rw [zpow_eq_div_toNat (by norm_num : (10 : ℚ) ≠ 0) p, ← hw]
    simp only [Window.inUnits, Window.of, Numeral.tenTo, Nat.pow_eq]
    push_cast at hshift ⊢
    rw [mul_div_mul_comm, hshift]
    field_simp
  have hdq : (0 : ℚ) < w.den := by exact_mod_cast hd
  have hten : (0 : ℚ) < 10 ^ p := by positivity
  have hle : ((w.value / w.den : Nat) : ℚ) ≤ w.value / w.den := by
    rw [le_div_iff₀ hdq]
    exact_mod_cast Nat.div_mul_le_self _ _
  have hlt : (w.value : ℚ) / w.den < (w.value / w.den : Nat) + 1 := by
    rw [div_lt_iff₀ hdq]
    rw [mul_comm]
    exact_mod_cast Nat.lt_mul_div_succ _ hd
  have hfloor := mul_le_mul_of_nonneg_right hle hten.le
  have hnext := mul_lt_mul_of_pos_right hlt hten
  rw [hvalue] at hfloor hnext
  have hunit : (2 : ℚ) ^ (u - 2) = 2 ^ u / 4 := by
    rw [zpow_sub₀ two_ne_zero]
    norm_num
  have hpow : (0 : ℚ) < 2 ^ u := by positivity
  have hreach := mul_le_mul_of_nonneg_right (Binary64.le_reach m u) hpow.le
  have hlow : (m - Binary64.reach m u) * 2 ^ u < (w.value / w.den : Nat) * 10 ^ p := by linarith
  have hhigh : ((w.value / w.den : Nat) : ℚ) * 10 ^ p < (m + 1 / 2) * 2 ^ u := by linarith
  exact ⟨hlow.le, hhigh.le, .inr ⟨hlow, hhigh⟩⟩

/-- The last grid of the search is fine enough for every double. -/
theorem ten_zpow_last_le {m : Nat} {u : Int} (hm : m < 2 * Binary64.exponentWeight) (hlow : -1074 ≤ u)
    (hhigh : u ≤ 971) : (10 : ℚ) ^ (ceiling (m.log2 + 1 + u) - 19) ≤ 2 ^ (u - 2) := by
  have hlog : m.log2 ≤ 52 := by
    by_cases hz : m = 0
    · simp [hz]
    · exact Nat.le_of_lt_succ ((Nat.log2_lt hz).2 (Nat.lt_of_lt_of_eq hm (by decide)))
  -- a significand has at most 53 bits, so nineteen places from the first digit on reach below the unit
  unfold ceiling
  by_cases hu : 2 ≤ u
  · exact ten_zpow_le_of_nonneg (by omega) (by omega)
  · exact ten_zpow_le_of_nonpos (by omega) (by omega)

end Shortest

/-- The shortest decimal of a double rounds to it. -/
theorem Binary64.roundsTo_shortest {x : Binary64} (hx : x.isFinite = true) (hz : x.magnitude ≠ 0) :
    RoundsTo x.significand x.unit (x.shortest.digits * 10 ^ x.shortest.exponent) := by
  have hm := significand_pos hz
  have hzero : x.isZero = false := by simpa [isZero] using hz
  have hfine := Shortest.ten_zpow_last_le x.significand_lt x.unit_ge (unit_le hx)
  have hfound := Shortest.contains_search (w := .of x.significand x.unit) (k := 19)
    (show 19 < Shortest.steps by decide) (Shortest.contains_floor hm hfine)
  rw [Shortest.contains_of hm] at hfound
  unfold shortest
  simpa [hzero] using hfound

/-- Numbers that round to a double are neither small nor large as powers of ten go. -/
theorem Binary64.RoundsTo.ten_bounds {x : Binary64} {v : ℚ} (hx : x.isFinite = true)
    (hz : x.magnitude ≠ 0) (h : RoundsTo x.significand x.unit v) :
    (10 : ℚ) ^ (-401 : Int) ≤ v ∧ v < 10 ^ (401 : Int) := by
  have hunit := x.unit_ge
  have hunit' := unit_le hx
  constructor
  · calc (10 : ℚ) ^ (-401 : Int) ≤ 2 ^ (-1075 : Int) := ten_zpow_le_of_nonpos (by norm_num) (by norm_num)
      _ ≤ 2 ^ (x.unit - 1) := zpow_le_zpow_right₀ (by norm_num) (by omega)
      _ ≤ v := h.ge (significand_pos hz)
  · calc v < 2 ^ (x.unit + 53) := h.lt x.significand_lt
      _ ≤ 2 ^ (1024 : Int) := zpow_le_zpow_right₀ (by norm_num) (by omega)
      _ ≤ 10 ^ (401 : Int) := by
        have hinv : (10 : ℚ) ^ (-401 : Int) ≤ 2 ^ (-1024 : Int) :=
          ten_zpow_le_of_nonpos (by norm_num) (by norm_num)
        rw [zpow_neg, zpow_neg] at hinv
        exact (inv_le_inv₀ (by positivity) (by positivity)).1 hinv

/-- The bits of the digits bound a decimal by a power of ten. -/
theorem Numeral.Decimal.lt_ten_zpow (d : Decimal) :
    (d.digits : ℚ) * 10 ^ d.exponent < 10 ^ (d.exponent + (d.digits.log2 + 1 : Nat)) := by
  have hten : (0 : ℚ) < 10 ^ d.exponent := by positivity
  have hdigits : (d.digits : ℚ) < 10 ^ ((d.digits.log2 + 1 : Nat) : Int) := by
    rw [zpow_natCast]
    refine lt_of_lt_of_le (b := 2 ^ (d.digits.log2 + 1)) ?_ ?_
    · exact_mod_cast Nat.lt_log2_self
    · exact pow_le_pow_left₀ (by norm_num) (by norm_num) _
  rw [add_comm, zpow_add₀ (by norm_num)]
  exact mul_lt_mul_of_pos_right hdigits hten

/-- A decimal that rounds to a double is read as it: no power of ten is too far out. -/
theorem Numeral.Decimal.toBinary64?_of_roundsTo {x : Binary64} {d : Decimal} (hx : x.isFinite = true)
    (hz : x.magnitude ≠ 0) (hsign : d.negative = x.isNegative)
    (h : Binary64.RoundsTo x.significand x.unit (d.digits * 10 ^ d.exponent)) :
    d.toBinary64? = some x := by
  obtain ⟨hge, hlt⟩ := h.ten_bounds hx hz
  have hround {num den : Nat} (hd : 0 < den) (hv : (num : ℚ) / den = d.digits * 10 ^ d.exponent) :
      Binary64.ofRatio? d.negative num den = some x := by
    unfold Binary64.ofRatio?
    rw [Binary64.roundMagnitude?_of_roundsTo hx hz hd (by rwa [hv]), Option.map_some, hsign,
      Binary64.ofMagnitude_magnitude]
  have hpos : d.digits ≠ 0 := by
    intro hzero
    rw [hzero, Nat.cast_zero, zero_mul] at hge
    exact absurd hge (not_le.2 (by positivity))
  unfold toBinary64?
  rw [if_neg hpos, if_neg, if_neg]
  · split
    · rename_i he
      refine hround Nat.one_pos ?_
      rw [Nat.cast_mul, tenTo, Nat.pow_eq, Nat.cast_pow, ← zpow_natCast, Int.toNat_of_nonneg he]
      simp
    · rename_i he
      refine hround (Nat.pow_pos (by decide)) ?_
      rw [tenTo, Nat.pow_eq, Nat.cast_pow, ← zpow_natCast, Int.toNat_of_nonneg (by omega), zpow_neg,
        div_inv_eq_mul]
      simp
  -- a decimal that is taken for zero lies below all that rounds to a double, and one that is taken
  -- for too large lies above
  · intro hsmall
    have : (d.digits : ℚ) * 10 ^ d.exponent < 10 ^ (-401 : Int) :=
      d.lt_ten_zpow.trans_le (zpow_le_zpow_right₀ (by norm_num) (by unfold widest at hsmall; omega))
    linarith
  · intro hlarge
    have hone : (1 : ℚ) ≤ d.digits := by exact_mod_cast Nat.one_le_iff_ne_zero.2 hpos
    have : (10 : ℚ) ^ (401 : Int) ≤ d.digits * 10 ^ d.exponent :=
      calc (10 : ℚ) ^ (401 : Int) ≤ 10 ^ d.exponent :=
            zpow_le_zpow_right₀ (by norm_num) (by unfold widest at hlarge; omega)
        _ ≤ d.digits * 10 ^ d.exponent := le_mul_of_one_le_left (by positivity) hone
    linarith

end ScalarLang
