import Mathlib.Algebra.Order.Field.Power
import Mathlib.Data.Rat.Cast.Order
import Mathlib.Tactic.FieldSimp
import Mathlib.Tactic.Linarith
import Mathlib.Tactic.Positivity
import Mathlib.Tactic.Ring
import ScalarLang.Number.Power
import ScalarLang.Proofs.Doubles
/-!
# Rounding a quotient to a double

`Binary64.RoundsTo` holds of the rational numbers that are nearest to a double, and
`roundMagnitude?_of_roundsTo` shows that rounding takes all of them to it. It follows that powers of two
are split off without loss, and that a fused product and sum is rounded once.
-/
namespace ScalarLang.Binary64

/-! ## Integers and binades -/

theorem scale_pos (n : Nat) (e : Int) {d : Nat} (hd : 0 < d) : 0 < (scale n e d).2 := by
  unfold scale
  split
  · exact hd
  · rw [Nat.shiftLeft_eq]
    positivity

theorem cast_scale (n : Nat) (e : Int) (d : Nat) :
    ((scale n e d).1 : ℚ) / (scale n e d).2 = n / d * 2 ^ e := by
  unfold scale
  split
  · rename_i he
    have hpow : (2 : ℚ) ^ e = 2 ^ e.toNat := by
      rw [← zpow_natCast, Int.toNat_of_nonneg he]
    rw [Nat.shiftLeft_eq, hpow]
    push_cast
    ring
  · rename_i he
    have hpow : (2 : ℚ) ^ e = (2 ^ (-e).toNat)⁻¹ := by
      rw [← zpow_natCast, Int.toNat_of_nonneg (by omega), zpow_neg, inv_inv]
    rw [Nat.shiftLeft_eq, hpow]
    push_cast
    rw [div_mul_eq_div_div]
    rfl

/-- A quotient within a half of `q` is rounded to it, at the half itself only if `q` is even. -/
theorem roundQuotient_of_le {n d q : Nat} (hd : 0 < d) (hlo : 2 * q * d ≤ 2 * n + d)
    (hhi : 2 * n ≤ 2 * q * d + d)
    (htie : q % 2 = 0 ∨ 2 * q * d < 2 * n + d ∧ 2 * n < 2 * q * d + d) : roundQuotient n d = q := by
  have hdiv := Nat.div_add_mod n d
  have hmod := Nat.mod_lt n hd
  unfold roundQuotient
  generalize n / d = k at *
  generalize n % d = r at *
  subst hdiv
  have hk : k ≤ q := by
    by_contra hlt
    nlinarith
  have hq : q ≤ k + 1 := by
    by_contra hlt
    nlinarith
  -- `q` is the integer part or the next integer, and the remainder tells which
  rcases Nat.lt_or_ge k q with hlt | hge
  · obtain rfl : q = k + 1 := by omega
    have hr : d ≤ 2 * r := by nlinarith
    have hr' : (k + 1) % 2 = 0 ∨ d < 2 * r := by
      rcases htie with h | ⟨h, -⟩
      · exact .inl h
      · exact .inr (by nlinarith)
    simp only
    rw [if_neg (by omega)]
    split <;> omega
  · obtain rfl : q = k := by omega
    have hr : 2 * r ≤ d := by nlinarith
    have hr' : q % 2 = 0 ∨ 2 * r < d := by
      rcases htie with h | ⟨-, h⟩
      · exact .inl h
      · exact .inr (by nlinarith)
    simp only
    split
    · rfl
    · rw [if_neg (by omega)]
      omega

/-- The nearest integer is found, and a half goes to an even one. -/
theorem roundQuotient_eq {n d q : Nat} (hd : 0 < d) (hlo : (q : ℚ) - 1 / 2 ≤ n / d)
    (hhi : (n : ℚ) / d ≤ q + 1 / 2)
    (htie : q % 2 = 0 ∨ (q : ℚ) - 1 / 2 < n / d ∧ (n : ℚ) / d < q + 1 / 2) :
    roundQuotient n d = q := by
  have hdq : (0 : ℚ) < d := by exact_mod_cast hd
  rw [le_div_iff₀ hdq] at hlo
  rw [div_le_iff₀ hdq] at hhi
  have hlo' : (2 * q * d : ℚ) ≤ 2 * n + d := by linarith
  have hhi' : (2 * n : ℚ) ≤ 2 * q * d + d := by linarith
  refine roundQuotient_of_le hd (by exact_mod_cast hlo') (by exact_mod_cast hhi') ?_
  rcases htie with h | ⟨h₁, h₂⟩
  · exact .inl h
  · rw [lt_div_iff₀ hdq] at h₁
    rw [div_lt_iff₀ hdq] at h₂
    have h₁' : (2 * q * d : ℚ) < 2 * n + d := by linarith
    have h₂' : (2 * n : ℚ) < 2 * q * d + d := by linarith
    exact .inr ⟨by exact_mod_cast h₁', by exact_mod_cast h₂'⟩

theorem floorLog2_bounds {num den : Nat} (hn : 0 < num) (hd : 0 < den) :
    (2 : ℚ) ^ floorLog2 num den ≤ num / den ∧ (num : ℚ) / den < 2 ^ (floorLog2 num den + 1) := by
  have hdq : (0 : ℚ) < den := by exact_mod_cast hd
  have hnum : (2 : ℚ) ^ num.log2 ≤ num ∧ (num : ℚ) < 2 ^ (num.log2 + 1) :=
    ⟨by exact_mod_cast Nat.log2_self_le hn.ne', by exact_mod_cast Nat.lt_log2_self⟩
  have hden : (2 : ℚ) ^ den.log2 ≤ den ∧ (den : ℚ) < 2 ^ (den.log2 + 1) :=
    ⟨by exact_mod_cast Nat.log2_self_le hd.ne', by exact_mod_cast Nat.lt_log2_self⟩
  -- the logarithms of the parts give the logarithm of the quotient up to one
  have hlow : (2 : ℚ) ^ ((num.log2 : Int) - den.log2 - 1) ≤ num / den := by
    rw [le_div_iff₀ hdq, sub_sub, zpow_sub₀ two_ne_zero, div_mul_eq_mul_div,
      div_le_iff₀ (by positivity)]
    exact_mod_cast mul_le_mul hnum.1 hden.2.le hdq.le (by positivity)
  have hhigh : (num : ℚ) / den < 2 ^ ((num.log2 : Int) - den.log2 + 1) := by
    rw [div_lt_iff₀ hdq, sub_add_eq_add_sub, zpow_sub₀ two_ne_zero, div_mul_eq_mul_div,
      lt_div_iff₀ (by positivity)]
    exact_mod_cast mul_lt_mul hnum.2 hden.1 (by positivity) (by positivity)
  unfold floorLog2
  simp only
  generalize (num.log2 : Int) - den.log2 = e at hlow hhigh
  have hcmp : (scale den e num).1 ≤ (scale den e num).2 ↔ (2 : ℚ) ^ e ≤ num / den := by
    have hpos := scale_pos den e hn
    have hcast := cast_scale den e num
    have hposq : (0 : ℚ) < (scale den e num).2 := by exact_mod_cast hpos
    have hnq : (0 : ℚ) < num := by exact_mod_cast hn
    rw [← Nat.cast_le (α := ℚ), ← div_le_one hposq, hcast, le_div_iff₀ hdq, div_mul_eq_mul_div,
      div_le_one hnq, mul_comm]
  split
  · rename_i h
    exact ⟨hcmp.1 h, hhigh⟩
  · rename_i h
    rw [hcmp, not_le] at h
    exact ⟨hlow, by rwa [sub_add_cancel]⟩

theorem floorLog2_eq {num den : Nat} {e : Int} (hn : 0 < num) (hd : 0 < den)
    (hlo : (2 : ℚ) ^ e ≤ num / den) (hhi : (num : ℚ) / den < 2 ^ (e + 1)) :
    floorLog2 num den = e := by
  obtain ⟨h₁, h₂⟩ := floorLog2_bounds hn hd
  have hle := (zpow_lt_zpow_iff_right₀ (by norm_num : (1 : ℚ) < 2)).1 (hlo.trans_lt h₂)
  have hge := (zpow_lt_zpow_iff_right₀ (by norm_num : (1 : ℚ) < 2)).1 (h₁.trans_lt hhi)
  omega

/-! ## Significands and units -/

theorem unit_ge (x : Binary64) : -1074 ≤ x.unit := by
  unfold unit
  omega

theorem unit_le {x : Binary64} (hx : x.isFinite = true) : x.unit ≤ 971 := by
  have hlt : x.magnitude < infinity := by simpa [isFinite] using hx
  have hdiv : x.magnitude / exponentWeight < 2047 :=
    Nat.div_lt_of_lt_mul (Nat.lt_of_lt_of_eq hlt (by decide))
  unfold unit
  omega

theorem significand_lt (x : Binary64) : x.significand < 2 * exponentWeight := by
  unfold significand
  have := Nat.mod_lt x.magnitude (show 0 < exponentWeight by decide)
  split <;> omega

/-- Above the smallest unit a significand has its leading bit. -/
theorem le_significand {x : Binary64} (h : -1074 < x.unit) : exponentWeight ≤ x.significand := by
  unfold significand
  split
  · rename_i hlt
    have hdiv : x.magnitude / exponentWeight = 0 := Nat.div_eq_of_lt hlt
    simp [unit, hdiv] at h
  · omega

theorem magnitude_eq (x : Binary64) :
    x.magnitude = (x.unit + 1074).toNat * exponentWeight + x.significand := by
  have hdiv := Nat.div_add_mod x.magnitude exponentWeight
  unfold significand unit
  split
  · rename_i hlt
    simp [Nat.div_eq_of_lt hlt]
  · rename_i hge
    have hpos : 0 < x.magnitude / exponentWeight := Nat.div_pos (by omega) (by decide)
    have hunit : ((max 1 (x.magnitude / exponentWeight) : Nat) - 1075 + 1074 : Int).toNat + 1 =
        x.magnitude / exponentWeight := by
      omega
    generalize ((max 1 (x.magnitude / exponentWeight) : Nat) - 1075 + 1074 : Int).toNat = k at hunit
    rw [← hunit] at hdiv
    rw [← Nat.add_assoc, ← Nat.succ_mul, Nat.mul_comm]
    exact hdiv.symm

theorem significand_pos {x : Binary64} (h : x.magnitude ≠ 0) : 0 < x.significand := by
  unfold significand
  split
  · omega
  · have : 0 < exponentWeight := by decide
    omega

/-! ## Numbers that round to a double -/

/-- How far below the significand `m` numbers still round to it, in units: half the way to the next
double, which is nearer below a power of two. -/
def reach (m : Nat) (u : Int) : ℚ := if m = exponentWeight ∧ -1074 < u then 1 / 4 else 1 / 2

theorem reach_le (m : Nat) (u : Int) : reach m u ≤ 1 / 2 := by
  unfold reach
  split <;> norm_num

theorem le_reach (m : Nat) (u : Int) : 1 / 4 ≤ reach m u := by
  unfold reach
  split <;> norm_num

/-- The numbers that are nearest to `m * 2 ^ u`, the ends included if a tie goes to `m`. -/
structure RoundsTo (m : Nat) (u : Int) (v : ℚ) : Prop where
  low : (m - reach m u) * 2 ^ u ≤ v
  high : v ≤ (m + 1 / 2) * 2 ^ u
  inner : m % 2 = 0 ∨ (m - reach m u) * 2 ^ u < v ∧ v < (m + 1 / 2) * 2 ^ u

theorem cast_exponentWeight : (exponentWeight : ℚ) = 2 ^ (52 : Int) := by
  norm_num [exponentWeight]

theorem RoundsTo.ge {m : Nat} {u : Int} {v : ℚ} (h : RoundsTo m u v) (hm : 0 < m) :
    (2 : ℚ) ^ (u - 1) ≤ v := by
  have hone : (1 : ℚ) ≤ m := by exact_mod_cast hm
  have hreach := reach_le m u
  rw [zpow_sub_one₀ two_ne_zero, mul_comm]
  refine le_trans (mul_le_mul_of_nonneg_right ?_ (by positivity)) h.low
  linarith

theorem RoundsTo.lt {m : Nat} {u : Int} {v : ℚ} (h : RoundsTo m u v) (hm : m < 2 * exponentWeight) :
    v < 2 ^ (u + 53) := by
  have hmax : (m : ℚ) + 1 ≤ 2 * exponentWeight := by exact_mod_cast hm
  rw [zpow_add₀ two_ne_zero, mul_comm, show (53 : Int) = 52 + 1 from rfl, zpow_add_one₀ two_ne_zero,
    ← cast_exponentWeight]
  refine lt_of_le_of_lt h.high (mul_lt_mul_of_pos_right ?_ (by positivity))
  linarith

/-- If a number is rounded at the unit `u`, it is rounded to the significand that it is nearest to. -/
theorem roundMagnitude?_of_unit {num den m : Nat} {u : Int} (hn : 0 < num) (hd : 0 < den)
    (hunit : max (floorLog2 num den - 52) (-1074) = u) (hw : RoundsTo m u (num / den)) :
    roundMagnitude? num den =
      if (u + 1074).toNat * exponentWeight + m < infinity then
        some ((u + 1074).toNat * exponentWeight + m)
      else none := by
  have hround : roundQuotient (scale num (-u) den).1 (scale num (-u) den).2 = m := by
    have hpow : (0 : ℚ) < 2 ^ u := by positivity
    have hreach := reach_le m u
    have hcast : ((scale num (-u) den).1 : ℚ) / (scale num (-u) den).2 = num / den / 2 ^ u := by
      rw [cast_scale, zpow_neg]
      rfl
    apply roundQuotient_eq (scale_pos num (-u) hd)
    · rw [hcast, le_div_iff₀ hpow]
      refine le_trans ?_ hw.low
      gcongr
    · rw [hcast, div_le_iff₀ hpow]
      exact hw.high
    · refine hw.inner.imp_right fun h => ?_
      rw [hcast, lt_div_iff₀ hpow, div_lt_iff₀ hpow]
      refine ⟨lt_of_le_of_lt ?_ h.1, h.2⟩
      gcongr
  unfold roundMagnitude?
  rw [if_neg hn.ne']
  simp only [hunit, hround]

section Carry

variable {m : Nat} {u : Int} {v : ℚ}

theorem two_zpow_unit (u k : Int) : (2 : ℚ) ^ (u + k) = 2 ^ k * 2 ^ u := by
  rw [zpow_add₀ two_ne_zero, mul_comm]

/-- Only the least significand of a binade is nearest to a number below the binade. -/
theorem RoundsTo.eq_exponentWeight (h : RoundsTo m u v) (hlead : exponentWeight ≤ m)
    (hsmall : v < 2 ^ (u + 52)) : m = exponentWeight := by
  have hpow : (0 : ℚ) < 2 ^ u := by positivity
  have hreach := reach_le m u
  rw [two_zpow_unit, ← cast_exponentWeight] at hsmall
  by_contra hother
  have hmore : (exponentWeight : ℚ) + 1 ≤ m := by
    exact_mod_cast (show exponentWeight + 1 ≤ m by omega)
  have := lt_of_mul_lt_mul_right (h.low.trans_lt hsmall) hpow.le
  linarith

/-- Below a power of two a number is rounded at half the unit, and carries into the next binade. -/
theorem RoundsTo.carry (h : RoundsTo exponentWeight u v) (hu : -1074 < u) (hsmall : v < 2 ^ (u + 52)) :
    RoundsTo (2 * exponentWeight) (u - 1) v ∧ 2 ^ (u + 51) ≤ v := by
  have hquarter : reach exponentWeight u = 1 / 4 := if_pos ⟨rfl, hu⟩
  have hhalf : reach (2 * exponentWeight) (u - 1) = 1 / 2 := if_neg (by simp [exponentWeight])
  have hpow : (0 : ℚ) < 2 ^ u := by positivity
  have hpow' : (2 : ℚ) ^ (u - 1) = 2 ^ u / 2 := zpow_sub_one₀ two_ne_zero u
  have hlow := h.low
  rw [hquarter] at hlow
  rw [two_zpow_unit, ← cast_exponentWeight] at hsmall
  refine ⟨⟨?_, ?_, .inl (by simp)⟩, ?_⟩
  · rw [hhalf, hpow']
    push_cast
    linarith
  · rw [hpow']
    push_cast
    linarith
  · rw [two_zpow_unit, show (51 : Int) = 52 - 1 from rfl, zpow_sub_one₀ two_ne_zero,
      ← cast_exponentWeight]
    have hone : (1 : ℚ) ≤ exponentWeight := by norm_num [exponentWeight]
    refine le_trans (mul_le_mul_of_nonneg_right ?_ hpow.le) hlow
    linarith

end Carry

/-- Every number that is nearest to a double is rounded to it. -/
theorem roundMagnitude?_of_roundsTo {x : Binary64} {num den : Nat} (hx : x.isFinite = true)
    (hz : x.magnitude ≠ 0) (hd : 0 < den) (h : RoundsTo x.significand x.unit (num / den)) :
    roundMagnitude? num den = some x.magnitude := by
  have hfin : x.magnitude < infinity := by simpa [isFinite] using hx
  have hu := x.unit_ge
  have hm := x.significand_lt
  have hpos := significand_pos hz
  have hnormal := @le_significand x
  rw [magnitude_eq] at hfin ⊢
  generalize x.significand = m at *
  generalize x.unit = u at *
  have hn : 0 < num := by
    have hv : (0 : ℚ) < num / den := lt_of_lt_of_le (by positivity) (h.ge hpos)
    by_contra hzero
    simp [Nat.le_zero.1 (Nat.not_lt.1 hzero)] at hv
  obtain ⟨hlog, hlog'⟩ := floorLog2_bounds hn hd
  have hle := (zpow_lt_zpow_iff_right₀ (by norm_num : (1 : ℚ) < 2)).1 (hlog.trans_lt (h.lt hm))
  -- only below its binade is a number rounded at another unit than that of the double
  by_cases hbig : (2 : ℚ) ^ (u + 52) ≤ num / den ∨ u = -1074
  · have hunit : max (floorLog2 num den - 52) (-1074) = u := by
      rcases hbig with hbig | rfl
      · have := (zpow_lt_zpow_iff_right₀ (by norm_num : (1 : ℚ) < 2)).1 (hbig.trans_lt hlog')
        omega
      · omega
    rw [roundMagnitude?_of_unit hn hd hunit h, if_pos hfin]
  · obtain ⟨hsmall, hne⟩ := not_or.1 hbig
    rw [not_le] at hsmall
    obtain rfl := h.eq_exponentWeight (hnormal (by omega)) hsmall
    obtain ⟨hcarry, hlow⟩ := h.carry (by omega) hsmall
    have hfloor : floorLog2 num den = u + 51 := by
      refine floorLog2_eq hn hd hlow ?_
      rwa [add_assoc]
    have hmag : (u - 1 + 1074).toNat * exponentWeight + 2 * exponentWeight =
        (u + 1074).toNat * exponentWeight + exponentWeight := by
      rw [show (u + 1074).toNat = (u - 1 + 1074).toNat + 1 by omega]
      ring
    rw [roundMagnitude?_of_unit hn hd (by omega) hcarry, hmag, if_pos hfin]

/-! ## Exact operations -/

/-- The number that a finite double stands for. -/
def value (x : Binary64) : ℚ := (if x.isNegative then -1 else 1) * x.significand * 2 ^ x.unit

theorem roundsTo_self (m : Nat) (u : Int) : RoundsTo m u (m * 2 ^ u) := by
  have hpow : (0 : ℚ) < 2 ^ u := by positivity
  have hreach := le_reach m u
  have hlow : (m - reach m u) * 2 ^ u < m * 2 ^ u := by
    gcongr
    linarith
  have hhigh : (m : ℚ) * 2 ^ u < (m + 1 / 2) * 2 ^ u := by
    gcongr
    linarith
  exact ⟨hlow.le, hhigh.le, .inr ⟨hlow, hhigh⟩⟩

theorem ofScaled_of_roundsTo {x : Binary64} {n : Nat} {e : Int} (hx : x.isFinite = true)
    (hz : x.magnitude ≠ 0) (h : RoundsTo x.significand x.unit (n * 2 ^ e)) :
    ofScaled x.isNegative n e = x := by
  have hd := scale_pos n e (Nat.one_pos)
  have hv := cast_scale n e 1
  rw [Nat.cast_one, div_one] at hv
  rw [← hv] at h
  unfold ofScaled ofRatio?
  simp only
  rw [roundMagnitude?_of_roundsTo hx hz hd h, Option.map_some, Option.getD_some, ofMagnitude_magnitude]

/-- The fields of an encoding with the leading bit of its significand. -/
theorem fields_ofMagnitude {k m : Nat} (negative : Bool) (hlow : exponentWeight ≤ m)
    (hhigh : m < 2 * exponentWeight) (hk : k < 2046) :
    (ofMagnitude negative (k * exponentWeight + m)).significand = m ∧
      (ofMagnitude negative (k * exponentWeight + m)).unit = k - 1074 := by
  have hmag : (ofMagnitude negative (k * exponentWeight + m)).magnitude = k * exponentWeight + m := by
    apply magnitude_ofMagnitude
    simp only [exponentWeight, signWeight] at *
    omega
  have hdiv : (k * exponentWeight + m) / exponentWeight = k + 1 := by
    simp only [exponentWeight] at *
    omega
  have hmod : (k * exponentWeight + m) % exponentWeight = m - exponentWeight := by
    simp only [exponentWeight] at *
    omega
  unfold significand unit
  rw [hmag, hdiv, hmod, if_neg (by omega)]
  omega

theorem cast_shiftLeft (m k : Nat) (e : Int) : ((m <<< k : Nat) : ℚ) * 2 ^ e = m * 2 ^ (k + e) := by
  rw [Nat.shiftLeft_eq, zpow_add₀ (by norm_num), zpow_natCast]
  push_cast
  rw [mul_assoc]

/-- Nothing is lost when the power of two is kept apart, and what is left lies between a half and one. -/
theorem scaleB_frExp {x : Binary64} (hx : x.isFinite = true) (hz : x.magnitude ≠ 0) :
    x.frExp.1.scaleB x.frExp.2 = x ∧ exponentWeight ≤ x.frExp.1.significand ∧ x.frExp.1.unit = -53 := by
  have hpos := significand_pos hz
  have hlead : x.significand.log2 ≤ 52 := by
    have hlt := x.significand_lt
    have := (Nat.log2_lt hpos.ne').2 (show x.significand < 2 ^ 53 from hlt)
    omega
  have hlow : exponentWeight ≤ x.significand <<< (52 - x.significand.log2) := by
    rw [Nat.shiftLeft_eq]
    calc exponentWeight = 2 ^ x.significand.log2 * 2 ^ (52 - x.significand.log2) := by
          rw [← pow_add, Nat.add_sub_cancel' hlead]
          rfl
      _ ≤ _ := Nat.mul_le_mul_right _ (Nat.log2_self_le hpos.ne')
  have hhigh : x.significand <<< (52 - x.significand.log2) < 2 * exponentWeight := by
    rw [Nat.shiftLeft_eq]
    calc _ < 2 ^ (x.significand.log2 + 1) * 2 ^ (52 - x.significand.log2) :=
          Nat.mul_lt_mul_of_pos_right Nat.lt_log2_self (by positivity)
      _ = 2 * exponentWeight := by
          rw [← pow_add, show x.significand.log2 + 1 + (52 - x.significand.log2) = 53 by omega]
          rfl
  obtain ⟨hsig, hunit⟩ := fields_ofMagnitude x.isNegative hlow hhigh (show 1021 < 2046 by decide)
  have hmag : 1021 * exponentWeight + x.significand <<< (52 - x.significand.log2) < infinity := by
    simp only [exponentWeight, infinity] at *
    omega
  refine ⟨?_, by rw [frExp, hsig]; exact hlow, by rw [frExp, hunit]; rfl⟩
  have hvalue : (x.significand <<< (52 - x.significand.log2) : Nat) *
      (2 : ℚ) ^ (-53 + (x.unit + x.significand.log2 + 1)) = x.significand * 2 ^ x.unit := by
    rw [cast_shiftLeft, Nat.cast_sub hlead]
    congr 2
    push_cast
    ring
  unfold scaleB frExp
  rw [if_pos (isFinite_ofMagnitude _ hmag), isNegative_ofMagnitude _ (hmag.trans (by decide)), hsig, hunit]
  refine ofScaled_of_roundsTo hx hz ?_
  rw [show ((1021 : Nat) - 1074 : Int) = -53 from rfl, hvalue]
  exact roundsTo_self _ _

/-- Units below its own divide a number. -/
theorem cast_inUnits {x : Binary64} {e : Int} (he : e ≤ x.unit) : (x.inUnits e : ℚ) * 2 ^ e = x.value := by
  have hn : ((x.significand <<< (x.unit - e).toNat : Nat) : ℚ) * 2 ^ e = x.significand * 2 ^ x.unit := by
    rw [cast_shiftLeft, Int.toNat_of_nonneg (by omega), sub_add_cancel]
  rw [← Int.cast_natCast] at hn
  unfold inUnits value
  cases x.isNegative with
  | false => simp only [Bool.false_eq_true, if_false, one_mul, hn]
  | true => simp only [if_true, Int.cast_neg, neg_mul, one_mul, hn]

/-- The product and the sum are rounded together: whatever double is nearest to the exact number is the
result. -/
theorem mulAdd_of_roundsTo {x y z w : Binary64} (hx : x.isFinite = true) (hy : y.isFinite = true)
    (hz : z.isFinite = true) (hw : w.isFinite = true) (hne : w.magnitude ≠ 0)
    (hsign : w.isNegative = decide (x.value * y.value + z.value < 0))
    (h : RoundsTo w.significand w.unit |x.value * y.value + z.value|) : mulAdd x y z = w := by
  have hexact : ((x.inUnits (min (x.unit + y.unit) z.unit - y.unit) * y.inUnits y.unit +
      z.inUnits (min (x.unit + y.unit) z.unit) : Int) : ℚ) * 2 ^ min (x.unit + y.unit) z.unit =
      x.value * y.value + z.value := by
    have hprod := cast_inUnits (x := x) (e := min (x.unit + y.unit) z.unit - y.unit) (by omega)
    rw [← hprod, ← cast_inUnits (le_refl y.unit), ← cast_inUnits (x := z) (min_le_right (x.unit + y.unit) _)]
    push_cast
    have hpow : (2 : ℚ) ^ min (x.unit + y.unit) z.unit =
        2 ^ (min (x.unit + y.unit) z.unit - y.unit) * 2 ^ y.unit := by
      rw [← zpow_add₀ (by norm_num), sub_add_cancel]
    rw [add_mul]
    nth_rewrite 1 [hpow]
    ring
  unfold mulAdd
  simp only
  generalize x.inUnits (min (x.unit + y.unit) z.unit - y.unit) * y.inUnits y.unit +
    z.inUnits (min (x.unit + y.unit) z.unit) = sum at hexact
  generalize min (x.unit + y.unit) z.unit = e at hexact
  have hpow : (0 : ℚ) < 2 ^ e := by positivity
  have hsum : sum ≠ 0 := by
    rintro rfl
    have hpos := h.ge (significand_pos hne)
    rw [← hexact, Int.cast_zero, zero_mul, abs_zero] at hpos
    exact absurd hpos (not_le.2 (by positivity))
  have habs : |x.value * y.value + z.value| = sum.natAbs * 2 ^ e := by
    rw [← hexact, abs_mul, abs_of_pos hpow, Nat.cast_natAbs, Int.cast_abs]
  have hneg : decide (sum < 0) = w.isNegative := by
    rw [hsign, decide_eq_decide, ← hexact, mul_neg_iff]
    simp [hpow, not_lt.2 hpow.le]
  rw [habs] at h
  simp only [hx, hy, hz, hsum, Bool.and_self, ne_eq, not_false_eq_true, decide_true, if_true, hneg]
  exact ofScaled_of_roundsTo hw hne h

end ScalarLang.Binary64
