import ScalarLang.Number.Numeral
/-!
# The encoding of doubles

A double is given by its sign and its magnitude, and those that come from rounding are finite.
-/
namespace ScalarLang.Binary64

theorem magnitude_ofMagnitude {m : Nat} (negative : Bool) (h : m < signWeight) :
    (ofMagnitude negative m).magnitude = m := by
  simp only [signWeight] at h
  cases negative <;> simp [ofMagnitude, magnitude, signWeight, UInt64.toNat_ofNat] <;> omega

theorem isNegative_ofMagnitude {m : Nat} (negative : Bool) (h : m < signWeight) :
    (ofMagnitude negative m).isNegative = negative := by
  simp only [signWeight] at h
  cases negative <;> simp [ofMagnitude, isNegative, signWeight, UInt64.toNat_ofNat] <;> omega

/-- A double is determined by its sign and its magnitude. -/
theorem ofMagnitude_magnitude (x : Binary64) : ofMagnitude x.isNegative x.magnitude = x := by
  obtain ⟨bits⟩ := x
  have hlt := bits.toNat_lt
  simp only [ofMagnitude, magnitude, isNegative, decide_eq_true_eq]
  by_cases h : signWeight ≤ bits.toNat
  · have hbits : signWeight + bits.toNat % signWeight = bits.toNat := by
      simp only [signWeight] at *
      omega
    simp [h, hbits]
  · have hbits : bits.toNat % signWeight = bits.toNat := Nat.mod_eq_of_lt (by omega)
    simp [h, hbits]

theorem isFinite_ofMagnitude {m : Nat} (negative : Bool) (h : m < infinity) :
    (ofMagnitude negative m).isFinite = true := by
  have hm : m < signWeight := Nat.lt_trans h (by decide)
  simpa [isFinite, magnitude_ofMagnitude negative hm] using h

theorem isNaN_of_isFinite {x : Binary64} (h : x.isFinite = true) : x.isNaN = false := by
  simp only [isFinite, isNaN, decide_eq_true_eq, decide_eq_false_iff_not] at *
  omega

theorem isFinite_neg {x : Binary64} (h : x.isFinite = true) : x.neg.isFinite = true :=
  isFinite_ofMagnitude _ (by simpa [isFinite] using h)

/-! ## Rounding -/

theorem roundMagnitude?_lt {num den m : Nat} (h : roundMagnitude? num den = some m) :
    m < infinity := by
  unfold roundMagnitude? at h
  split at h
  · cases h; decide
  · simp only [Option.ite_none_right_eq_some, Option.some.injEq] at h
    obtain ⟨hlt, rfl⟩ := h
    exact hlt

/-- What a quotient is rounded to is finite and has the sign that was asked for. -/
theorem ofRatio?_eq_some {negative : Bool} {num den : Nat} {x : Binary64}
    (h : ofRatio? negative num den = some x) : x.isFinite = true ∧ x.isNegative = negative := by
  obtain ⟨m, hm, rfl⟩ := Option.map_eq_some_iff.1 h
  have hlt := roundMagnitude?_lt hm
  exact ⟨isFinite_ofMagnitude negative hlt,
    isNegative_ofMagnitude negative (Nat.lt_trans hlt (by decide))⟩

theorem isFinite_ofInt64 (i : Int64) : (ofInt64 i).isFinite = true := by
  unfold ofInt64
  cases h : ofRatio? (decide (i.toInt < 0)) i.toInt.natAbs 1 with
  | none => decide
  | some x => exact (ofRatio?_eq_some h).1

end ScalarLang.Binary64
