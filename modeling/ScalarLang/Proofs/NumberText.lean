import ScalarLang.Number.Layout
import ScalarLang.Proofs.Lexing
import ScalarLang.Proofs.ShortestDecimal
import ScalarLang.Tree.Printer
/-!
# Numbers as they are written

`Numeral.Written` is a number without a sign in its parts; it is read as the decimal that its parts
spell. Every layout of a decimal writes such a number of the same value, so the text of a double is read
back as the double.
-/
namespace ScalarLang

namespace Numeral

/-! ## Digits -/

theorem value_eq_ofDigitChars {ds : List Char} (h : ∀ c ∈ ds, isDigit c = true) :
    value 10 ds = Nat.ofDigitChars 10 ds 0 := by
  rw [Nat.ofDigitChars_eq_foldl]
  unfold value
  generalize 0 = n
  induction ds generalizing n with
  | nil => rfl
  | cons c ds ih =>
    simp only [List.foldl_cons, digitValue, h c (by simp), ↓reduceIte]
    exact ih (fun c' hc' => h c' (by simp [hc'])) _

theorem value_append {as bs : List Char} (ha : ∀ c ∈ as, isDigit c = true)
    (hb : ∀ c ∈ bs, isDigit c = true) :
    value 10 (as ++ bs) = 10 ^ bs.length * value 10 as + value 10 bs := by
  have hab : ∀ c ∈ as ++ bs, isDigit c = true := by
    intro c hc
    rcases List.mem_append.1 hc with hc | hc
    · exact ha c hc
    · exact hb c hc
  rw [value_eq_ofDigitChars hab, value_eq_ofDigitChars ha, value_eq_ofDigitChars hb,
    Nat.ofDigitChars_append, Nat.ofDigitChars_eq_ofDigitChars_zero]

theorem isDigit_of_mem_replicate {n : Nat} {c : Char} (h : c ∈ List.replicate n '0') :
    isDigit c = true := by
  rw [(List.mem_replicate.1 h).2]
  decide

theorem value_replicate (n : Nat) : value 10 (List.replicate n '0') = 0 := by
  rw [value_eq_ofDigitChars fun c => isDigit_of_mem_replicate, Nat.ofDigitChars_replicate_zero,
    Nat.mul_zero]

theorem isDigit_of_mem_digitChars {n : Nat} {c : Char} (h : c ∈ digitChars n) : isDigit c = true :=
  Nat.isDigit_of_mem_toDigits (by decide) (by decide) h

theorem digitChars_ne_nil (n : Nat) : digitChars n ≠ [] := Nat.toDigits_ne_nil

theorem value_digitChars (n : Nat) : value 10 (digitChars n) = n := by
  rw [value_eq_ofDigitChars fun c => isDigit_of_mem_digitChars]
  exact Nat.ofDigitChars_ten_toDigits

/-- An exponent below the limit is its value. -/
theorem exponentSize_eq {ds : List Char} (hd : ∀ c ∈ ds, isDigit c = true)
    (h : value 10 ds < exponentLimit) : exponentSize ds = value 10 ds := by
  induction ds using List.reverseRecOn with
  | nil => rfl
  | append_singleton ds c ih =>
    have hc : ∀ c' ∈ [c], isDigit c' = true := by simpa using hd c (by simp)
    have hds : ∀ c' ∈ ds, isDigit c' = true := fun c' hc' => hd c' (by simp [hc'])
    rw [value_append hds hc] at h ⊢
    have ih := ih hds (by simp only [List.length_singleton] at h; omega)
    unfold exponentSize at ih ⊢
    rw [List.foldl_append, ih, List.foldl_cons, List.foldl_nil, if_pos]
    · simp [value]
    · simp only [List.length_singleton] at h
      omega

/-! ## Shapes of numbers -/

/-- Digits, at least one. -/
def IsDigits (cs : List Char) : Prop := cs ≠ [] ∧ ∀ c ∈ cs, isDigit c = true

/-- A point and digits, or nothing. -/
inductive IsFraction : List Char → Prop
  | none : IsFraction []
  | digits {ds : List Char} (hd : IsDigits ds) : IsFraction ('.' :: ds)

/-- A mark in either case, a sign or none, and digits; or nothing. -/
inductive IsExponent : List Char → Prop
  | none : IsExponent []
  | digits {m : Char} {sign ds : List Char} (hm : m = 'e' ∨ m = 'E')
      (hs : sign = [] ∨ sign = ['+'] ∨ sign = ['-']) (hd : IsDigits ds) : IsExponent (m :: (sign ++ ds))

/-! ## Written numbers -/

/-- A number without a sign: digits, a fraction if there are digits in it, and an exponent with its sign
if there is one. -/
structure Written where
  whole : List Char
  fraction : List Char
  exponent : Option (Bool × List Char)
  whole_ne_nil : whole ≠ []
  whole_digits : ∀ c ∈ whole, isDigit c = true
  fraction_digits : ∀ c ∈ fraction, isDigit c = true
  exponent_ne_nil : ∀ e ∈ exponent, e.2 ≠ []
  exponent_digits : ∀ e ∈ exponent, ∀ c ∈ e.2, isDigit c = true

namespace Written

/-- A point and the fraction, or nothing. -/
def point (w : Written) : List Char := if w.fraction.isEmpty then [] else '.' :: w.fraction

/-- A mark, the sign and the digits of the exponent, or nothing. -/
def mark (w : Written) : List Char :=
  w.exponent.elim [] fun e => 'e' :: (if e.1 then '-' else '+') :: e.2

/-- The text of a number. -/
def chars (w : Written) : List Char := w.whole ++ (w.point ++ w.mark)

/-- The decimal that the parts spell. -/
def decimal (w : Written) : Decimal :=
  ⟨false, value 10 (w.whole ++ w.fraction),
    w.exponent.elim 0 (fun e => if e.1 then -(exponentSize e.2 : Int) else exponentSize e.2)
      - w.fraction.length⟩

theorem mark_eq (w : Written) : w.mark = [] ∧ w.exponent = none ∨
    ∃ negative ds, w.exponent = some (negative, ds) ∧ ds ≠ [] ∧ (∀ c ∈ ds, isDigit c = true) ∧
      w.mark = 'e' :: (if negative then '-' else '+') :: ds := by
  obtain ⟨whole, fraction, exponent, -, -, -, hne, hdigits⟩ := w
  cases exponent with
  | none => exact .inl ⟨rfl, rfl⟩
  | some e => exact .inr ⟨e.1, e.2, rfl, hne e rfl, hdigits e rfl, rfl⟩

theorem isFraction_point (w : Written) : IsFraction w.point := by
  by_cases hf : w.fraction = []
  · rw [point, hf]
    exact .none
  · rw [point, if_neg (by simpa using hf)]
    exact .digits ⟨hf, w.fraction_digits⟩

theorem isExponent_mark (w : Written) : IsExponent w.mark := by
  rcases w.mark_eq with ⟨hm, -⟩ | ⟨negative, ds, -, hne, hds, hm⟩ <;> rw [hm]
  · exact .none
  · have hsign : [if negative then '-' else '+'] = [] ∨ [if negative then '-' else '+'] = ['+'] ∨
        [if negative then '-' else '+'] = ['-'] := by cases negative <;> simp
    exact .digits (.inl rfl) hsign ⟨hne, hds⟩

/-- Digits before something that starts with no digit. -/
theorem takeWhile_digits {ds rest : List Char} (hd : ∀ c ∈ ds, isDigit c = true)
    (hr : ∀ c, rest.head? = some c → isDigit c = false) :
    (ds ++ rest).takeWhile isDigit = ds ∧ (ds ++ rest).dropWhile isDigit = rest := by
  rw [List.takeWhile_append_of_pos hd, List.dropWhile_append_of_pos hd]
  cases rest with
  | nil => simp
  | cons c rest => simp [hr c rfl]

theorem split_chars (w : Written) :
    Mantissa.split isDigit w.chars = ⟨w.whole, w.fraction, w.mark⟩ := by
  have hmark : ∀ c, w.mark.head? = some c → isDigit c = false := by
    rcases w.mark_eq with ⟨h, -⟩ | ⟨negative, ds, -, -, -, h⟩ <;> simp [h, isDigit]
  unfold Mantissa.split chars point
  by_cases hf : w.fraction = []
  · obtain ⟨htake, hdrop⟩ := takeWhile_digits w.whole_digits hmark
    simp only [hf, List.isEmpty_nil, ↓reduceIte, List.nil_append, htake, hdrop]
    rcases w.mark_eq with ⟨h, -⟩ | ⟨negative, ds, -, -, -, h⟩ <;> simp [h]
  · have hpoint : ∀ c, ('.' :: w.fraction ++ w.mark).head? = some c → isDigit c = false := by
      simp [isDigit]
    obtain ⟨htake, hdrop⟩ := takeWhile_digits w.whole_digits hpoint
    obtain ⟨htake', hdrop'⟩ := takeWhile_digits w.fraction_digits hmark
    simp only [List.isEmpty_iff, hf, ↓reduceIte, htake, hdrop]
    simp only [List.cons_append, htake', hdrop']

/-- A written number is read as the decimal that its parts spell. -/
theorem decimal?_chars (w : Written) : decimal? false w.chars = some w.decimal := by
  unfold decimal?
  rw [split_chars]
  have hne : (w.whole ++ w.fraction).isEmpty = false := by
    simp [w.whole_ne_nil]
  simp only [Mantissa.digits, hne, Bool.false_eq_true, ↓reduceIte]
  rcases w.mark_eq with ⟨h, he⟩ | ⟨negative, ds, he, hds, hdigits, h⟩
  · simp [h, decimal, he]
  · have hall : ds.all isDigit = true := List.all_eq_true.2 hdigits
    have hsign : splitSign ((if negative then '-' else '+') :: ds) = (negative, ds) := by
      cases negative <;> rfl
    have hlower : 'e'.toLower = 'e' := by decide
    simp [h, exponent?, hsign, hlower, hds, hall, decimal, he]

theorem mem_chars {w : Written} {c : Char} (h : c ∈ w.chars) :
    isDigit c = true ∨ c ∈ ['.', 'e', '+', '-'] := by
  unfold chars at h
  rcases List.mem_append.1 h with h | h
  · exact .inl (w.whole_digits c h)
  rcases List.mem_append.1 h with h | h
  · unfold point at h
    split at h
    · cases h
    · rcases List.mem_cons.1 h with rfl | h
      · exact .inr (by simp)
      · exact .inl (w.fraction_digits c h)
  · rcases w.mark_eq with ⟨hm, -⟩ | ⟨negative, ds, -, -, hdigits, hm⟩ <;> rw [hm] at h
    · cases h
    · simp only [List.mem_cons] at h
      rcases h with rfl | rfl | h
      · exact .inr (by simp)
      · exact .inr (by cases negative <;> simp)
      · exact .inl (hdigits c h)

theorem isGrouped_of_forall {p : Char → Bool} {afterDigit : Bool} {cs : List Char}
    (h : ∀ c ∈ cs, c ≠ '_') : isGrouped p afterDigit cs = true := by
  induction cs generalizing afterDigit with
  | nil => rfl
  | cons c cs ih =>
    unfold isGrouped
    split
    · rfl
    · rename_i heq
      cases heq
      exact absurd rfl (h '_' (by simp))
    · rename_i heq
      cases heq
      exact ih fun c' hc' => h c' (by simp [hc'])

/-- A written number is read as the double that is nearest to it. -/
theorem binary64?_chars (w : Written) :
    binary64? (String.ofList w.chars) = w.decimal.toBinary64? := by
  obtain ⟨c, cs, hw⟩ := List.exists_cons_of_ne_nil w.whole_ne_nil
  have hc : isDigit c = true := w.whole_digits c (by simp [hw])
  have hchars : w.chars = c :: (cs ++ (w.point ++ w.mark)) := by simp [chars, hw]
  have hmark : afterHexMark? w.chars = none := by
    unfold afterHexMark?
    split
    · rename_i c' cs' heq
      refine if_neg fun hx => ?_
      have hmem : c' ∈ w.chars := by simp [heq]
      rcases mem_chars hmem with hd | hd
      · rw [toLower_of_isDigit hd] at hx
        subst hx
        cases hd
      · simp only [List.mem_cons, List.not_mem_nil, or_false] at hd
        rcases hd with rfl | rfl | rfl | rfl <;> exact absurd hx (by decide)
    · rfl
  have hnone : ∀ c' ∈ w.chars, c' ≠ '_' := by
    rintro c' hc' rfl
    exact absurd (mem_chars hc') (by decide)
  have hplain : ungrouped? isDigit false w.chars = some w.chars := by
    unfold ungrouped?
    rw [if_pos (isGrouped_of_forall hnone), List.filter_eq_self.2 (by simpa using hnone)]
  have hunsigned : unsigned? false w.chars = w.decimal.toBinary64? := by
    unfold unsigned?
    rw [hmark]
    simp only [hplain, Option.bind_some, decimal?_chars]
  unfold binary64?
  rw [String.toList_ofList]
  rw [hchars, splitSign_of_isDigit hc, named?_of_isDigit hc, ← hchars]
  exact hunsigned

end Written

/-! ## Layouts -/

/-- The value of a decimal. -/
def Decimal.toRat (d : Decimal) : ℚ := d.digits * 10 ^ d.exponent

/-- Digits, and a fraction if there are digits for it. -/
def Written.plain (whole fraction : List Char) (hne : whole ≠ []) (hw : ∀ c ∈ whole, isDigit c = true)
    (hf : ∀ c ∈ fraction, isDigit c = true) : Written :=
  ⟨whole, fraction, none, hne, hw, hf, by simp, by simp⟩

theorem Written.toRat_plain {whole fraction : List Char} (hne : whole ≠ [])
    (hw : ∀ c ∈ whole, isDigit c = true) (hf : ∀ c ∈ fraction, isDigit c = true) :
    (plain whole fraction hne hw hf).decimal.toRat =
      value 10 (whole ++ fraction) * 10 ^ (-(fraction.length : Int)) := by
  simp [Decimal.toRat, decimal, plain]

/-- A plain number with an exponent. -/
def Written.raised (w : Written) (negative : Bool) (ds : List Char) (hne : ds ≠ [])
    (hd : ∀ c ∈ ds, isDigit c = true) : Written :=
  { w with
    exponent := some (negative, ds)
    exponent_ne_nil := by simpa using hne
    exponent_digits := by simpa using hd }

theorem Written.toRat_raised {w : Written} (hw : w.exponent = none) {negative : Bool} {ds : List Char}
    (hne : ds ≠ []) (hd : ∀ c ∈ ds, isDigit c = true) :
    (w.raised negative ds hne hd).decimal.toRat = w.decimal.toRat *
      10 ^ (if negative then -(exponentSize ds : Int) else exponentSize ds) := by
  simp only [Decimal.toRat, decimal, raised, hw, Option.elim_some, Option.elim_none]
  rw [mul_assoc, ← zpow_add₀ (by norm_num), zero_sub, neg_add_eq_sub]

/-- Digits with a point after the first `n` of them are worth what the digits are, moved to there. -/
theorem withPoint_eq {ds : List Char} (hne : ds ≠ []) (hd : ∀ c ∈ ds, isDigit c = true) (n : Nat) :
    ∃ w : Written, w.exponent = none ∧ w.point ≠ [] ∧ withPoint ds n = String.ofList w.chars ∧
      w.decimal.toRat = value 10 ds * 10 ^ ((n : Int) - ds.length) := by
  have hlen := List.length_pos_iff.2 hne
  have hzero : ∀ c ∈ ['0'], isDigit c = true := List.forall_mem_singleton.2 rfl
  have hzeros (k : Nat) : ∀ c ∈ List.replicate k '0', isDigit c = true :=
    fun c => isDigit_of_mem_replicate
  have hvalue : value 10 ['0'] = 0 := by decide
  unfold withPoint
  rcases Nat.eq_zero_or_pos n with rfl | hn
  · -- all digits stand in the fraction
    refine ⟨.plain ['0'] ds (by simp) hzero hd, rfl, ?_, ?_, ?_⟩
    · simp [Written.point, Written.plain, hne]
    · simp [Written.chars, Written.point, Written.mark, Written.plain, hne]
    · rw [Written.toRat_plain, value_append hzero hd, hvalue]
      simp
  · by_cases hle : ds.length ≤ n
    · -- all digits stand before the point
      have hwhole : ∀ c ∈ ds ++ List.replicate (n - ds.length) '0', isDigit c = true := by
        intro c hc
        rcases List.mem_append.1 hc with hc | hc
        · exact hd c hc
        · exact hzeros _ c hc
      have hpow : (10 : ℚ) ^ ((n : Int) - ds.length) = 10 ^ (n - ds.length) := by
        rw [← zpow_natCast, Nat.cast_sub hle]
      refine ⟨.plain _ ['0'] (by simp [hne]) hwhole hzero, rfl, ?_, ?_, ?_⟩
      · simp [Written.point, Written.plain]
      · simp [Written.chars, Written.point, Written.mark, Written.plain, hle, hn.ne',
          List.take_of_length_le]
      · rw [Written.toRat_plain, value_append hwhole hzero, value_append hd (hzeros _), value_replicate,
          hvalue, List.length_replicate, hpow]
        push_cast
        simp only [List.length_singleton, Nat.cast_one, zpow_neg_one]
        ring
    · have htake : ∀ c ∈ ds.take n, isDigit c = true := fun c hc => hd c (List.mem_of_mem_take hc)
      have hdrop : ∀ c ∈ ds.drop n, isDigit c = true := fun c hc => hd c (List.mem_of_mem_drop hc)
      have hne' : ds.take n ≠ [] := by simp [hn.ne', hne]
      refine ⟨.plain (ds.take n) (ds.drop n) hne' htake hdrop, rfl, ?_, ?_, ?_⟩
      · simpa [Written.point, Written.plain] using hle
      · simp [Written.chars, Written.point, Written.mark, Written.plain, hle, hn.ne',
          Nat.sub_eq_zero_of_le (Nat.le_of_not_le hle)]
      · rw [Written.toRat_plain, List.take_append_drop, List.length_drop, Nat.cast_sub (by omega), neg_sub]

/-- An exponent as it is written. -/
theorem exponentText_eq {x : Int} (h : x.natAbs < exponentLimit) :
    ∃ ds, exponentText x = String.ofList ('e' :: (if decide (x < 0) then '-' else '+') :: ds) ∧
      ds ≠ [] ∧ (∀ c ∈ ds, isDigit c = true) ∧ exponentSize ds = x.natAbs := by
  have hzero : ∀ c ∈ ['0'], isDigit c = true := List.forall_mem_singleton.2 rfl
  have hdigits : ∀ c ∈ digitChars x.natAbs, isDigit c = true := fun c => isDigit_of_mem_digitChars
  have hsize {ds : List Char} (hd : ∀ c ∈ ds, isDigit c = true) (hv : value 10 ds = x.natAbs) :
      exponentSize ds = x.natAbs := by
    rw [exponentSize_eq hd (by rwa [hv]), hv]
  unfold exponentText
  by_cases hshort : (digitChars x.natAbs).length < 2
  · have hpadded : ∀ c ∈ ['0'] ++ digitChars x.natAbs, isDigit c = true := by
      intro c hc
      rcases List.mem_append.1 hc with hc | hc
      · exact hzero c hc
      · exact hdigits c hc
    refine ⟨['0'] ++ digitChars x.natAbs, by simp [hshort], by simp, hpadded, hsize hpadded ?_⟩
    rw [value_append hzero hdigits, value_digitChars]
    simp [value, digitValue, isDigit]
  · refine ⟨digitChars x.natAbs, by simp [hshort], digitChars_ne_nil _, hdigits, hsize hdigits ?_⟩
    exact value_digitChars _

/-- A plain number before the text of an exponent is worth as much as that power of ten makes it. -/
theorem Written.exists_raised {w : Written} (hw : w.exponent = none) {x : Int}
    (h : x.natAbs < exponentLimit) :
    ∃ w' : Written, String.ofList w.chars ++ exponentText x = String.ofList w'.chars ∧ w'.mark ≠ [] ∧
      w'.decimal.toRat = w.decimal.toRat * 10 ^ x := by
  obtain ⟨es, hes, hne, hd, hsize⟩ := exponentText_eq h
  have hx : (if decide (x < 0) then -(exponentSize es : Int) else exponentSize es) = x := by
    rw [hsize]
    by_cases hneg : x < 0
    · rw [if_pos (decide_eq_true hneg)]
      omega
    · rw [if_neg (by simpa using hneg)]
      omega
  refine ⟨w.raised (decide (x < 0)) es hne hd, ?_, by simp [mark, raised], ?_⟩
  · rw [hes, ← String.ofList_append]
    simp [chars, mark, raised, point, hw]
  · rw [toRat_raised hw, hx]

/-- A decimal is written as a number of the same value, with a point or an exponent. -/
theorem Layout.unsigned_eq (layout : Layout) {d : Decimal} (h : d.leading.natAbs < exponentLimit) :
    ∃ w : Written, layout.unsigned d = String.ofList w.chars ∧ (w.point ≠ [] ∨ w.mark ≠ []) ∧
      w.decimal.toRat = d.toRat := by
  have hne := digitChars_ne_nil d.digits
  have hd : ∀ c ∈ digitChars d.digits, isDigit c = true := fun c => isDigit_of_mem_digitChars
  have hlen := List.length_pos_iff.2 hne
  have hlead : d.leading = d.exponent + (((digitChars d.digits).length : Int) - 1) := by
    unfold Decimal.leading
    omega
  have hrat : d.toRat = value 10 (digitChars d.digits) * 10 ^ d.exponent := by
    rw [value_digitChars, Decimal.toRat]
  unfold unsigned
  rw [hrat]
  generalize digitChars d.digits = ds at *
  generalize d.leading = x at *
  simp only
  -- one digit or several before an exponent, zeros before the digits, the point within or after them
  split
  · split
    · rename_i hone
      obtain ⟨w, hw, hmark, hv⟩ := Written.exists_raised (w := .plain ds [] hne hd (by simp)) rfl h
      have hchars : (Written.plain ds [] hne hd (by simp)).chars = ds := by
        simp [Written.chars, Written.point, Written.mark, Written.plain]
      refine ⟨w, by rw [← hw, hchars], .inr hmark, ?_⟩
      rw [hv, Written.toRat_plain, show x = d.exponent by omega]
      simp
    · obtain ⟨w, hw, -, hchars, hv⟩ := withPoint_eq hne hd 1
      obtain ⟨w', hw', hmark, hv'⟩ := Written.exists_raised hw h
      refine ⟨w', by rw [hchars, hw'], .inr hmark, ?_⟩
      rw [hv', hv, mul_assoc, ← zpow_add₀ (by norm_num)]
      congr 2
      omega
  · split
    · rename_i hexp hneg
      have hzeros : ∀ c ∈ List.replicate (-x - 1).toNat '0', isDigit c = true :=
        fun c => isDigit_of_mem_replicate
      have hall := List.forall_mem_append.2 ⟨hzeros, hd⟩
      obtain ⟨w, -, hpoint, hw, hv⟩ := withPoint_eq (by simp [hne]) hall 0
      refine ⟨w, hw, .inl hpoint, ?_⟩
      rw [hv, value_append hzeros hd, value_replicate, List.length_append, List.length_replicate]
      congr 2
      · simp
      · omega
    · rename_i hexp hneg
      obtain ⟨w, -, hpoint, hw, hv⟩ := withPoint_eq hne hd (x.toNat + 1)
      refine ⟨w, hw, .inl hpoint, ?_⟩
      rw [hv, show ((x.toNat + 1 : Nat) : Int) - ds.length = d.exponent by omega]

/-! ## Doubles and integers -/

/-- A number without a sign lies between the powers of ten at its first digit. -/
theorem Decimal.toRat_bounds {d : Decimal} (hd : d.digits ≠ 0) :
    (10 : ℚ) ^ d.leading ≤ d.toRat ∧ d.toRat < 10 ^ (d.leading + 1) := by
  have hten : (0 : ℚ) < 10 ^ d.exponent := by positivity
  have hlen : 0 < (digitChars d.digits).length := Nat.length_toDigits_pos
  have hlow : 10 ^ ((digitChars d.digits).length - 1) ≤ d.digits := by
    rcases Nat.eq_zero_or_pos ((digitChars d.digits).length - 1) with hone | hmore
    · rw [hone]
      exact Nat.one_le_iff_ne_zero.2 hd
    · exact Nat.le_of_not_lt fun hlt =>
        absurd ((Nat.length_toDigits_le_iff (by decide) hmore).2 hlt) (by unfold digitChars at *; omega)
  have hhigh : d.digits < 10 ^ (digitChars d.digits).length :=
    (Nat.length_toDigits_le_iff (by decide) hlen).1 (Nat.le_refl _)
  have hlead : d.leading = ((digitChars d.digits).length - 1 : Nat) + d.exponent := by
    unfold leading
    omega
  constructor
  · rw [hlead, zpow_add₀ (by norm_num), zpow_natCast]
    refine mul_le_mul_of_nonneg_right ?_ hten.le
    exact_mod_cast hlow
  · rw [hlead, show (((digitChars d.digits).length - 1 : Nat) : Int) + d.exponent + 1 =
      ((digitChars d.digits).length : Int) + d.exponent by omega, zpow_add₀ (by norm_num), zpow_natCast]
    refine mul_lt_mul_of_pos_right ?_ hten
    exact_mod_cast hhigh

end Numeral

/-- The text of a finite double without a sign is a number with a point or an exponent, and is read back
as the double. -/
theorem Binary64.text_eq {x : Binary64} (hx : x.isFinite = true) (hs : x.isNegative = false) :
    ∃ w : Numeral.Written, x.text = String.ofList w.chars ∧ (w.point ≠ [] ∨ w.mark ≠ []) ∧
      Numeral.binary64? x.text = some x := by
  have hsign : x.shortest.negative = false := by
    unfold shortest
    split <;> exact hs
  have htext : x.text = Numeral.Layout.unsigned ⟨false⟩ x.shortest := by
    have hinf : x.isInfinite = false := by
      simp only [isFinite, isInfinite, decide_eq_true_eq, beq_eq_false_iff_ne] at *
      omega
    simp [text, isNaN_of_isFinite hx, hinf, Numeral.Layout.text, hsign]
  -- a double has its first digit within four hundred places of the point
  have hlead : x.shortest.leading.natAbs < Numeral.exponentLimit := by
    by_cases hz : x.magnitude = 0
    · have hshort : x.shortest = ⟨false, 0, 0⟩ := by simp [shortest, isZero, hz, hs]
      rw [hshort]
      decide
    · have hround := roundsTo_shortest hx hz
      obtain ⟨hge, hlt⟩ := hround.ten_bounds hx hz
      have hpos : x.shortest.digits ≠ 0 := by
        intro hzero
        rw [hzero, Nat.cast_zero, zero_mul] at hge
        exact absurd hge (not_le.2 (by positivity))
      obtain ⟨hlow, hhigh⟩ := Numeral.Decimal.toRat_bounds hpos
      have hupper := (zpow_lt_zpow_iff_right₀ (by norm_num : (1 : ℚ) < 10)).1 (hlow.trans_lt hlt)
      have hlower := (zpow_lt_zpow_iff_right₀ (by norm_num : (1 : ℚ) < 10)).1 (hge.trans_lt hhigh)
      unfold Numeral.exponentLimit
      omega
  obtain ⟨w, hw, hshape, hrat⟩ := Numeral.Layout.unsigned_eq ⟨false⟩ hlead
  refine ⟨w, htext.trans hw, hshape, ?_⟩
  rw [htext, hw, Numeral.Written.binary64?_chars]
  by_cases hz : x.magnitude = 0
  · have hshort : x.shortest = ⟨false, 0, 0⟩ := by simp [shortest, isZero, hz, hs]
    have hdigits : w.decimal.digits = 0 := by
      rw [hshort] at hrat
      simpa [Numeral.Decimal.toRat, zpow_ne_zero] using hrat
    unfold Numeral.Decimal.toBinary64?
    rw [if_pos hdigits, ← ofMagnitude_magnitude x, hz, hs]
    rfl
  · refine Numeral.Decimal.toBinary64?_of_roundsTo hx hz hs.symm ?_
    have hround := roundsTo_shortest hx hz
    unfold Numeral.Decimal.toRat at hrat
    rwa [hrat]

/-- An integer that is not negative is written in digits, and is read back as itself. -/
theorem Numeral.int64?_toString {v : Int64} (h : 0 ≤ v) :
    ∃ n : Nat, toString v = String.ofList (digitChars n) ∧ int64? (toString v) = some v := by
  have hint : 0 ≤ v.toInt := by simpa [Int64.le_iff_toInt_le] using h
  obtain ⟨n, hn⟩ := Int.eq_ofNat_of_zero_le hint
  have htext : toString v = String.ofList (digitChars n) := by
    show Int.repr v.toInt = _
    rw [hn]
    exact Nat.repr_eq_ofList_toDigits
  refine ⟨n, htext, ?_⟩
  obtain ⟨c, cs, hcs⟩ := List.exists_cons_of_ne_nil (digitChars_ne_nil n)
  have hall : (digitChars n).all isDigit = true :=
    List.all_eq_true.2 fun c hc => isDigit_of_mem_digitChars hc
  have hc : isDigit c = true := isDigit_of_mem_digitChars (n := n) (by simp [hcs])
  have hread : integer? (digitChars n) = some (n : Int) := by
    rw [hcs, integer?_of_isDigit hc, ← hcs]
    simp [natural?, digitChars_ne_nil, hall, value_digitChars]
  unfold int64?
  rw [htext, String.toList_ofList, hread]
  simp only
  rw [if_pos, ← hn, Int64.ofInt_toInt]
  rw [← hn]
  exact ⟨v.minValue_le_toInt, v.toInt_le⟩

end ScalarLang
