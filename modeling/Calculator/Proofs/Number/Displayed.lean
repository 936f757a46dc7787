import Calculator.Proofs.Number.Ordered
import Calculator.Proofs.Number.Places

/-! # Integers that are displayed

An integer of at most ten digits, or `10 ^ 10`, is shown as its numeral: the six places behind the
point are zeros and are dropped, and a zero has no sign.
-/
namespace Calculator.Number
open Float.Model Float.Model.UnpackedFloat

theorem Fraction.round_eq {r : Fraction} (hr : 0 < r.den) {n : ℕ} (h : r.value = n) :
    r.round = n := by
  have hnearest := Fraction.round_nearest hr
  rw [h] at hnearest
  exact le_antisymm (hnearest.mono (.natCast n) le_rfl) (Nearest.mono (.natCast n) hnearest le_rfl)

theorem positional_mul_tens (n : ℕ) : positional (n * 10 ^ 6) 6 = numeral n := by
  have hpos : 0 < 10 ^ 6 := Nat.pow_pos (by decide)
  have hzeros : dropZeros (padded 6 0) = [] := by decide
  rw [positional, tens_eq, Nat.mul_div_cancel n hpos, Nat.mul_mod_left, hzeros]

theorem fixed_eq {r : Fraction} (hr : 0 < r.den) {n : ℕ} (h : r.value = n) :
    fixed r = numeral n := by
  have hshift : (r.shift 6).value = (n * 10 ^ 6 : ℕ) := by
    rw [Fraction.shift_value, h]
    push_cast
    rfl
  rw [fixed, Fraction.round_eq (Fraction.shift_den_pos hr 6) hshift, positional_mul_tens]

theorem Represents.isFinite {x : Float} {n : ℤ} (h : Represents x n) : x.isFinite = true := by
  change x.toModel.unpack.isFinite = true
  unfold Represents at h
  generalize x.toModel.unpack = u at h
  cases h <;> rfl

theorem Represents.exactValue_eq {x : Float} {n : ℤ} (h : Represents x n) :
    exactValue x = n := by
  unfold Represents at h
  unfold exactValue
  generalize x.toModel.unpack = u at h
  cases h with
  | zero s => exact Int.cast_zero.symm
  | @finite s m k e hc hv => exact apply_value hv s

/-- Neither too large nor too small for six places. -/
theorem Represents.not_isExtreme {x : Float} {n : ℤ} (h : Represents x n)
    (hn : n.natAbs ≤ 10 ^ 10) : isExtreme x = false := by
  rw [Bool.eq_false_iff, Ne, isExtreme_iff h.isFinite, h.exactValue_eq, ← Int.cast_abs,
    Int.abs_eq_natAbs, Int.cast_natCast, not_or, not_lt, not_and, Int.cast_ne_zero, not_not]
  refine ⟨by exact_mod_cast hn, fun hsmall => ?_⟩
  have hone : (n.natAbs : ℚ) < 1 := hsmall.trans (by norm_num)
  have hzero : n.natAbs < 1 := by exact_mod_cast hone
  omega

theorem intNumeral_apply {s : Sign} {k : ℕ} (hk : 0 < k) :
    intNumeral (s.apply k) = signText s ++ numeral k := by
  rw [intNumeral, natAbs_apply]
  cases s with
  | negative =>
    have hneg : Sign.negative.apply k < 0 := by
      simp only [Sign.apply]
      omega
    rw [if_pos hneg]
    rfl
  | positive =>
    have hnonneg : ¬ Sign.positive.apply k < 0 := by
      simp only [Sign.apply]
      omega
    rw [if_neg hnonneg]
    rfl

/-- An integer is shown as its numeral; a zero of either sign is shown as 0. -/
theorem Represents.display_eq {x : Float} {n : ℤ} (h : Represents x n)
    (hn : n.natAbs ≤ 10 ^ 10) : display x = intNumeral n := by
  have hplain := h.not_isExtreme hn
  unfold Represents at h
  unfold display
  generalize x.toModel.unpack = u at h
  cases h with
  | zero s => rfl
  | @finite s m k e hc hv =>
    have hvalue : (Fraction.binary m e).value = k := by
      rw [Fraction.binary_value, hv]
    have hfixed := fixed_eq (Fraction.binary_den_pos m e) hvalue
    rw [intNumeral_apply (pos_of_value hc.pos hv), hplain, ← hfixed]
    simp only [Bool.false_eq_true, if_false]

end Calculator.Number
