import Calculator.Proofs.Number.Decimal
import Calculator.Proofs.Number.Exact

/-! # Decimals that are read

The decimal that a literal spells is rounded once, so a literal whose value lies nearest to a
number is read as that number.  What is read is never a NaN and has no sign.
-/
namespace Calculator.Number
open Float.Model Float.Model.UnpackedFloat

def isTens (p : ℕ) : UnpackedFloat → Bool
  | .finite .positive m e _ => m * 2 ^ e.toNat == 10 ^ p * 2 ^ (-e).toNat
  | _ => false

theorem of_isTens {p : ℕ} {u : UnpackedFloat} (h : isTens p u = true) :
    ∃ m e hm, u = .finite .positive m e hm ∧ (m : ℚ) * 2 ^ e = 10 ^ p := by
  cases u with
  | finite s m e hm =>
    cases s with
    | negative => cases h
    | positive =>
      refine ⟨m, e, hm, rfl, ?_⟩
      have heq : m * 2 ^ e.toNat = 10 ^ p * 2 ^ (-e).toNat := by simpa [isTens] using h
      have hpos : (2 : ℚ) ^ (-e).toNat ≠ 0 := by positivity
      rw [zpow_eq_div, ← mul_div_assoc, div_eq_iff hpos]
      exact_mod_cast heq
  | _ => cases h

theorem isTens_power (p : Fin Float.exactlyRepresentablePowersOfTen.size) :
    isTens p Float.exactlyRepresentablePowersOfTen[p].toModel.unpack = true := by
  decide +revert

theorem unpack_toFloat {n m : ℕ} {e : ℤ} (h0 : n ≠ 0) (hn : n < 2 ^ 53) (hc : Canonical m e)
    (h : (m : ℚ) * 2 ^ e = n) :
    n.toUInt64.toFloat.toModel.unpack = .finite .positive m e hc.pos := by
  have hnat : n.toUInt64.toNat = n := by
    simp [Nat.toUInt64]
    omega
  have hround : UnpackedFloat.ofNat .binary64 n = .finite .positive m e hc.pos := by
    have hv : RoundsTo (n * 2 ^ (0 : ℤ)) m e := by
      rw [zpow_zero, mul_one, ← h]
      exact .refl m e
    simp only [UnpackedFloat.ofNat, UnpackedFloat.ofInt, UnpackedFloat.normalize]
    rw [Int.compare_eq_gt.mpr (by omega)]
    exact round_eq h0 hc hv .positive
  simp only [UInt64.toFloat, Float.Model.ofUInt64, UnpackedFloat.ofUInt64, hnat, hround]
  exact unpack_pack hc .positive

theorem Canonical.le_lowEnd {m : ℕ} {e : ℤ} (hc : Canonical m e) :
    (2 : ℚ) ^ (-1075 : ℤ) ≤ lowEnd m e := by
  obtain ⟨b, hb, hends⟩ := lowEnd_eq m e
  have hm : (1 : ℚ) ≤ m := by exact_mod_cast hc.pos
  have he := hc.low
  have hb' : 2 ≤ 4 * m - b := by rcases hb with rfl | rfl <;> linarith
  calc (2 : ℚ) ^ (-1075 : ℤ) = 2 * 2 ^ (-1074 - 2 : ℤ) := by
        rw [← zpow_one_add₀ two_ne_zero]
        norm_num
    _ ≤ (4 * m - b) * 2 ^ (e - 2) := by
        gcongr
        exact one_le_two
    _ = lowEnd m e := hends.symm

theorem RoundsTo.pos {v : ℚ} {m : ℕ} {e : ℤ} (h : RoundsTo v m e) (hc : Canonical m e) : 0 < v := by
  have hlow := hc.le_lowEnd.trans h.low
  have hpos : (0 : ℚ) < 2 ^ (-1075 : ℤ) := by positivity
  exact hpos.trans_le hlow

/-- No decimal that lies nearest to a number is too small to be looked at. -/
theorem RoundsTo.not_tiny {n p m : ℕ} {e : ℤ} (h : RoundsTo ((n : ℚ) / 10 ^ p) m e)
    (hc : Canonical m e) : p ≤ 2 ^ 11 + n.log2 := by
  by_contra hp
  have hlow := hc.le_lowEnd.trans h.low
  have hlt : n * 2 ^ 1075 < 10 ^ p := by
    calc n * 2 ^ 1075 < 2 ^ (n.log2 + 1) * 2 ^ 1075 := by
          have hn : n < 2 ^ (n.log2 + 1) := Nat.lt_log2_self
          gcongr
      _ = 2 ^ (n.log2 + 1 + 1075) := (pow_add _ _ _).symm
      _ ≤ 2 ^ p := by
          gcongr
          · norm_num
          · omega
      _ ≤ 10 ^ p := by
          gcongr
          norm_num
  have hlt' : (n : ℚ) * 2 ^ 1075 < 10 ^ p := by exact_mod_cast hlt
  rw [zpow_neg, inv_le_iff_one_le_mul₀ (by positivity), div_mul_eq_mul_div,
    one_le_div (by positivity)] at hlow
  exact absurd hlow (not_le.mpr (by exact_mod_cast hlt))

theorem unpacked_ofScientific_eq {n p m : ℕ} {e : ℤ} (hc : Canonical m e)
    (h : RoundsTo ((n : ℚ) / 10 ^ p) m e) (hn : n ≠ 0) :
    UnpackedFloat.ofScientific .binary64 n (-p) = .finite .positive m e hc.pos := by
  have htiny := h.not_tiny hc
  have hlarge : ¬ (-p : ℤ) > 2 ^ 11 := by omega
  have hsmall : ¬ (-p : ℤ) < -(2 ^ 11 + n.log2) := by omega
  rw [UnpackedFloat.ofScientific, dif_neg hn, if_neg hlarge, if_neg hsmall]
  by_cases hp : p = 0
  · subst hp
    have htotal := totalExponent_shiftLeft hn 53 0
    have hv : RoundsTo ((n <<< 53 : ℕ) * 2 ^ (0 - (53 : ℕ) : ℤ) *
        ((10 ^ (-((0 : ℕ) : ℤ)).toNat : ℕ) * 2 ^ (0 : ℤ))) m e := by
      rw [shiftLeft_value]
      simpa using h
    rw [if_pos (by simp)]
    refine mul_eq _ _ hc hv ?_ .positive .positive
    have hone : (n <<< 53) * 10 ^ (-((0 : ℕ) : ℤ)).toNat = n <<< 53 := by
      rw [Int.natCast_zero, neg_zero, Int.toNat_zero, pow_zero, mul_one]
    change -((53 : ℕ) : ℤ) + 0 ≤ _
    rw [targetExponent_eq, hone, add_zero, ← zero_sub, add_zero, htotal, totalExponent]
    omega
  · have hv : RoundsTo (n * 2 ^ (0 : ℤ) / ((10 ^ (- -(p : ℤ)).toNat : ℕ) * 2 ^ (0 : ℤ))) m e := by
      simpa using h
    rw [if_neg (by omega), div_eq _ _ hc hv .positive .positive]
    rfl

theorem div_def (x y : Float) : x / y =
    .ofModel (.pack (UnpackedFloat.div .binary64 x.toModel.unpack y.toModel.unpack)) := rfl

/-- A decimal is rounded once, whether its value is found by a division of floats or exactly. -/
theorem ofScientific_eq {n p m : ℕ} {e : ℤ} (hc : Canonical m e)
    (h : RoundsTo ((n : ℚ) / 10 ^ p) m e) :
    Float.ofScientific n true p = .ofModel (.pack (.finite .positive m e hc.pos)) := by
  have hn : n ≠ 0 := by
    rintro rfl
    have hpos := h.pos hc
    simp at hpos
  by_cases hfast : n < 2 ^ 53 ∧ p ≤ 22
  · -- Numerator and denominator are numbers, so only their quotient is rounded.
    obtain ⟨hn53, hp⟩ := hfast
    obtain ⟨m₁, e₁, hc₁, hv₁⟩ := exists_canonical (Nat.pos_of_ne_zero hn) hn53
    obtain ⟨m₂, e₂, hm₂, hu₂, hv₂⟩ := of_isTens (isTens_power ⟨p, Nat.lt_succ_of_le hp⟩)
    have hu₁ := unpack_toFloat hn hn53 hc₁ hv₁
    have hdiv := div_eq hc₁.pos hm₂ hc (by rwa [hv₁, hv₂]) .positive .positive
    rw [Float.ofScientific, dif_pos ⟨hn53, hp⟩, if_pos rfl, div_def, hu₁]
    exact congrArg (fun u => Float.ofModel (.pack u)) ((congrArg _ hu₂).trans hdiv)
  · have hneg : Int.negOfNat p = -(p : ℤ) := Int.negOfNat_eq
    rw [Float.ofScientific, dif_neg hfast]
    simp only [↓reduceIte, hneg, Float.Model.ofScientific, unpacked_ofScientific_eq hc h hn]

theorem nonnegative_roundWithAccuracy (m : ℕ) (k : ℤ) (a : Accuracy) :
    Nonnegative (roundWithAccuracy .binary64 .positive m k a) := by
  simp only [roundWithAccuracy]
  split
  · exact .zero
  · exact .finite _ _ _

theorem Nonnegative.div {u : UnpackedFloat} (hu : Nonnegative u) {m : ℕ} {e : ℤ} (hm : 0 < m) :
    Nonnegative (UnpackedFloat.div .binary64 u (.finite .positive m e hm)) := by
  cases hu with
  | infinity => exact .infinity
  | zero => exact .zero
  | finite m₁ e₁ h₁ => exact nonnegative_roundWithAccuracy _ _ _

theorem nonnegative_ofNat (n : ℕ) : Nonnegative (UnpackedFloat.ofNat .binary64 n) := by
  simp only [UnpackedFloat.ofNat, UnpackedFloat.ofInt, UnpackedFloat.normalize]
  split
  · next h => exact absurd (Int.compare_eq_lt.mp h) (by omega)
  · exact .zero
  · exact nonnegative_roundWithAccuracy _ _ _

theorem nonnegative_unpacked_ofScientific (n : ℕ) (k : ℤ) :
    Nonnegative (UnpackedFloat.ofScientific .binary64 n k) := by
  unfold UnpackedFloat.ofScientific
  split_ifs
  · exact .zero
  · exact .infinity
  · exact .zero
  · exact nonnegative_roundWithAccuracy _ _ _
  · exact nonnegative_roundWithAccuracy _ _ _

theorem nonnegative_ofScientific (n p : ℕ) :
    Nonnegative (Float.ofScientific n true p).toModel.unpack := by
  by_cases hfast : n < 2 ^ 53 ∧ p ≤ 22
  · obtain ⟨m, e, hm, hu, -⟩ := of_isTens (isTens_power ⟨p, Nat.lt_succ_of_le hfast.2⟩)
    have hdiv := (nonnegative_ofNat n.toUInt64.toNat).unpack_pack.div (e := e) hm
    rw [Float.ofScientific, dif_pos hfast, if_pos rfl, div_def]
    exact (hu ▸ hdiv).unpack_pack
  · rw [Float.ofScientific, dif_neg hfast]
    exact (nonnegative_unpacked_ofScientific n _).unpack_pack

theorem read?_eq_some_iff {cs : List Char} {x : Float} : read? cs = some x ↔
    isLiteral cs = true ∧ Float.ofScientific (digitsValue cs) true (places cs) = x := by
  unfold read?
  split
  · next h => simp [h]
  · next h => simp [h]

theorem nonnegative_of_read? {cs : List Char} {x : Float} (h : read? cs = some x) :
    Nonnegative x.toModel.unpack := by
  obtain ⟨-, rfl⟩ := read?_eq_some_iff.mp h
  exact nonnegative_ofScientific _ _

end Calculator.Number
