import Calculator.Number.Remainder
import Calculator.Proofs.Number.Literal

/-! # Integers among the numbers

The integers up to `2 ^ 53` are numbers, so sums, differences, products and remainders of numbers
that stand for integers are not rounded as long as they stay below.
-/
namespace Calculator.Number
open Float.Model Float.Model.UnpackedFloat

inductive Stands : UnpackedFloat → ℤ → Prop
  | zero (s : Sign) : Stands (.zero s) 0
  | finite (s : Sign) {m k : ℕ} {e : ℤ} (hc : Canonical m e) (hv : (m : ℚ) * 2 ^ e = k) :
      Stands (.finite s m e hc.pos) (s.apply k)

/-- The number is an integer; a zero of either sign is 0. -/
def Represents (x : Float) (n : ℤ) : Prop := Stands x.toModel.unpack n

theorem natAbs_apply (s : Sign) (k : ℕ) : (s.apply k).natAbs = k := by
  cases s <;> simp [Sign.apply]

theorem exists_apply (n : ℤ) : ∃ s : Sign, n = s.apply n.natAbs := by
  rcases le_total 0 n with h | h
  · refine ⟨.positive, ?_⟩
    simp only [Sign.apply]
    omega
  · refine ⟨.negative, ?_⟩
    simp only [Sign.apply]
    omega

theorem apply_mul (s t : Sign) (k l : ℕ) :
    s.apply k * t.apply l = (s * t).apply (k * l : ℕ) := by
  cases s <;> cases t
  · simp only [Sign.apply, neg_mul_neg, ← Nat.cast_mul]
  · simp only [Sign.apply, neg_mul, ← Nat.cast_mul]
  · simp only [Sign.apply, mul_neg, ← Nat.cast_mul]
  · simp only [Sign.apply, ← Nat.cast_mul]

/-- A remainder has the sign of the dividend. -/
theorem apply_tmod (s t : Sign) (k l : ℕ) :
    (s.apply k).tmod (t.apply l) = s.apply (k % l : ℕ) := by
  have hmod : (k : ℤ).tmod l = (k % l : ℕ) := (Int.ofNat_tmod k l).symm
  cases s <;> cases t
  · simp only [Sign.apply, Int.neg_tmod, Int.tmod_neg, hmod]
  · simp only [Sign.apply, Int.neg_tmod, hmod]
  · simp only [Sign.apply, Int.tmod_neg, hmod]
  · simp only [Sign.apply, hmod]

theorem sub_apply (t : Sign) (k : ℕ) : 0 - t.apply k = (-t).apply k := by
  cases t
  · simp only [Sign.apply, zero_sub, neg_neg]
  · simp only [Sign.apply, zero_sub]

/-- A sign passes from a mantissa to the value. -/
theorem apply_value {q k : ℕ} {e : ℤ} (h : (q : ℚ) * 2 ^ e = k) (s : Sign) :
    ((s.apply q : ℤ) : ℚ) * 2 ^ e = (s.apply k : ℤ) := by
  cases s
  · simp only [Sign.apply, Int.cast_neg, Int.cast_natCast, neg_mul, h]
  · simpa only [Sign.apply, Int.cast_natCast] using h

/-- The value of a mantissa that is given more digits. -/
theorem aligned_value {m k : ℕ} {e E : ℤ} (hE : E ≤ e) (h : (m : ℚ) * 2 ^ e = k) :
    ((m <<< (e - E).toNat : ℕ) : ℚ) * 2 ^ E = k := by
  have hexp : e - ((e - E).toNat : ℤ) = E := by omega
  rw [← h, ← shiftLeft_value m (e - E).toNat e, hexp]

theorem pos_of_value {m k : ℕ} {e : ℤ} (hm : 0 < m) (h : (m : ℚ) * 2 ^ e = k) : 0 < k := by
  have hpos : (0 : ℚ) < m * 2 ^ e := by positivity
  rw [h] at hpos
  exact_mod_cast hpos

/-- A number whose value is an integer has all digits of its mantissa. -/
theorem Canonical.normal_of_value {m k : ℕ} {e : ℤ} (hc : Canonical m e)
    (h : (m : ℚ) * 2 ^ e = k) : 2 ^ 52 ≤ m := by
  rcases hc.normal with hm | rfl
  · exact hm
  · have hk : (1 : ℚ) ≤ k := by exact_mod_cast pos_of_value hc.pos h
    have hlt : (m : ℚ) < 2 ^ 53 := by exact_mod_cast hc.lt
    have hsmall : (m : ℚ) * 2 ^ (-1074 : ℤ) < 1 := by
      calc (m : ℚ) * 2 ^ (-1074 : ℤ) < 2 ^ 53 * 2 ^ (-1074 : ℤ) := by gcongr
        _ = 2 ^ (-1021 : ℤ) := by
            rw [← zpow_natCast, ← zpow_add₀ two_ne_zero]
            norm_num
        _ ≤ 1 := zpow_le_one_of_nonpos₀ one_le_two (by norm_num)
    rw [h] at hsmall
    exact absurd hsmall (not_lt.mpr hk)

/-- The integers up to `2 ^ 53` are numbers. -/
theorem exists_canonical_le {n : ℕ} (h0 : 0 < n) (hn : n ≤ 2 ^ 53) :
    ∃ m e, Canonical m e ∧ (m : ℚ) * 2 ^ e = n := by
  rcases hn.lt_or_eq with hlt | rfl
  · exact exists_canonical h0 hlt
  · refine ⟨2 ^ 52, 1, ⟨by norm_num, by norm_num, by norm_num, by norm_num, .inl le_rfl⟩, ?_⟩
    norm_num

theorem Stands.pack {u : UnpackedFloat} {n : ℤ} (h : Stands u n) :
    Stands (Float.Model.pack u).unpack n := by
  cases h with
  | zero s =>
    cases s
    · exact .zero .negative
    · exact .zero .positive
  | finite s hc hv =>
    rw [unpack_pack hc s]
    exact .finite s hc hv

/-- An integer that is already known exactly stays as it is. -/
theorem stands_round {q k : ℕ} {e : ℤ} (hq : 0 < q) (hk : k ≤ 2 ^ 53)
    (h : (q : ℚ) * 2 ^ e = k) (s : Sign) : Stands (.round .binary64 s q e) (s.apply k) := by
  obtain ⟨m, e', hc, hv⟩ := exists_canonical_le (pos_of_value hq h) hk
  have hround : RoundsTo ((q : ℚ) * 2 ^ e) m e' := by
    rw [h, ← hv]
    exact .refl m e'
  rw [round_eq hq.ne' hc hround]
  exact .finite s hc hv

theorem normalize_apply {q : ℕ} (hq : 0 < q) (e : ℤ) (s t : Sign) :
    UnpackedFloat.normalize .binary64 (s.apply q) e t = .round .binary64 s q e := by
  simp only [UnpackedFloat.normalize]
  cases s
  · have hneg : -(q : ℤ) < 0 := by omega
    simp only [Sign.apply, Int.compare_eq_lt.mpr hneg, neg_neg, Int.toNat_natCast]
  · have hpos : (0 : ℤ) < q := by omega
    simp only [Sign.apply, Int.compare_eq_gt.mpr hpos, Int.toNat_natCast]

theorem stands_normalize {z e n : ℤ} (hn : n.natAbs ≤ 2 ^ 53) (h : (z : ℚ) * 2 ^ e = n)
    (t : Sign) : Stands (.normalize .binary64 z e t) n := by
  by_cases hz : z = 0
  · subst hz
    have hn0 : n = 0 := by
      rw [Int.cast_zero, zero_mul] at h
      exact_mod_cast h.symm
    rw [hn0]
    exact .zero t
  · have habs : ((z.natAbs : ℕ) : ℚ) * 2 ^ e = (n.natAbs : ℕ) := by
      have hpos : (0 : ℚ) < 2 ^ e := by positivity
      rw [Nat.cast_natAbs, Nat.cast_natAbs, Int.cast_abs, Int.cast_abs, ← h, abs_mul,
        abs_of_pos hpos]
    obtain ⟨s, hs⟩ := exists_apply z
    have hns : n = s.apply n.natAbs := by
      have hvalue := apply_value habs s
      rw [← hs, h] at hvalue
      exact_mod_cast hvalue
    have hq : 0 < z.natAbs := Int.natAbs_pos.mpr hz
    have hround := stands_round hq hn habs s
    rw [← normalize_apply hq e s t, ← hs, ← hns] at hround
    exact hround

namespace Stands
variable {u v : UnpackedFloat} {a b : ℤ}

theorem add (hu : Stands u a) (hv : Stands v b) (h : (a + b).natAbs ≤ 2 ^ 53) :
    Stands (UnpackedFloat.add .binary64 u v) (a + b) := by
  cases hu with
  | zero s =>
    cases hv with
    | zero t => cases s <;> cases t <;> exact .zero _
    | finite t hc hk =>
      rw [zero_add]
      exact .finite t hc hk
  | @finite s m₁ k₁ e₁ hc₁ hk₁ =>
    cases hv with
    | zero t =>
      rw [add_zero]
      exact .finite s hc₁ hk₁
    | @finite t m₂ k₂ e₂ hc₂ hk₂ =>
      have h₁ := apply_value (aligned_value (min_le_left e₁ e₂) hk₁) s
      have h₂ := apply_value (aligned_value (min_le_right e₁ e₂) hk₂) t
      apply stands_normalize h
      rw [Int.cast_add, Int.cast_add, add_mul, ← h₁, ← h₂]

theorem sub (hu : Stands u a) (hv : Stands v b) (h : (a - b).natAbs ≤ 2 ^ 53) :
    Stands (UnpackedFloat.sub .binary64 u v) (a - b) := by
  cases hu with
  | zero s =>
    cases hv with
    | zero t => cases s <;> cases t <;> exact .zero _
    | @finite t m k e hc hk =>
      rw [sub_apply]
      exact .finite (-t) hc hk
  | @finite s m₁ k₁ e₁ hc₁ hk₁ =>
    cases hv with
    | zero t =>
      rw [sub_zero]
      exact .finite s hc₁ hk₁
    | @finite t m₂ k₂ e₂ hc₂ hk₂ =>
      have h₁ := apply_value (aligned_value (min_le_left e₁ e₂) hk₁) s
      have h₂ := apply_value (aligned_value (min_le_right e₁ e₂) hk₂) t
      apply stands_normalize h
      rw [Int.cast_sub, Int.cast_sub, sub_mul, ← h₁, ← h₂]

theorem mul (hu : Stands u a) (hv : Stands v b) (h : (a * b).natAbs ≤ 2 ^ 53) :
    Stands (UnpackedFloat.mul .binary64 u v) (a * b) := by
  cases hu with
  | zero s =>
    rw [zero_mul]
    cases hv <;> exact .zero _
  | @finite s m₁ k₁ e₁ hc₁ hk₁ =>
    cases hv with
    | zero t =>
      rw [mul_zero]
      exact .zero _
    | @finite t m₂ k₂ e₂ hc₂ hk₂ =>
      have hvalue : (m₁ : ℚ) * 2 ^ e₁ * (m₂ * 2 ^ e₂) = (k₁ * k₂ : ℕ) := by
        rw [hk₁, hk₂, Nat.cast_mul]
      rw [apply_mul, natAbs_apply] at h
      have hpos : 0 < k₁ * k₂ := Nat.mul_pos (pos_of_value hc₁.pos hk₁) (pos_of_value hc₂.pos hk₂)
      obtain ⟨m, e, hc, hv⟩ := exists_canonical_le hpos h
      have hround : RoundsTo ((m₁ : ℚ) * 2 ^ e₁ * (m₂ * 2 ^ e₂)) m e := by
        rw [hvalue, ← hv]
        exact .refl m e
      -- The product of two full mantissas has more digits than are kept.
      have hdigits : 52 ≤ (m₁ * m₂).log2 := by
        rw [Nat.le_log2 (Nat.mul_pos hc₁.pos hc₂.pos).ne']
        exact (hc₁.normal_of_value hk₁).trans (Nat.le_mul_of_pos_right m₁ hc₂.pos)
      have hle : e₁ + e₂ ≤ Format.binary64.targetExponent (totalExponent (m₁ * m₂) (e₁ + e₂)) := by
        rw [targetExponent_eq, totalExponent]
        omega
      rw [mul_eq hc₁.pos hc₂.pos hc hround hle, apply_mul]
      exact .finite _ hc hv

end Stands

/-- The remainder of mantissas at the same exponent is that of the values. -/
theorem mod_value {p q k l : ℕ} {e : ℤ} (hp : (p : ℚ) * 2 ^ e = k) (hq : (q : ℚ) * 2 ^ e = l)
    (h0 : 0 < q) : ((p % q : ℕ) : ℚ) * 2 ^ e = (k % l : ℕ) := by
  have hpos : (0 : ℚ) < 2 ^ e := by positivity
  have hsplit : (k : ℚ) = l * (p / q : ℕ) + (p % q : ℕ) * 2 ^ e := by
    have hdiv : (p : ℚ) = q * (p / q : ℕ) + (p % q : ℕ) := by
      exact_mod_cast (Nat.div_add_mod p q).symm
    rw [← hp, ← hq]
    nth_rewrite 1 [hdiv]
    ring
  have hle : l * (p / q) ≤ k := by
    have hnonneg : (0 : ℚ) ≤ (p % q : ℕ) * 2 ^ e := by positivity
    have hle' : ((l * (p / q) : ℕ) : ℚ) ≤ k := by
      rw [hsplit, Nat.cast_mul]
      linarith
    exact_mod_cast hle'
  obtain ⟨r, hr⟩ := Nat.exists_eq_add_of_le hle
  have hrest : ((p % q : ℕ) : ℚ) * 2 ^ e = r := by
    rw [hr, Nat.cast_add, Nat.cast_mul] at hsplit
    linarith
  have hlt : r < l := by
    have hlt' : (r : ℚ) < l := by
      rw [← hrest, ← hq]
      have hmod : ((p % q : ℕ) : ℚ) < q := by exact_mod_cast Nat.mod_lt p h0
      gcongr
    exact_mod_cast hlt'
  rw [hrest, hr, Nat.mul_add_mod, Nat.mod_eq_of_lt hlt]

namespace Represents
variable {x y : Float} {a b : ℤ}

theorem add (hx : Represents x a) (hy : Represents y b) (h : (a + b).natAbs ≤ 2 ^ 53) :
    Represents (x + y) (a + b) := (Stands.add hx hy h).pack

theorem sub (hx : Represents x a) (hy : Represents y b) (h : (a - b).natAbs ≤ 2 ^ 53) :
    Represents (x - y) (a - b) := (Stands.sub hx hy h).pack

theorem mul (hx : Represents x a) (hy : Represents y b) (h : (a * b).natAbs ≤ 2 ^ 53) :
    Represents (x * y) (a * b) := (Stands.mul hx hy h).pack

theorem remainder (hx : Represents x a) (hy : Represents y b) (hb : b ≠ 0)
    (h : (a.tmod b).natAbs ≤ 2 ^ 53) : Represents (remainder x y) (a.tmod b) := by
  have hx' := hx
  unfold Represents at hx' hy
  unfold Number.remainder
  generalize x.toModel.unpack = u at hx'
  generalize y.toModel.unpack = v at hy
  cases hy with
  | zero t => exact absurd rfl hb
  | @finite t m₂ k₂ e₂ hc₂ hk₂ =>
    cases hx' with
    | zero s =>
      rw [Int.zero_tmod]
      exact hx
    | @finite s m₁ k₁ e₁ hc₁ hk₁ =>
      have h₁ := aligned_value (min_le_left e₁ e₂) hk₁
      have h₂ := aligned_value (min_le_right e₁ e₂) hk₂
      have hpos : 0 < m₂ <<< (e₂ - min e₁ e₂).toNat := by
        rw [Nat.shiftLeft_eq]
        exact Nat.mul_pos hc₂.pos (by positivity)
      have hmod := mod_value h₁ h₂ hpos
      rw [apply_tmod, natAbs_apply] at h
      rw [apply_tmod]
      apply Stands.pack
      generalize m₁ <<< (e₁ - min e₁ e₂).toNat % m₂ <<< (e₂ - min e₁ e₂).toNat = r at hmod
      split
      · next hr =>
        have hk : k₁ % k₂ = 0 := by
          rw [hr, Nat.cast_zero, zero_mul] at hmod
          exact_mod_cast hmod.symm
        have hzero : s.apply (k₁ % k₂ : ℕ) = 0 := by
          rw [← Int.natAbs_eq_zero, natAbs_apply, hk]
        rw [hzero]
        exact .zero s
      · next hr => exact stands_round (Nat.pos_of_ne_zero hr) h hmod s

variable {n : ℤ}

theorem isNaN (h : Represents x n) : x.isNaN = false := by
  have hnan : x.isNaN = x.toModel.unpack.isNaN := rfl
  rw [hnan]
  unfold Represents at h
  generalize x.toModel.unpack = u at h
  cases h <;> rfl

theorem beq_zero (h : Represents x n) : (x == 0) = true ↔ n = 0 := by
  have hzero : (0 : Float).toModel.unpack = .zero .positive := rfl
  have hbeq : (x == 0) = x.toModel.unpack.beq (0 : Float).toModel.unpack := rfl
  rw [hbeq, hzero]
  unfold Represents at h
  generalize x.toModel.unpack = u at h
  cases h with
  | zero s => cases s <;> exact ⟨fun _ => rfl, fun _ => rfl⟩
  | @finite s m k e hc hk =>
    have hne : s.apply k ≠ 0 := by
      rw [← Int.natAbs_ne_zero, natAbs_apply]
      exact (pos_of_value hc.pos hk).ne'
    have hfalse : (UnpackedFloat.finite s m e hc.pos).beq (.zero .positive) = false := by
      cases s <;> rfl
    rw [hfalse]
    exact ⟨fun h => absurd h (by decide), fun h => absurd h hne⟩

end Represents

/-- The digits of an integer up to `2 ^ 53` are read as this integer. -/
theorem represents_of_digits {cs : List Char} (hne : cs ≠ []) (hcs : ∀ c ∈ cs, c.isDigit = true)
    (h : digitsValue cs ≤ 2 ^ 53) : ∃ x, read? cs = some x ∧ Represents x (digitsValue cs) := by
  have hread := read?_eq_some_iff.mpr ⟨isLiteral_digits hcs hne, rfl⟩
  rw [places_digits hcs] at hread
  refine ⟨_, hread, ?_⟩
  generalize digitsValue cs = n at h
  rcases Nat.eq_zero_or_pos n with rfl | hpos
  · have hzero : (Float.ofScientific 0 true 0).toModel.unpack = .zero .positive := rfl
    unfold Represents
    rw [hzero]
    exact .zero .positive
  · obtain ⟨m, e, hc, hv⟩ := exists_canonical_le hpos h
    have hround : RoundsTo ((n : ℚ) / 10 ^ 0) m e := by
      rw [pow_zero, div_one, ← hv]
      exact .refl m e
    rw [ofScientific_eq hc hround]
    exact (Stands.finite .positive hc hv).pack

end Calculator.Number
