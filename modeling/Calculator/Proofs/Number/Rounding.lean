import Calculator.Proofs.Number.Packed

/-! # Rounding

Every operation on numbers rounds its exact value to the nearest number.  A shifted mantissa keeps
two bits that tell how far the exact value lies above it, which is enough to round it once.  So a
value that lies nearer to a number than to all others becomes that number.
-/
namespace Calculator.Number
open Float.Model Float.Model.UnpackedFloat

def Fits : Accuracy → ℚ → Prop
  | .exact, f => f = 0
  | .inexact .lt, f => 0 < f ∧ 2 * f < 1
  | .inexact .eq, f => 2 * f = 1
  | .inexact .gt, f => 1 < 2 * f ∧ f < 1

theorem Fits.bounds {a : Accuracy} {f : ℚ} (h : Fits a f) : 0 ≤ f ∧ f < 1 := by
  rcases a with _ | o
  · simp only [Fits] at h
    grind
  · cases o <;> simp only [Fits] at h <;> grind

def Approximates (em : ExtendedMantissa) (r : ℚ) : Prop := Fits em.accuracy (r - em.mantissa)

theorem approximates_iff {q : Nat} {a : Accuracy} {r : ℚ} :
    Approximates (.ofMantissaAndAccuracy q a) r ↔ Fits a (r - q) := by
  rcases a with _ | o
  · rfl
  · cases o <;> rfl

namespace Approximates

variable {em : ExtendedMantissa} {r : ℚ}

theorem bounds (h : Approximates em r) : em.mantissa ≤ r ∧ r < em.mantissa + 1 := by
  obtain ⟨hlow, hhigh⟩ := Fits.bounds h
  constructor <;> linarith

theorem shiftRightOne (h : Approximates em (2 * r)) : Approximates em.shiftRightOne r := by
  rcases em with ⟨m, round, sticky⟩
  have hm : (m : ℚ) = 2 * (m / 2 : ℕ) + (m % 2 : ℕ) := by exact_mod_cast (Nat.div_add_mod m 2).symm
  -- The bit that is shifted out becomes the round bit, and the old round bit joins the sticky one.
  unfold Approximates ExtendedMantissa.shiftRightOne at *
  dsimp only at *
  rcases Nat.mod_two_eq_zero_or_one m with hpar | hpar <;> rw [hpar] at hm ⊢ <;> cases round <;>
    cases sticky <;> simp [Fits, ExtendedMantissa.accuracy] at h ⊢ <;> grind

theorem shiftRight {n : ℕ} (h : Approximates em (2 ^ n * r)) : Approximates (em >>> n) r := by
  change Approximates (n.repeat ExtendedMantissa.shiftRightOne em) r
  induction n generalizing r with
  | zero => simpa [Nat.repeat] using h
  | succ n ih =>
    rw [pow_succ, mul_assoc] at h
    exact (ih h).shiftRightOne

/-- The mantissa is rounded to the nearest integer, and between two of them to the even one. -/
theorem roundedMantissa_eq {n : ℕ} (h : Approximates em r) (hlow : n ≤ r + 1 / 2)
    (hhigh : r ≤ n + 1 / 2) (htie : n % 2 = 1 → n < r + 1 / 2 ∧ r < n + 1 / 2) :
    em.roundedMantissa = n := by
  unfold Approximates at h
  unfold ExtendedMantissa.roundedMantissa
  generalize em.mantissa = m at h ⊢
  generalize em.accuracy = a at h ⊢
  have hle {k l : ℕ} (hk : (k : ℚ) < l + 1) : k ≤ l := by
    have hk' : k < l + 1 := by exact_mod_cast hk
    omega
  rcases a with _ | o
  · have hm : m = n := by
      simp only [Fits] at h
      exact le_antisymm (hle (by linarith)) (hle (by linarith))
    exact hm
  · cases o with
    | lt =>
      have hm : m = n := by
        simp only [Fits] at h
        exact le_antisymm (hle (by linarith)) (hle (by linarith))
      exact hm
    | eq =>
      simp only [Fits] at h
      have hmn : m ≤ n := hle (by linarith)
      have hnm : n ≤ m + 1 := hle (by push_cast; linarith)
      -- Halfway between two integers the even one is meant, which may be either of them.
      have hpar : n % 2 = 0 := by
        by_contra hodd
        obtain ⟨h1, h2⟩ := htie (by omega)
        have hlt : m < n := by
          have hlt' : (m : ℚ) < n := by linarith
          exact_mod_cast hlt'
        have hlt : n < m + 1 := by
          have hlt' : (n : ℚ) < m + 1 := by linarith
          exact_mod_cast hlt'
        omega
      simp only [Accuracy.roundToNearestEven]
      omega
    | gt =>
      have hm : m + 1 = n := by
        simp only [Fits] at h
        exact le_antisymm (hle (by push_cast; linarith)) (hle (by push_cast; linarith))
      exact hm

end Approximates

theorem totalExponent_le {q : ℕ} {k n : ℤ} (hq : q ≠ 0) (h : (q : ℚ) * 2 ^ k < 2 ^ n) :
    totalExponent q k ≤ n := by
  have hlog : ((2 ^ q.log2 : ℕ) : ℚ) ≤ q := by exact_mod_cast Nat.log2_self_le hq
  have hlt : (2 : ℚ) ^ ((q.log2 : ℤ) + k) < 2 ^ n := by
    calc (2 : ℚ) ^ ((q.log2 : ℤ) + k) = ((2 ^ q.log2 : ℕ) : ℚ) * 2 ^ k := by
          rw [zpow_add₀ two_ne_zero, zpow_natCast]
          push_cast
          rfl
      _ ≤ q * 2 ^ k := by gcongr
      _ < 2 ^ n := h
  have hexp := (zpow_lt_zpow_iff_right₀ one_lt_two).mp hlt
  unfold totalExponent
  omega

theorem lt_totalExponent {q : ℕ} {k n : ℤ} (hk : k ≤ n) (h : (2 : ℚ) ^ n < (q + 1) * 2 ^ k) :
    n < totalExponent q k := by
  obtain ⟨d, rfl⟩ := Int.le.dest hk
  rw [zpow_add₀ two_ne_zero, mul_comm, zpow_natCast] at h
  have hlt : ((2 ^ d : ℕ) : ℚ) < (q + 1 : ℕ) := by
    push_cast
    exact lt_of_mul_lt_mul_right h (by positivity)
  have hle : 2 ^ d ≤ q := by
    have hlt' : 2 ^ d < q + 1 := by exact_mod_cast hlt
    omega
  have hq : q ≠ 0 := by
    have hpos : 0 < 2 ^ d := by positivity
    omega
  have hlog := (Nat.le_log2 hq).mpr hle
  unfold totalExponent
  omega

/-- The ends of the interval of reals that round to `m · 2 ^ e`, in quarters of `2 ^ e`. -/
def lowEnd (m : ℕ) (e : ℤ) : ℚ :=
  (4 * m - if m = 2 ^ 52 ∧ -1074 < e then 1 else 2) * 2 ^ (e - 2)

def highEnd (m : ℕ) (e : ℤ) : ℚ := (4 * m + 2) * 2 ^ (e - 2)

/-- The value lies nearest to the number `m · 2 ^ e`; the ends of its interval go to an even
mantissa. -/
structure RoundsTo (v : ℚ) (m : ℕ) (e : ℤ) : Prop where
  low : lowEnd m e ≤ v
  high : v ≤ highEnd m e
  odd : m % 2 = 1 → lowEnd m e < v ∧ v < highEnd m e

theorem targetExponent_eq (n : ℤ) : Format.binary64.targetExponent n = max (n - 53) (-1074) := rfl

theorem two_zpow_eq (e : ℤ) : (2 : ℚ) ^ e = 4 * 2 ^ (e - 2) := by
  rw [zpow_sub₀ two_ne_zero]
  norm_num
  ring

theorem two_zpow_add (n : ℕ) (e : ℤ) : (2 : ℚ) ^ ((n : ℤ) + e) = 2 ^ n * (4 * 2 ^ (e - 2)) := by
  rw [zpow_add₀ two_ne_zero, zpow_natCast, two_zpow_eq e]

namespace RoundsTo
variable {v : ℚ} {m : ℕ} {e : ℤ}

theorem lt_two_zpow (h : RoundsTo v m e) (hc : Canonical m e) :
    v < 2 ^ (((53 : ℕ) : ℤ) + e) := by
  have hpos : (0 : ℚ) < 2 ^ (e - 2) := by positivity
  have hm : (m : ℚ) + 1 ≤ 2 ^ 53 := by exact_mod_cast hc.lt
  calc v ≤ (4 * m + 2) * 2 ^ (e - 2) := h.high
    _ < 4 * 2 ^ 53 * 2 ^ (e - 2) := by
        gcongr
        linarith
    _ = 2 ^ (((53 : ℕ) : ℤ) + e) := by
        rw [two_zpow_add]
        ring

/-- A value that lies below the binade of its number lies right below a power of two. -/
theorem eq_two_pow (h : RoundsTo v m e) (hm : 2 ^ 52 ≤ m) (he : -1074 < e)
    (hv : v < 2 ^ (((52 : ℕ) : ℤ) + e)) :
    m = 2 ^ 52 ∧ (2 : ℚ) ^ (((51 : ℕ) : ℤ) + e) < v := by
  have hpos : (0 : ℚ) < 2 ^ (e - 2) := by positivity
  have hlow := h.low
  have heq : m = 2 ^ 52 := by
    by_contra hne
    have hge : (2 : ℚ) ^ 52 + 1 ≤ m := by
      have hge' : 2 ^ 52 + 1 ≤ m := by omega
      exact_mod_cast hge'
    rw [two_zpow_add] at hv
    rw [lowEnd, if_neg (fun h => hne h.1)] at hlow
    nlinarith
  refine ⟨heq, ?_⟩
  rw [lowEnd, if_pos ⟨heq, he⟩, heq] at hlow
  rw [two_zpow_add]
  push_cast at hlow
  nlinarith

/-- The exponent to which a value is rounded, if `q` is its quotient by a power of two. -/
theorem targetExponent {r : ℚ} {q : ℕ} {k : ℤ} (h : RoundsTo v m e) (hc : Canonical m e)
    (hq : q ≤ r ∧ r < q + 1) (hv : v = r * 2 ^ k)
    (hk : k ≤ Format.binary64.targetExponent (totalExponent q k)) :
    Format.binary64.targetExponent (totalExponent q k) = e ∨
      Format.binary64.targetExponent (totalExponent q k) = e - 1 ∧ -1074 < e ∧ m = 2 ^ 52 ∧
        v < m * 2 ^ e := by
  rw [targetExponent_eq] at *
  have hmin := hc.low
  have hle : (q : ℚ) * 2 ^ k ≤ v := by
    rw [hv]
    have := hq.1
    gcongr
  have hlt : v < (q + 1) * 2 ^ k := by
    rw [hv]
    have := hq.2
    gcongr
  have hupper {n : ℤ} (hn : v < 2 ^ n) (hn' : -1021 ≤ n) : totalExponent q k ≤ n := by
    by_cases hq0 : q = 0
    · subst hq0
      have htotal : totalExponent 0 k = 1 + k := rfl
      omega
    · exact totalExponent_le hq0 (hle.trans_lt hn)
  have htotal := hupper (h.lt_two_zpow hc) (by omega)
  by_cases he : e = -1074
  · left
    omega
  · by_cases hb : (2 : ℚ) ^ (((52 : ℕ) : ℤ) + e) ≤ v
    · left
      have hlower := lt_totalExponent (by omega) (hb.trans_lt hlt)
      omega
    · -- One binade below, the value is rounded up to the power of two, with one bit more.
      rw [not_le] at hb
      obtain ⟨hm, hlow⟩ := h.eq_two_pow (hc.normal.resolve_right he) (by omega) hb
      have hlower := lt_totalExponent (by omega) (hlow.trans hlt)
      have hupper' := hupper hb (by omega)
      refine .inr ⟨by omega, by omega, hm, ?_⟩
      rw [hm]
      rw [zpow_add₀ two_ne_zero] at hb
      exact_mod_cast hb

end RoundsTo

theorem shiftToTargetExponent_eq {q : ℕ} {k T : ℤ} (a : Accuracy)
    (hT : Format.binary64.targetExponent (totalExponent q k) = T) (hk : k ≤ T) :
    shiftToTargetExponent .binary64 q k a =
      (ExtendedMantissa.ofMantissaAndAccuracy q a >>> (T - k).toNat, T) := by
  rw [shiftToTargetExponent, hT, shiftToExponent, Int.toNat_of_nonneg (by omega)]
  simp

theorem Canonical.targetExponent {m : ℕ} {e : ℤ} (hc : Canonical m e) :
    Format.binary64.targetExponent (totalExponent m e) = e := by
  have hlow := hc.low
  have hlt := (Nat.log2_lt hc.pos.ne').mpr hc.lt
  rw [targetExponent_eq, totalExponent]
  rcases hc.normal with hm | he
  · have hle := (Nat.le_log2 hc.pos.ne').mpr hm
    omega
  · omega

theorem lowEnd_eq (m : ℕ) (e : ℤ) :
    ∃ b : ℚ, (b = 1 ∨ b = 2) ∧ lowEnd m e = (4 * m - b) * 2 ^ (e - 2) := by
  unfold lowEnd
  split
  · exact ⟨1, .inl rfl, rfl⟩
  · exact ⟨2, .inr rfl, rfl⟩

/-- The mantissa to which a value is rounded at the exponent of its number. -/
theorem RoundsTo.roundedMantissa {v : ℚ} {m : ℕ} {e : ℤ} {em : ExtendedMantissa}
    (h : RoundsTo v m e) (hem : Approximates em (v / 2 ^ e)) : em.roundedMantissa = m := by
  have hpos : (0 : ℚ) < 2 ^ (e - 2) := by positivity
  have hlow := h.low
  have hhigh := h.high
  have hodd := h.odd
  obtain ⟨w, hw⟩ : ∃ w, w = v / 2 ^ e := ⟨_, rfl⟩
  have hv : v = 4 * w * 2 ^ (e - 2) := by
    have hpos' : (2 : ℚ) ^ e ≠ 0 := by positivity
    rw [mul_right_comm, ← two_zpow_eq, hw, mul_div_cancel₀ _ hpos']
  obtain ⟨b, hb, hends⟩ := lowEnd_eq m e
  rw [hends, hv] at hlow hodd
  rw [highEnd] at hhigh hodd
  rw [hv] at hhigh
  rw [← hw] at hem
  have hlow' := le_of_mul_le_mul_right hlow hpos
  have hhigh' := le_of_mul_le_mul_right hhigh hpos
  apply hem.roundedMantissa_eq
  · rcases hb with rfl | rfl <;> linarith
  · linarith
  · intro hm
    obtain ⟨h1, h2⟩ := hodd hm
    have h1' := lt_of_mul_lt_mul_right h1 hpos.le
    have h2' := lt_of_mul_lt_mul_right h2 hpos.le
    constructor
    · rcases hb with rfl | rfl <;> linarith
    · linarith

/-- Just below a power of two the mantissa is rounded up to the next power of two. -/
theorem RoundsTo.roundedMantissa_below {v : ℚ} {e : ℤ} {em : ExtendedMantissa}
    (h : RoundsTo v (2 ^ 52) e) (he : -1074 < e) (hlt : v < (2 ^ 52 : ℕ) * 2 ^ e)
    (hem : Approximates em (v / 2 ^ (e - 1))) : em.roundedMantissa = 2 ^ 53 := by
  have hpos : (0 : ℚ) < 2 ^ (e - 2) := by positivity
  have hlow := h.low
  obtain ⟨w, hw⟩ : ∃ w, w = v / 2 ^ (e - 1) := ⟨_, rfl⟩
  have hv : v = 2 * w * 2 ^ (e - 2) := by
    have hpos' : (2 : ℚ) ^ (e - 1) ≠ 0 := by positivity
    have htwo : (2 : ℚ) ^ (e - 1) = 2 * 2 ^ (e - 2) := by
      rw [← zpow_one_add₀ two_ne_zero]
      congr 1
      omega
    rw [mul_right_comm, ← htwo, hw, mul_div_cancel₀ _ hpos']
  rw [lowEnd, if_pos ⟨rfl, he⟩, hv] at hlow
  rw [two_zpow_eq, ← mul_assoc, hv] at hlt
  rw [← hw] at hem
  have hlow' := le_of_mul_le_mul_right hlow hpos
  have hlt' := lt_of_mul_lt_mul_right hlt hpos.le
  push_cast at hlow' hlt'
  apply hem.roundedMantissa_eq
  · push_cast
    linarith
  · push_cast
    linarith
  · intro hodd
    exact absurd hodd (by decide)

/-- A value that lies nearest to a number is rounded to it. -/
theorem roundWithAccuracy_eq {v r : ℚ} {m q : ℕ} {e k : ℤ} {a : Accuracy} (h : RoundsTo v m e)
    (hc : Canonical m e) (hq : Fits a (r - q)) (hv : v = r * 2 ^ k)
    (hk : k ≤ Format.binary64.targetExponent (totalExponent q k)) (s : Sign) :
    roundWithAccuracy .binary64 s q k a = .finite s m e hc.pos := by
  have happrox := approximates_iff.mpr hq
  have hbounds : (q : ℚ) ≤ r ∧ r < q + 1 := by
    obtain ⟨h1, h2⟩ := hq.bounds
    constructor <;> linarith
  have shifted {T : ℤ} (hT : k ≤ T) :
      Approximates (ExtendedMantissa.ofMantissaAndAccuracy q a >>> (T - k).toNat) (v / 2 ^ T) := by
    apply Approximates.shiftRight
    have hr : (2 : ℚ) ^ (T - k).toNat * (v / 2 ^ T) = r := by
      rw [← zpow_natCast, Int.toNat_of_nonneg (by omega), zpow_sub₀ two_ne_zero, hv]
      field_simp
    rw [hr]
    exact happrox
  rcases h.targetExponent hc hbounds hv hk with hT | ⟨hT, he, rfl, hlt⟩
  · have hround := h.roundedMantissa (shifted (hT ▸ hk))
    have hshift := shiftToTargetExponent_eq .exact hc.targetExponent le_rfl
    rw [sub_self] at hshift
    simp only [roundWithAccuracy, shiftToTargetExponent_eq a hT (hT ▸ hk), hround, hshift]
    exact dif_neg hc.pos.ne'
  · have hround := h.roundedMantissa_below he hlt (shifted (hT ▸ hk))
    have hT' : Format.binary64.targetExponent (totalExponent (2 ^ 53) (e - 1)) = e := by
      rw [targetExponent_eq, totalExponent, Nat.log2_two_pow]
      omega
    have hshift := shiftToTargetExponent_eq .exact hT' (by omega)
    rw [show (e - (e - 1)).toNat = 1 by omega] at hshift
    simp only [roundWithAccuracy, shiftToTargetExponent_eq a hT (hT ▸ hk), hround, hshift]
    exact dif_neg hc.pos.ne'

end Calculator.Number
