import Calculator.Proofs.Number.Rounding

/-! # Exact values of operations

What products, quotients and conversions round is the exact value of the operation.
-/
namespace Calculator.Number
open Float.Model Float.Model.UnpackedFloat

theorem fits_accuracyOfFraction (n : ℕ) {d : ℕ} (hd : 0 < d) :
    Fits (accuracyOfFraction (n % d) d) ((n : ℚ) / d - (n / d : ℕ)) := by
  have hd' : (0 : ℚ) < d := by exact_mod_cast hd
  have hf : (n : ℚ) / d - (n / d : ℕ) = (n % d : ℕ) / d := by
    have hn : (n : ℚ) = d * (n / d : ℕ) + (n % d : ℕ) := by
      exact_mod_cast (Nat.div_add_mod n d).symm
    rw [eq_div_iff hd'.ne', sub_mul, div_mul_cancel₀ _ hd'.ne']
    linarith
  have hlt : ((n % d : ℕ) : ℚ) < d := by exact_mod_cast Nat.mod_lt n hd
  rw [hf]
  generalize n % d = rest at hlt
  unfold accuracyOfFraction
  by_cases h0 : rest = 0
  · simp [h0, Fits]
  · have hpos : (0 : ℚ) < rest := by exact_mod_cast Nat.pos_of_ne_zero h0
    rw [if_neg h0]
    rcases Nat.lt_trichotomy (2 * rest) d with h | h | h
    · have h' : (2 : ℚ) * rest < d := by exact_mod_cast h
      rw [Nat.compare_eq_lt.mpr h, Fits, ← mul_div_assoc, div_lt_one hd']
      exact ⟨div_pos hpos hd', h'⟩
    · have h' : (2 : ℚ) * rest = d := by exact_mod_cast h
      rw [Nat.compare_eq_eq.mpr h, Fits, ← mul_div_assoc, h', div_self hd'.ne']
    · have h' : (d : ℚ) < 2 * rest := by exact_mod_cast h
      rw [Nat.compare_eq_gt.mpr h, Fits, ← mul_div_assoc, one_lt_div hd', div_lt_one hd']
      exact ⟨h', hlt⟩

theorem between_ends (m : ℕ) (e : ℤ) : lowEnd m e < m * 2 ^ e ∧ m * 2 ^ e < highEnd m e := by
  have hpos : (0 : ℚ) < 2 ^ (e - 2) := by positivity
  obtain ⟨b, hb, hends⟩ := lowEnd_eq m e
  have hb' : 0 < b := by rcases hb with rfl | rfl <;> norm_num
  have hv : (m : ℚ) * 2 ^ e = 4 * m * 2 ^ (e - 2) := by
    rw [two_zpow_eq]
    ring
  rw [hends, highEnd, hv]
  constructor
  · gcongr
    linarith
  · gcongr
    linarith

/-- A number is nearest to itself. -/
theorem RoundsTo.refl (m : ℕ) (e : ℤ) : RoundsTo (m * 2 ^ e) m e := by
  obtain ⟨hlow, hhigh⟩ := between_ends m e
  exact ⟨hlow.le, hhigh.le, fun _ => ⟨hlow, hhigh⟩⟩

theorem totalExponent_gt {m : ℕ} (k : ℤ) : (m : ℚ) * 2 ^ k < 2 ^ totalExponent m k := by
  have hlt : (m : ℚ) < 2 ^ (m.log2 + 1) := by exact_mod_cast Nat.lt_log2_self
  have htotal : totalExponent m k = ((m.log2 + 1 : ℕ) : ℤ) + k := by
    simp [totalExponent]
  rw [htotal, zpow_add₀ two_ne_zero, zpow_natCast]
  gcongr

theorem totalExponent_sub_one_le {m : ℕ} (hm : m ≠ 0) (k : ℤ) :
    (2 : ℚ) ^ (totalExponent m k - 1) ≤ m * 2 ^ k := by
  have hle : (2 : ℚ) ^ m.log2 ≤ m := by exact_mod_cast Nat.log2_self_le hm
  have htotal : totalExponent m k - 1 = (m.log2 : ℤ) + k := by
    simp only [totalExponent]
    omega
  rw [htotal, zpow_add₀ two_ne_zero, zpow_natCast]
  gcongr

/-- Enough digits of a quotient are computed to round it. -/
theorem le_targetExponent_quotient {m₁ m₂ n : ℕ} {e₁ e₂ T : ℤ} (h₁ : 0 < m₁) (h₂ : 0 < m₂)
    (hv : (m₁ : ℚ) * 2 ^ e₁ / (m₂ * 2 ^ e₂) = n / m₂ * 2 ^ T)
    (hT : T ≤ Format.binary64.targetExponent (totalExponent m₁ e₁ - totalExponent m₂ e₂)) :
    T ≤ Format.binary64.targetExponent (totalExponent (n / m₂) T) := by
  have h₁' : (0 : ℚ) < m₁ := by exact_mod_cast h₁
  have h₂' : (0 : ℚ) < m₂ := by exact_mod_cast h₂
  have hlow := totalExponent_sub_one_le h₁.ne' e₁
  have hhigh := totalExponent_gt (m := m₂) e₂
  rw [targetExponent_eq] at *
  rcases le_or_gt T (-1074) with hmin | hmin
  · omega
  · have hq : (n : ℚ) / m₂ < (n / m₂ : ℕ) + 1 := by
      have hfits := (fits_accuracyOfFraction n h₂).bounds
      linarith [hfits.2]
    have hlt : (2 : ℚ) ^ (totalExponent m₁ e₁ - totalExponent m₂ e₂ - 1) <
        ((n / m₂ : ℕ) + 1) * 2 ^ T := by
      calc (2 : ℚ) ^ (totalExponent m₁ e₁ - totalExponent m₂ e₂ - 1)
          = 2 ^ (totalExponent m₁ e₁ - 1) / 2 ^ totalExponent m₂ e₂ := by
            rw [← zpow_sub₀ two_ne_zero]
            congr 1
            omega
        _ ≤ m₁ * 2 ^ e₁ / 2 ^ totalExponent m₂ e₂ := by gcongr
        _ < m₁ * 2 ^ e₁ / (m₂ * 2 ^ e₂) := by gcongr
        _ = n / m₂ * 2 ^ T := hv
        _ < ((n / m₂ : ℕ) + 1) * 2 ^ T := by gcongr
    have htotal := lt_totalExponent (by omega) hlt
    omega

/-- A quotient is rounded once. -/
theorem div_eq {m₁ m₂ m : ℕ} {e₁ e₂ e : ℤ} (h₁ : 0 < m₁) (h₂ : 0 < m₂) (hc : Canonical m e)
    (h : RoundsTo (m₁ * 2 ^ e₁ / (m₂ * 2 ^ e₂)) m e) (s₁ s₂ : Sign) :
    UnpackedFloat.div .binary64 (.finite s₁ m₁ e₁ h₁) (.finite s₂ m₂ e₂ h₂) =
      .finite (s₁ / s₂) m e hc.pos := by
  have h₂' : (0 : ℚ) < m₂ := by exact_mod_cast h₂
  obtain ⟨T, hT⟩ : ∃ T, T = min (e₁ - e₂)
      (Format.binary64.targetExponent (totalExponent m₁ e₁ - totalExponent m₂ e₂)) := ⟨_, rfl⟩
  obtain ⟨n, hn⟩ : ∃ n, n = m₁ <<< (e₁ - e₂ - T).toNat := ⟨_, rfl⟩
  have hv : (m₁ : ℚ) * 2 ^ e₁ / (m₂ * 2 ^ e₂) = n / m₂ * 2 ^ T := by
    have hexp : (2 : ℚ) ^ (e₁ - e₂ - T).toNat = 2 ^ e₁ / 2 ^ e₂ / 2 ^ T := by
      rw [← zpow_natCast, Int.toNat_of_nonneg (by omega), zpow_sub₀ two_ne_zero,
        zpow_sub₀ two_ne_zero]
    rw [hn, Nat.shiftLeft_eq]
    push_cast
    rw [hexp]
    field_simp
  have hle := le_targetExponent_quotient h₁ h₂ hv (by omega)
  simp only [UnpackedFloat.div, divCore, ← hT, ← hn]
  exact roundWithAccuracy_eq h hc (fits_accuracyOfFraction n h₂) hv hle _

/-- A value that is already known exactly is rounded once. -/
theorem roundWithAccuracy_exact {q m : ℕ} {k e : ℤ} (hc : Canonical m e)
    (h : RoundsTo (q * 2 ^ k) m e)
    (hk : k ≤ Format.binary64.targetExponent (totalExponent q k)) (s : Sign) :
    roundWithAccuracy .binary64 s q k .exact = .finite s m e hc.pos := by
  have hfits : Fits .exact ((q : ℚ) - q) := sub_self _
  exact roundWithAccuracy_eq h hc hfits rfl hk s

theorem totalExponent_shiftLeft {q : ℕ} (hq : q ≠ 0) (n : ℕ) (k : ℤ) :
    totalExponent (q <<< n) (k - n) = totalExponent q k := by
  have hlog : (q <<< n).log2 = q.log2 + n := by
    rw [Nat.log2_eq_iff (by simp [hq]), Nat.shiftLeft_eq, pow_add, pow_succ, pow_add,
      mul_right_comm]
    obtain ⟨h1, h2⟩ := (Nat.log2_eq_iff hq).mp rfl
    constructor
    · gcongr
    · rw [pow_succ] at h2
      gcongr
  simp only [totalExponent, hlog]
  omega

theorem shiftLeft_value (q n : ℕ) (k : ℤ) : ((q <<< n : ℕ) : ℚ) * 2 ^ (k - n) = q * 2 ^ k := by
  rw [Nat.shiftLeft_eq, zpow_sub₀ two_ne_zero, zpow_natCast]
  push_cast
  field_simp

theorem round_eq {q m : ℕ} {k e : ℤ} (hq : q ≠ 0) (hc : Canonical m e)
    (h : RoundsTo (q * 2 ^ k) m e) (s : Sign) :
    UnpackedFloat.round .binary64 s q k = .finite s m e hc.pos := by
  obtain ⟨n, hn⟩ : ∃ n, n = (k - Format.binary64.targetExponent (totalExponent q k)).toNat :=
    ⟨_, rfl⟩
  have htotal := totalExponent_shiftLeft hq n k
  rw [← shiftLeft_value q n k] at h
  simp only [UnpackedFloat.round, decreaseExponent, ← hn]
  apply roundWithAccuracy_exact hc h
  rw [htotal]
  omega

theorem mul_eq {m₁ m₂ m : ℕ} {e₁ e₂ e : ℤ} (h₁ : 0 < m₁) (h₂ : 0 < m₂) (hc : Canonical m e)
    (h : RoundsTo (m₁ * 2 ^ e₁ * (m₂ * 2 ^ e₂)) m e)
    (hk : e₁ + e₂ ≤ Format.binary64.targetExponent (totalExponent (m₁ * m₂) (e₁ + e₂)))
    (s₁ s₂ : Sign) :
    UnpackedFloat.mul .binary64 (.finite s₁ m₁ e₁ h₁) (.finite s₂ m₂ e₂ h₂) =
      .finite (s₁ * s₂) m e hc.pos := by
  apply roundWithAccuracy_exact hc _ hk
  rw [zpow_add₀ two_ne_zero]
  push_cast
  rwa [mul_mul_mul_comm] at h

/-- The integers below `2 ^ 53` are numbers. -/
theorem exists_canonical {n : ℕ} (h0 : 0 < n) (hn : n < 2 ^ 53) :
    ∃ m e, Canonical m e ∧ (m : ℚ) * 2 ^ e = n := by
  have hlog := (Nat.log2_lt h0.ne').mpr hn
  obtain ⟨hlow, hhigh⟩ := (Nat.log2_eq_iff h0.ne').mp rfl
  obtain ⟨d, hd⟩ := Nat.exists_eq_add_of_le (Nat.le_of_lt_succ hlog)
  have hlow' : 2 ^ 52 ≤ n <<< d := by
    rw [hd, pow_add, Nat.shiftLeft_eq]
    gcongr
  have hhigh' : n <<< d < 2 ^ 53 := by
    rw [show 53 = n.log2 + 1 + d by omega, pow_add, Nat.shiftLeft_eq]
    gcongr
  refine ⟨n <<< d, 0 - d, ⟨by omega, hhigh', by omega, by omega, .inl hlow'⟩, ?_⟩
  rw [shiftLeft_value]
  simp

end Calculator.Number
