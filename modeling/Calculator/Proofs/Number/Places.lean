import Calculator.Proofs.Number.Decimal

/-! # Rounding to decimal places

A displayed number is rounded to a natural number of units in its last place, a half going to the
even one.  How many places there are depends on the size of the number; where this number changes, a
power of ten lies between that is a multiple of both units, so rounding keeps the order.
-/
namespace Calculator.Number

structure Nearest (v : ℚ) (n : ℕ) : Prop where
  low : n ≤ v + 1 / 2
  high : v ≤ n + 1 / 2
  odd : n % 2 = 1 → n < v + 1 / 2 ∧ v < n + 1 / 2

namespace Nearest
variable {v w : ℚ} {m n : ℕ}

theorem natCast (n : ℕ) : Nearest n n := by
  constructor
  · linarith
  · linarith
  · intro _
    constructor <;> linarith

/-- Rounding keeps the order. -/
theorem mono (hv : Nearest v m) (hw : Nearest w n) (h : v ≤ w) : m ≤ n := by
  by_contra hlt
  have hlow := hv.low
  have hhigh := hw.high
  have hle : ((n + 1 : ℕ) : ℚ) ≤ m := by exact_mod_cast not_le.mp hlt
  push_cast at hle
  -- Both values lie halfway between two neighbours, one of which is odd.
  have hm : m = n + 1 := by
    have hm' : (m : ℚ) ≤ (n + 1 : ℕ) := by
      push_cast
      linarith
    exact le_antisymm (by exact_mod_cast hm') (not_le.mp hlt)
  rcases Nat.mod_two_eq_zero_or_one n with hn | hn
  · have hodd := (hv.odd (by omega)).1
    linarith
  · have hodd := (hw.odd hn).2
    linarith

theorem le_of_le (hv : Nearest v m) (h : v ≤ n) : m ≤ n := hv.mono (natCast n) h

theorem le_of_ge (hv : Nearest v m) (h : n ≤ v) : n ≤ m := (natCast n).mono hv h

end Nearest

theorem Fraction.round_nearest {r : Fraction} (hr : 0 < r.den) : Nearest r.value r.round := by
  have hr' : (0 : ℚ) < r.den := by exact_mod_cast hr
  obtain ⟨q, hq⟩ : ∃ q, q = r.num / r.den := ⟨_, rfl⟩
  obtain ⟨rest, hrest⟩ : ∃ rest, rest = r.num % r.den := ⟨_, rfl⟩
  have hvalue : r.value = q + rest / r.den := by
    have hnum : (r.num : ℚ) = r.den * q + rest := by
      rw [hq, hrest]
      exact_mod_cast (Nat.div_add_mod r.num r.den).symm
    rw [value, hnum, add_div, mul_div_cancel_left₀ _ hr'.ne']
  have hlow : (0 : ℚ) ≤ rest / r.den := by positivity
  have hhigh : (rest : ℚ) / r.den < 1 := by
    rw [div_lt_one hr', hrest]
    exact_mod_cast Nat.mod_lt _ hr
  have hhalf : 2 * (rest / r.den) * r.den = (2 * rest : ℚ) := by field_simp
  have hsucc : ((q + 1 : ℕ) : ℚ) = q + 1 := Nat.cast_succ q
  have hround : r.round =
      if 2 * rest < r.den ∨ 2 * rest = r.den ∧ q % 2 = 0 then q else q + 1 := by
    rw [hq, hrest]
    rfl
  rw [hround, hvalue]
  generalize (rest : ℚ) / r.den = f at hlow hhigh hhalf
  rcases lt_trichotomy (2 * rest) r.den with h | h | h
  · have hf : 2 * f < 1 := by
      have h' : (2 * rest : ℚ) < 1 * r.den := by
        rw [one_mul]
        exact_mod_cast h
      rw [← hhalf] at h'
      exact lt_of_mul_lt_mul_right h' hr'.le
    rw [if_pos (.inl h)]
    exact ⟨by linarith, by linarith, fun _ => ⟨by linarith, by linarith⟩⟩
  · have hf : 2 * f = 1 := by
      have h' : (2 * rest : ℚ) = 1 * r.den := by
        rw [one_mul]
        exact_mod_cast h
      rw [← hhalf] at h'
      exact mul_right_cancel₀ hr'.ne' h'
    -- Halfway between two neighbours the even one is taken.
    by_cases heven : q % 2 = 0
    · rw [if_pos (.inr ⟨h, heven⟩)]
      exact ⟨by linarith, by linarith, fun hodd => by omega⟩
    · rw [if_neg (by omega)]
      exact ⟨by linarith, by linarith, fun hodd => by omega⟩
  · have hf : 1 < 2 * f := by
      have h' : 1 * (r.den : ℚ) < 2 * rest := by
        rw [one_mul]
        exact_mod_cast h
      rw [← hhalf] at h'
      exact lt_of_mul_lt_mul_right h' hr'.le
    rw [if_neg (by omega)]
    exact ⟨by linarith, by linarith, fun _ => ⟨by linarith, by linarith⟩⟩

/-- How many decimal places of a positive number are displayed: six, or for very large and very
small numbers as many as there are behind six digits after the leading one. -/
inductive Places (q : ℚ) : ℤ → Prop
  | plain (hlow : 1 / 10 ^ 5 ≤ q) (hhigh : q ≤ 10 ^ 10) : Places q 6
  | scientific {top : ℤ} (h : 10 ^ 10 < q ∨ q < 1 / 10 ^ 5) (hlow : 10 ^ top ≤ q)
      (hhigh : q < 10 ^ (top + 1)) : Places q (6 - top)

inductive Rounded (q : ℚ) : ℚ → Prop
  | intro {k : ℤ} {n : ℕ} (hk : Places q k) (hn : Nearest (q * 10 ^ k) n) : Rounded q (n / 10 ^ k)

theorem tenth_eq : (1 : ℚ) / 10 ^ 5 = 10 ^ (-5 : ℤ) := by norm_num

theorem lt_of_ten_zpow_lt {j k : ℤ} (h : (10 : ℚ) ^ j < 10 ^ k) : j < k :=
  (zpow_lt_zpow_iff_right₀ (by norm_num)).mp h

theorem ten_zpow_le {j k : ℤ} (h : j ≤ k) : (10 : ℚ) ^ j ≤ 10 ^ k :=
  zpow_le_zpow_right₀ (by norm_num) h

/-- A power of ten that is a multiple of the last place. -/
theorem exists_grid {j k : ℤ} (h : 0 ≤ j + k) : ∃ n : ℕ, (10 : ℚ) ^ j * 10 ^ k = n := by
  obtain ⟨d, hd⟩ := Int.eq_ofNat_of_zero_le h
  refine ⟨10 ^ d, ?_⟩
  rw [← zpow_add₀ (by norm_num), hd, zpow_natCast]
  push_cast
  rfl

/-- Numbers with different places are parted by a power of ten that is a multiple of both. -/
theorem Places.parted {p q : ℚ} {j k : ℤ} (hp : Places p j) (hq : Places q k) (h : p ≤ q) :
    j = k ∨ ∃ i : ℤ, p ≤ 10 ^ i ∧ 10 ^ i ≤ q ∧ 0 ≤ i + j ∧ 0 ≤ i + k := by
  cases hp with
  | plain hplow hphigh =>
    cases hq with
    | plain => exact .inl rfl
    | @scientific top hextreme hlow hhigh =>
      have hlarge : (10 : ℚ) ^ 10 < q := hextreme.resolve_right (by linarith)
      have htop : 10 < top + 1 := lt_of_ten_zpow_lt (hlarge.trans hhigh)
      refine .inr ⟨top, hphigh.trans ?_, hlow, by omega, by omega⟩
      exact ten_zpow_le (by omega : (10 : ℤ) ≤ top)
  | @scientific top hextreme hlow hhigh =>
    cases hq with
    | plain hqlow hqhigh =>
      have hsmall : p < 1 / 10 ^ 5 := hextreme.resolve_left (by linarith)
      rw [tenth_eq] at hsmall hqlow
      have htop : top < -5 := lt_of_ten_zpow_lt (hlow.trans_lt hsmall)
      exact .inr ⟨-5, hsmall.le, hqlow, by omega, by omega⟩
    | @scientific top' hextreme' hlow' hhigh' =>
      have htop : top < top' + 1 := lt_of_ten_zpow_lt (hlow.trans_lt (h.trans_lt hhigh'))
      rcases (Int.lt_add_one_iff.mp htop).lt_or_eq with hlt | rfl
      · exact .inr ⟨top', hhigh.le.trans (ten_zpow_le hlt), hlow', by omega, by omega⟩
      · exact .inl rfl

namespace Rounded
variable {p q v w : ℚ}

/-- The displayed values are ordered as the numbers are. -/
theorem mono (hp : Rounded p v) (hq : Rounded q w) (h : p ≤ q) : v ≤ w := by
  obtain ⟨hj, hm⟩ := hp
  obtain ⟨hk, hn⟩ := hq
  have hpow (k : ℤ) : (0 : ℚ) < 10 ^ k := by positivity
  rcases hj.parted hk h with rfl | ⟨i, hpi, hiq, hij, hik⟩
  · have hle := hm.mono hn (mul_le_mul_of_nonneg_right h (hpow _).le)
    gcongr
  · obtain ⟨a, ha⟩ := exists_grid hij
    obtain ⟨b, hb⟩ := exists_grid hik
    have hle := hm.le_of_le (ha ▸ mul_le_mul_of_nonneg_right hpi (hpow _).le)
    have hge := hn.le_of_ge (hb ▸ mul_le_mul_of_nonneg_right hiq (hpow _).le)
    trans (10 : ℚ) ^ i
    · rw [div_le_iff₀ (hpow _), ha]
      exact_mod_cast hle
    · rw [le_div_iff₀ (hpow _), hb]
      exact_mod_cast hge

/-- No positive number is displayed as a zero. -/
theorem pos (hq : Rounded q w) : 0 < w := by
  obtain @⟨k, n, hk, hn⟩ := hq
  obtain ⟨j, hj, hjk⟩ : ∃ j : ℤ, (10 : ℚ) ^ j ≤ q ∧ 0 ≤ j + k := by
    cases hk with
    | plain hlow => exact ⟨-5, tenth_eq ▸ hlow, by norm_num⟩
    | @scientific top _ hlow => exact ⟨top, hlow, by omega⟩
  have hpos : (0 : ℚ) < 10 ^ k := by positivity
  obtain ⟨a, ha⟩ := exists_grid hjk
  have hle := hn.le_of_ge (ha ▸ mul_le_mul_of_nonneg_right hj hpos.le)
  have ha' : (0 : ℚ) < a := by
    rw [← ha]
    positivity
  have hn' : (0 : ℚ) < n := ha'.trans_le (by exact_mod_cast hle)
  positivity

theorem abs_sub_le {k : ℤ} {n : ℕ} (hn : Nearest (q * 10 ^ k) n) :
    |n / 10 ^ k - q| ≤ 1 / 2 / 10 ^ k := by
  have hpos : (0 : ℚ) < 10 ^ k := by positivity
  have hlow := hn.low
  have hhigh := hn.high
  have hsub : (n : ℚ) / 10 ^ k - q = (n - q * 10 ^ k) / 10 ^ k := by
    rw [sub_div, mul_div_cancel_right₀ _ hpos.ne']
  rw [hsub, abs_div, abs_of_pos hpos]
  gcongr
  rw [abs_le]
  constructor <;> linarith

/-- Half a unit in the last place is lost at most. -/
theorem error (hq : Rounded q w) :
    (1 / 10 ^ 5 ≤ q ∧ q ≤ 10 ^ 10 → |w - q| ≤ 5 / 10 ^ 7) ∧
      (¬ (1 / 10 ^ 5 ≤ q ∧ q ≤ 10 ^ 10) → |w - q| ≤ 5 / 10 ^ 7 * q) := by
  obtain ⟨hk, hn⟩ := hq
  have hle := abs_sub_le hn
  cases hk with
  | plain hlow hhigh =>
    refine ⟨fun _ => hle.trans ?_, fun h => absurd ⟨hlow, hhigh⟩ h⟩
    norm_num
  | @scientific top hextreme hlow hhigh =>
    refine ⟨fun ⟨hlow', hhigh'⟩ => by rcases hextreme with h | h <;> linarith, fun _ => ?_⟩
    calc _ ≤ 1 / 2 / (10 : ℚ) ^ (6 - top) := hle
      _ = 5 / 10 ^ 7 * 10 ^ top := by
          rw [zpow_sub₀ (by norm_num)]
          field_simp
          norm_num
      _ ≤ 5 / 10 ^ 7 * q := by gcongr

end Rounded

end Calculator.Number
