import Calculator.Number.Decimal
import Calculator.Number.Literal
import Mathlib.Data.List.TakeWhile
import Mathlib.Tactic

/-! # Decimals that are written

The exact values of fractions, and the value that a positional decimal spells.
-/
namespace Calculator.Number

theorem zpow_eq_div (a : ℚ) (k : ℤ) : a ^ k = a ^ k.toNat / a ^ (-k).toNat := by
  obtain ⟨n, rfl | rfl⟩ := k.eq_nat_or_neg
  · simp
  · simp

theorem tens_eq (n : ℕ) : tens n = 10 ^ n := rfl

namespace Fraction

def value (r : Fraction) : ℚ := r.num / r.den

theorem le_iff {r : Fraction} (hr : 0 < r.den) (c : ℕ) : r.num ≤ c * r.den ↔ r.value ≤ c := by
  have hr' : (0 : ℚ) < r.den := by exact_mod_cast hr
  rw [value, div_le_iff₀ hr']
  exact_mod_cast Iff.rfl

theorem lt_iff {r : Fraction} (hr : 0 < r.den) (c : ℕ) : r.num < c * r.den ↔ r.value < c := by
  have hr' : (0 : ℚ) < r.den := by exact_mod_cast hr
  rw [value, div_lt_iff₀ hr']
  exact_mod_cast Iff.rfl

theorem binary_value (m : ℕ) (e : ℤ) : (binary m e).value = m * 2 ^ e := by
  simp only [value, binary, Nat.shiftLeft_eq, one_mul]
  push_cast
  rw [mul_div_assoc, ← zpow_eq_div]

theorem binary_den_pos (m : ℕ) (e : ℤ) : 0 < (binary m e).den := by
  simp [binary, Nat.shiftLeft_eq]

theorem shift_value (r : Fraction) (k : ℤ) : (r.shift k).value = r.value * 10 ^ k := by
  simp only [value, shift, tens_eq]
  push_cast
  rw [mul_div_mul_comm, ← zpow_eq_div]

theorem shift_den_pos {r : Fraction} (hr : 0 < r.den) (k : ℤ) : 0 < (r.shift k).den :=
  Nat.mul_pos hr (Nat.pow_pos (by decide))

theorem floor_le {r : Fraction} (hr : 0 < r.den) : (r.floor : ℚ) ≤ r.value := by
  rw [← not_lt, ← lt_iff hr, not_lt]
  exact Nat.div_mul_le_self _ _

theorem lt_floor_add_one {r : Fraction} (hr : 0 < r.den) : r.value < r.floor + 1 := by
  have hlt : r.num < (r.floor + 1) * r.den := by
    rw [mul_comm]
    exact Nat.lt_mul_div_succ _ hr
  exact_mod_cast (lt_iff hr _).mp hlt

/-- A numeral has as many digits as the number is large. -/
theorem numeral_bounds {n : ℕ} (hn : n ≠ 0) :
    ∃ d, (Nat.toDigits 10 n).length = d + 1 ∧ 10 ^ d ≤ n ∧ n < 10 ^ (d + 1) := by
  obtain ⟨d, hd⟩ := Nat.exists_eq_succ_of_ne_zero (Nat.length_toDigits_pos (b := 10) (n := n)).ne'
  have hiff {k : ℕ} (hk : 0 < k) := Nat.length_toDigits_le_iff (n := n) (b := 10) (by decide) hk
  refine ⟨d, hd, ?_, (hiff d.succ_pos).mp hd.le⟩
  by_contra hlt
  rcases d.eq_zero_or_pos with rfl | hpos
  · omega
  · have hle := (hiff hpos).mpr (not_le.mp hlt)
    omega

theorem magnitude_spec {r : Fraction} (hn : 0 < r.num) (hd : 0 < r.den) :
    (10 : ℚ) ^ r.magnitude ≤ r.value ∧ r.value < 10 ^ (r.magnitude + 1) := by
  have hn' : (0 : ℚ) < r.num := by exact_mod_cast hn
  have hd' : (0 : ℚ) < r.den := by exact_mod_cast hd
  unfold magnitude value
  split_ifs with hle
  · obtain ⟨d, hlen, hlow, hhigh⟩ := numeral_bounds (Nat.div_pos hle hd).ne'
    have hlow' : 10 ^ d * r.den ≤ r.num := (Nat.le_div_iff_mul_le hd).mp hlow
    have hhigh' : r.num < 10 ^ (d + 1) * r.den := (Nat.div_lt_iff_lt_mul hd).mp hhigh
    rw [hlen, Nat.cast_succ, add_sub_cancel_right, le_div_iff₀ hd', div_lt_iff₀ hd',
      ← Nat.cast_succ, zpow_natCast, zpow_natCast]
    exact ⟨by exact_mod_cast hlow', by exact_mod_cast hhigh'⟩
  · have hq : (r.den - 1) / r.num ≠ 0 := (Nat.div_pos (by omega) hn).ne'
    obtain ⟨d, hlen, hlow, hhigh⟩ := numeral_bounds hq
    have hlow' : 10 ^ d * r.num ≤ r.den - 1 := (Nat.le_div_iff_mul_le hn).mp hlow
    have hhigh' : r.den - 1 < 10 ^ (d + 1) * r.num := (Nat.div_lt_iff_lt_mul hn).mp hhigh
    have hlow'' : r.num * 10 ^ d < r.den := by
      rw [mul_comm]
      omega
    have hhigh'' : r.den ≤ r.num * 10 ^ (d + 1) := by
      rw [mul_comm]
      omega
    rw [hlen, Nat.cast_succ, neg_add, neg_add_cancel_right, ← neg_add, ← Nat.cast_succ, zpow_neg,
      zpow_neg, zpow_natCast, zpow_natCast, inv_le_iff_one_le_mul₀ (by positivity),
      lt_inv_comm₀ (by positivity) (by positivity), inv_div, div_mul_eq_mul_div,
      one_le_div hd', lt_div_iff₀ hn', mul_comm _ (r.num : ℚ)]
    exact ⟨by exact_mod_cast hhigh'', by exact_mod_cast hlow''⟩

end Fraction

theorem digitsValue_eq (cs : List Char) :
    digitsValue cs = Nat.ofDigitChars 10 (cs.filter Char.isDigit) 0 := rfl

theorem digitsValue_append (cs ds : List Char) : digitsValue (cs ++ ds) =
    digitsValue cs * 10 ^ (ds.filter Char.isDigit).length + digitsValue ds := by
  rw [digitsValue_eq, digitsValue_eq, digitsValue_eq, List.filter_append, Nat.ofDigitChars_append,
    Nat.ofDigitChars_eq_ofDigitChars_zero, mul_comm]

theorem isDigit_of_mem_numeral {n : ℕ} {c : Char} (h : c ∈ numeral n) : c.isDigit = true :=
  Nat.isDigit_of_mem_toDigits (by decide) (by decide) h

theorem digitsValue_numeral (n : ℕ) : digitsValue (numeral n) = n := by
  rw [digitsValue_eq, List.filter_eq_self.mpr fun c hc => isDigit_of_mem_numeral hc]
  exact Nat.ofDigitChars_ten_toDigits

theorem isDigit_of_mem_padded {width n : ℕ} {c : Char} (h : c ∈ padded width n) :
    c.isDigit = true := by
  rcases List.mem_append.mp h with h | h
  · rw [List.eq_of_mem_replicate h]
    rfl
  · exact isDigit_of_mem_numeral h

theorem digitsValue_zeros (k : ℕ) : digitsValue (List.replicate k '0') = 0 := by
  rw [digitsValue_eq, List.filter_replicate_of_pos rfl, Nat.ofDigitChars_replicate_zero, mul_zero]

theorem digitsValue_padded (width n : ℕ) : digitsValue (padded width n) = n := by
  rw [padded, digitsValue_append, digitsValue_zeros, digitsValue_numeral, zero_mul, zero_add]

theorem length_padded {width n : ℕ} (hw : 0 < width) (hn : n < 10 ^ width) :
    (padded width n).length = width := by
  have hle := (Nat.length_toDigits_le_iff (by decide) hw).mpr hn
  rw [padded, List.length_append, List.length_replicate]
  exact Nat.sub_add_cancel hle

theorem exists_dropZeros (cs : List Char) :
    ∃ k, cs = dropZeros cs ++ List.replicate k '0' := by
  refine ⟨(cs.reverse.takeWhile (· == '0')).length, ?_⟩
  have hzeros : cs.reverse.takeWhile (· == '0') =
      List.replicate (cs.reverse.takeWhile (· == '0')).length '0' := by
    apply List.eq_replicate_of_mem
    intro c hc
    simpa using List.mem_takeWhile_imp hc
  rw [← List.reverse_replicate, ← hzeros, dropZeros, ← List.reverse_append,
    List.takeWhile_append_dropWhile, List.reverse_reverse]

def spelled (cs : List Char) : ℚ := digitsValue cs / 10 ^ places cs

section
variable {ds tail : List Char}

theorem ne_dot {c : Char} (h : c.isDigit = true) : c ≠ '.' := by
  rintro rfl
  cases h

theorem count_dot (hds : ∀ c ∈ ds, c.isDigit = true) : ds.count '.' = 0 :=
  List.count_eq_zero.mpr fun h => ne_dot (hds _ h) rfl

theorem isLiteral_digits (hds : ∀ c ∈ ds, c.isDigit = true) (hne : ds ≠ []) :
    isLiteral ds = true := by
  obtain ⟨d, hd⟩ := List.exists_mem_of_ne_nil ds hne
  simp only [isLiteral, Bool.and_eq_true, List.all_eq_true, List.any_eq_true, decide_eq_true_eq]
  refine ⟨⟨fun c hc => by simp [isLiteralChar, hds c hc], d, hd, hds d hd⟩, ?_⟩
  rw [count_dot hds]
  exact zero_le_one

theorem isLiteral_decimal (hds : ∀ c ∈ ds, c.isDigit = true) (hne : ds ≠ [])
    (htail : ∀ c ∈ tail, c.isDigit = true) : isLiteral (ds ++ '.' :: tail) = true := by
  obtain ⟨d, hd⟩ := List.exists_mem_of_ne_nil ds hne
  simp only [isLiteral, Bool.and_eq_true, List.all_eq_true, List.any_eq_true, decide_eq_true_eq]
  refine ⟨⟨fun c hc => ?_, d, List.mem_append_left _ hd, hds d hd⟩, ?_⟩
  · rcases List.mem_append.mp hc with h | h
    · simp [isLiteralChar, hds c h]
    · rcases List.mem_cons.mp h with rfl | h
      · rfl
      · simp [isLiteralChar, htail c h]
  · rw [List.count_append, List.count_cons_self, count_dot hds, count_dot htail]

theorem places_digits (hds : ∀ c ∈ ds, c.isDigit = true) : places ds = 0 := by
  have hdrop : ds.dropWhile (· != '.') = [] :=
    List.dropWhile_eq_nil_iff.mpr fun c hc => by simpa using ne_dot (hds c hc)
  rw [places, hdrop]
  rfl

theorem spelled_digits (hds : ∀ c ∈ ds, c.isDigit = true) : spelled ds = digitsValue ds := by
  rw [spelled, places_digits hds, pow_zero, div_one]

theorem spelled_decimal (hds : ∀ c ∈ ds, c.isDigit = true)
    (htail : ∀ c ∈ tail, c.isDigit = true) :
    spelled (ds ++ '.' :: tail) = digitsValue ds + digitsValue tail / 10 ^ tail.length := by
  have hplaces : places (ds ++ '.' :: tail) = tail.length := by
    rw [places, List.dropWhile_append_of_pos fun c hc => by simpa using ne_dot (hds c hc)]
    rfl
  have hvalue : digitsValue (ds ++ '.' :: tail) =
      digitsValue ds * 10 ^ tail.length + digitsValue tail := by
    have hdot : digitsValue ('.' :: tail) = digitsValue tail := rfl
    have hfilter : ('.' :: tail).filter Char.isDigit = tail := List.filter_eq_self.mpr htail
    rw [digitsValue_append, hfilter, hdot]
  rw [spelled, hplaces, hvalue]
  push_cast
  rw [add_div, mul_div_cancel_right₀ _ (by positivity)]

end

/-- A positional decimal is a literal, and it spells its value. -/
theorem positional_spec (n p : ℕ) :
    isLiteral (positional n p) = true ∧ spelled (positional n p) = n / 10 ^ p := by
  obtain ⟨k, hk⟩ := exists_dropZeros (padded p (n % 10 ^ p))
  have hwhole (c : Char) (hc : c ∈ numeral (n / 10 ^ p)) := isDigit_of_mem_numeral hc
  have hne : numeral (n / 10 ^ p) ≠ [] := Nat.toDigits_ne_nil
  have htail (c : Char) (hc : c ∈ dropZeros (padded p (n % 10 ^ p))) : c.isDigit = true := by
    apply isDigit_of_mem_padded
    rw [hk]
    exact List.mem_append_left _ hc
  have hrest : n % 10 ^ p = digitsValue (dropZeros (padded p (n % 10 ^ p))) * 10 ^ k := by
    have h := digitsValue_padded p (n % 10 ^ p)
    rw [hk, digitsValue_append, digitsValue_zeros, List.filter_replicate_of_pos rfl,
      List.length_replicate] at h
    exact h.symm
  have hlen := congrArg List.length hk
  rw [List.length_append, List.length_replicate] at hlen
  have hn : (n : ℚ) = 10 ^ p * (n / 10 ^ p : ℕ) + (n % 10 ^ p : ℕ) := by
    exact_mod_cast (Nat.div_add_mod n (10 ^ p)).symm
  unfold positional
  simp only [tens_eq]
  generalize hds : dropZeros (padded p (n % 10 ^ p)) = ds at htail hrest hlen
  cases ds with
  | nil =>
    refine ⟨isLiteral_digits hwhole hne, ?_⟩
    have h0 : n % 10 ^ p = 0 := by rw [hrest, digitsValue_eq]; simp
    rw [spelled_digits hwhole, digitsValue_numeral, eq_div_iff (by positivity), hn, h0]
    push_cast
    ring
  | cons d ds =>
    refine ⟨isLiteral_decimal hwhole hne htail, ?_⟩
    -- Without places there is a single zero behind the point, and it is dropped.
    have hp : 0 < p := by
      by_contra h0
      have hnil : dropZeros (padded 0 0) = [] := by decide
      rw [Nat.eq_zero_of_not_pos h0, pow_zero, Nat.mod_one, hnil] at hds
      cases hds
    rw [length_padded hp (Nat.mod_lt _ (by positivity))] at hlen
    have hpow : (10 : ℚ) ^ p = 10 ^ (d :: ds).length * 10 ^ k := by
      rw [hlen, pow_add]
    have hshift : (digitsValue (d :: ds) / 10 ^ (d :: ds).length : ℚ) * 10 ^ p =
        digitsValue (d :: ds) * 10 ^ k := by
      rw [hpow]
      field_simp
    rw [spelled_decimal hwhole htail, digitsValue_numeral, eq_div_iff (by positivity), add_mul,
      hshift, hn, hrest]
    push_cast
    ring

end Calculator.Number
