import Calculator.Number.Display
import Calculator.Proofs.Number.Integer

/-! # Exact values of numbers

Every finite number stands for a rational, and numbers are compared as these rationals.  The numbers
that are displayed with an exponent are those above `10 ^ 10` and those below `10 ^ -5`.
-/
namespace Calculator.Number
open Float.Model Float.Model.UnpackedFloat

def unpackedValue : UnpackedFloat → ℚ
  | .finite s m e _ => s.apply m * 2 ^ e
  | _ => 0

def exactValue (x : Float) : ℚ := unpackedValue x.toModel.unpack

inductive Bounded : UnpackedFloat → Prop
  | zero (s : Sign) : Bounded (.zero s)
  | finite (s : Sign) {m : ℕ} {e : ℤ} (hc : Canonical m e) : Bounded (.finite s m e hc.pos)

theorem bounded_unpack {x : Float} (hx : x.isFinite = true) : Bounded x.toModel.unpack := by
  have hfinite : x.toModel.unpack.isFinite = true := hx
  cases hu : x.toModel.unpack with
  | zero s => exact .zero s
  | finite s m e hm => exact .finite s (canonical_of_unpack hu)
  | _ =>
    rw [hu] at hfinite
    cases hfinite

/-- Numbers are compared by their exponents first. -/
theorem Canonical.lt_of_exponent_lt {m₁ m₂ : ℕ} {e₁ e₂ : ℤ} (hc₁ : Canonical m₁ e₁)
    (hc₂ : Canonical m₂ e₂) (h : e₁ < e₂) : (m₁ : ℚ) * 2 ^ e₁ < m₂ * 2 ^ e₂ := by
  have hlow := hc₁.low
  have hm₂ : (2 : ℚ) ^ 52 ≤ m₂ := by
    exact_mod_cast hc₂.normal.resolve_right (by omega)
  have hm₁ : (m₁ : ℚ) < 2 ^ 53 := by exact_mod_cast hc₁.lt
  calc (m₁ : ℚ) * 2 ^ e₁ < 2 ^ 53 * 2 ^ e₁ := by gcongr
    _ = 2 ^ 52 * 2 ^ (e₁ + 1) := by
        rw [zpow_add_one₀ two_ne_zero]
        ring
    _ ≤ m₂ * 2 ^ e₂ := by
        gcongr
        · exact one_le_two
        · omega

theorem Canonical.compare_eq {m₁ m₂ : ℕ} {e₁ e₂ : ℤ} (hc₁ : Canonical m₁ e₁)
    (hc₂ : Canonical m₂ e₂) : (compare e₁ e₂).then (compare m₁ m₂) =
      compare ((m₁ : ℚ) * 2 ^ e₁) (m₂ * 2 ^ e₂) := by
  rcases lt_trichotomy e₁ e₂ with he | rfl | he
  · rw [compare_lt_iff_lt.mpr he, compare_lt_iff_lt.mpr (hc₁.lt_of_exponent_lt hc₂ he)]
    rfl
  · have hpos : (0 : ℚ) < 2 ^ e₁ := by positivity
    rw [compare_eq_iff_eq.mpr rfl, Ordering.eq_then]
    rcases lt_trichotomy m₁ m₂ with hm | rfl | hm
    · rw [compare_lt_iff_lt.mpr hm, eq_comm, compare_lt_iff_lt]
      gcongr
    · rw [compare_eq_iff_eq.mpr rfl, compare_eq_iff_eq.mpr rfl]
    · rw [compare_gt_iff_gt.mpr hm, eq_comm, compare_gt_iff_gt]
      gcongr
  · rw [compare_gt_iff_gt.mpr he, compare_gt_iff_gt.mpr (hc₂.lt_of_exponent_lt hc₁ he)]
    rfl

theorem unpackedValue_pos {m : ℕ} {e : ℤ} (hm : 0 < m) :
    0 < unpackedValue (.finite .positive m e hm) := by
  have hm' : (0 : ℚ) < m := by exact_mod_cast hm
  simp only [unpackedValue, Sign.apply, Int.cast_natCast]
  positivity

theorem unpackedValue_negative {m : ℕ} {e : ℤ} (hm : 0 < m) :
    unpackedValue (.finite .negative m e hm) = -unpackedValue (.finite .positive m e hm) := by
  simp only [unpackedValue, Sign.apply, Int.cast_neg, neg_mul]

theorem compare_neg (a b : ℚ) : compare (-a) (-b) = (compare a b).swap := by
  rcases lt_trichotomy a b with h | rfl | h
  · rw [compare_lt_iff_lt.mpr h, compare_gt_iff_gt.mpr (neg_lt_neg h)]
    rfl
  · rw [compare_eq_iff_eq.mpr rfl, compare_eq_iff_eq.mpr rfl]
    rfl
  · rw [compare_gt_iff_gt.mpr h, compare_lt_iff_lt.mpr (neg_lt_neg h)]
    rfl

/-- Unpacked numbers are compared by their signs first, and then by their magnitudes. -/
theorem Bounded.compare_eq {u v : UnpackedFloat} (hu : Bounded u) (hv : Bounded v) :
    u.compare v = some (compare (unpackedValue u) (unpackedValue v)) := by
  have hgt {a b : ℚ} (h : b < a) : some .gt = some (compare a b) :=
    congrArg some (compare_gt_iff_gt.mpr h).symm
  have hlt {a b : ℚ} (h : a < b) : some .lt = some (compare a b) :=
    congrArg some (compare_lt_iff_lt.mpr h).symm
  cases hu with
  | zero s =>
    cases hv with
    | zero t => rfl
    | @finite t m e hc =>
      have hpos := unpackedValue_pos (e := e) hc.pos
      cases t with
      | negative => exact hgt (by rw [unpackedValue_negative]; exact neg_neg_of_pos hpos)
      | positive => exact hlt hpos
  | @finite s m₁ e₁ hc₁ =>
    have hpos₁ := unpackedValue_pos (e := e₁) hc₁.pos
    cases hv with
    | zero t =>
      cases s with
      | negative => exact hlt (by rw [unpackedValue_negative]; exact neg_neg_of_pos hpos₁)
      | positive => exact hgt hpos₁
    | @finite t m₂ e₂ hc₂ =>
      have hpos₂ := unpackedValue_pos (e := e₂) hc₂.pos
      have hcompare := hc₁.compare_eq hc₂
      cases s <;> cases t
      · rw [unpackedValue_negative, unpackedValue_negative, compare_neg]
        exact congrArg (fun o : Ordering => some o.swap) hcompare
      · exact hlt (by rw [unpackedValue_negative]; linarith)
      · exact hgt (by rw [unpackedValue_negative]; linarith)
      · exact congrArg some hcompare

section
variable {x y : Float}

theorem compare_eq (hx : x.isFinite = true) (hy : y.isFinite = true) :
    x.toModel.unpack.compare y.toModel.unpack = some (compare (exactValue x) (exactValue y)) :=
  (bounded_unpack hx).compare_eq (bounded_unpack hy)

theorem lt_iff_exactValue (hx : x.isFinite = true) (hy : y.isFinite = true) :
    x < y ↔ exactValue x < exactValue y := by
  have h : x < y ↔ x.toModel.unpack.lt y.toModel.unpack = true := decide_eq_true_iff
  rw [h, UnpackedFloat.lt, compare_eq hx hy, beq_iff_eq, Option.some_inj, compare_lt_iff_lt]

theorem le_iff_exactValue (hx : x.isFinite = true) (hy : y.isFinite = true) :
    x ≤ y ↔ exactValue x ≤ exactValue y := by
  have h : x ≤ y ↔ x.toModel.unpack.le y.toModel.unpack = true := decide_eq_true_iff
  rw [h, UnpackedFloat.le, compare_eq hx hy, Option.any_some, ← Ordering.ne_gt_iff_isLE]
  exact compare_le_iff_le

theorem beq_iff_exactValue (hx : x.isFinite = true) (hy : y.isFinite = true) :
    (x == y) = true ↔ exactValue x = exactValue y := by
  have h : (x == y) = x.toModel.unpack.beq y.toModel.unpack := rfl
  rw [h, UnpackedFloat.beq, compare_eq hx hy, beq_iff_eq, Option.some_inj, compare_eq_iff_eq]

theorem unpack_abs (hx : x.isFinite = true) :
    x.abs.toModel.unpack = x.toModel.unpack.abs := by
  have habs : x.abs.toModel.unpack = (Float.Model.pack x.toModel.unpack.abs).unpack := rfl
  rw [habs]
  have h := bounded_unpack hx
  generalize x.toModel.unpack = u at h
  cases h with
  | zero s => cases s <;> rfl
  | finite s hc => exact unpack_pack hc .positive

theorem isFinite_abs (hx : x.isFinite = true) : x.abs.isFinite = true := by
  change x.abs.toModel.unpack.isFinite = true
  rw [unpack_abs hx]
  have h := bounded_unpack hx
  generalize x.toModel.unpack = u at h
  cases h <;> rfl

theorem exactValue_abs (hx : x.isFinite = true) : exactValue x.abs = |exactValue x| := by
  rw [exactValue, exactValue, unpack_abs hx]
  have h := bounded_unpack hx
  generalize x.toModel.unpack = u at h
  cases h with
  | zero s => exact abs_zero.symm
  | @finite s m e hc =>
    have hpos := unpackedValue_pos (e := e) hc.pos
    cases s with
    | negative => rw [unpackedValue_negative, abs_neg, abs_of_pos hpos]; rfl
    | positive => rw [abs_of_pos hpos]; rfl

/-- No number lies between a number with all digits and the one below it. -/
theorem Canonical.le_pred {m n : ℕ} {e k : ℤ} (hc : Canonical m e) (hn : 2 ^ 52 ≤ n)
    (h : (m : ℚ) * 2 ^ e < (n + 1) * 2 ^ k) : (m : ℚ) * 2 ^ e ≤ n * 2 ^ k := by
  rcases lt_or_ge e k with he | he
  · have hm : (m : ℚ) ≤ 2 ^ 53 := by exact_mod_cast hc.lt.le
    have hn' : (2 : ℚ) ^ 52 ≤ n := by exact_mod_cast hn
    calc (m : ℚ) * 2 ^ e ≤ 2 ^ 53 * 2 ^ e := by gcongr
      _ = 2 ^ 52 * 2 ^ (e + 1) := by
          rw [zpow_add_one₀ two_ne_zero]
          ring
      _ ≤ n * 2 ^ k := by
          gcongr
          · exact one_le_two
          · omega
  · obtain ⟨d, rfl⟩ := Int.le.dest he
    have hpos : (0 : ℚ) < 2 ^ k := by positivity
    rw [add_comm, zpow_add₀ two_ne_zero, zpow_natCast, ← mul_assoc] at h ⊢
    have hlt : m * 2 ^ d < n + 1 := by exact_mod_cast lt_of_mul_lt_mul_right h hpos.le
    have hle : (m : ℚ) * 2 ^ d ≤ n := by exact_mod_cast Nat.le_of_lt_succ hlt
    gcongr

/-- No number lies between `10 ^ -5` and the number that is written `1e-5`. -/
theorem lt_tiny_iff (hx : x.isFinite = true) :
    |exactValue x| < exactValue 1e-5 ↔ |exactValue x| < 1 / 10 ^ 5 := by
  have htiny : exactValue 1e-5 = ((5902958103587056 : ℕ) + 1) * 2 ^ (-69 : ℤ) := by
    have h : exactValue 1e-5 = (5902958103587057 : ℕ) * 2 ^ (-69 : ℤ) := rfl
    rw [h]
    norm_num
  have hbelow : ((5902958103587056 : ℕ) : ℚ) * 2 ^ (-69 : ℤ) < 1 / 10 ^ 5 := by norm_num
  have habove : (1 : ℚ) / 10 ^ 5 < exactValue 1e-5 := by
    rw [htiny]
    norm_num
  refine ⟨fun h => ?_, fun h => h.trans habove⟩
  rw [← exactValue_abs hx] at h ⊢
  rw [exactValue, unpack_abs hx] at h ⊢
  have hbounded := bounded_unpack hx
  generalize x.toModel.unpack = u at hbounded h ⊢
  cases hbounded with
  | zero s =>
    change (0 : ℚ) < _
    positivity
  | finite s hc =>
    rw [htiny] at h
    exact (hc.le_pred (by decide) h).trans_lt hbelow

theorem isExtreme_iff (hx : x.isFinite = true) : isExtreme x = true ↔
    10 ^ 10 < |exactValue x| ∨ |exactValue x| < 1 / 10 ^ 5 ∧ exactValue x ≠ 0 := by
  have hten : Float.isFinite 1e10 = true := rfl
  have htiny : Float.isFinite 1e-5 = true := rfl
  have hlarge : exactValue 1e10 = 10 ^ 10 := by
    have h : exactValue 1e10 = (5242880000000000 : ℕ) * 2 ^ (-19 : ℤ) := rfl
    rw [h]
    norm_num
  have hne : (x != 0) = true ↔ exactValue x ≠ 0 := by
    have hzero : exactValue 0 = 0 := rfl
    rw [bne, Bool.not_eq_true', Bool.eq_false_iff, Ne, beq_iff_exactValue hx rfl, hzero]
  rw [← lt_tiny_iff hx, ← hlarge, ← exactValue_abs hx, ← lt_iff_exactValue hten (isFinite_abs hx),
    ← lt_iff_exactValue (isFinite_abs hx) htiny, ← hne]
  simp only [isExtreme, Bool.or_eq_true, Bool.and_eq_true, decide_eq_true_eq]

end

end Calculator.Number
