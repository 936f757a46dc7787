import Calculator.Number.Shortest
import Calculator.Proofs.Number.Literal

/-! # Shortest text reads back

The text of a number is a literal that lies in the basin of the number, so it is read as the number
again.
-/
namespace Calculator.Number
open Float.Model Float.Model.UnpackedFloat

namespace Fraction
variable {r : Fraction}

theorem shift_le_iff (hr : 0 < r.den) (c : ℕ) (k : ℤ) :
    (r.shift (-k)).num ≤ c * (r.shift (-k)).den ↔ r.value ≤ c * 10 ^ k := by
  rw [le_iff (shift_den_pos hr _), shift_value, zpow_neg, ← div_eq_mul_inv,
    div_le_iff₀ (by positivity)]

theorem shift_lt_iff (hr : 0 < r.den) (c : ℕ) (k : ℤ) :
    (r.shift (-k)).num < c * (r.shift (-k)).den ↔ r.value < c * 10 ^ k := by
  rw [lt_iff (shift_den_pos hr _), shift_value, zpow_neg, ← div_eq_mul_inv,
    div_lt_iff₀ (by positivity)]

end Fraction

namespace Basin
variable {m : ℕ} {e : ℤ}

theorem ofBinary_low (hc : Canonical m e) : (ofBinary m e).low.value = lowEnd m e := by
  have hpos := hc.pos
  simp only [ofBinary, Fraction.binary_value, lowEnd]
  split_ifs with h h' h'
  · rw [Nat.cast_sub (by omega)]
    push_cast
    rfl
  · exact absurd h h'
  · exact absurd h' h
  · rw [Nat.cast_sub (by omega)]
    push_cast
    rfl

theorem ofBinary_high : (ofBinary m e).high.value = highEnd m e := by
  simp only [ofBinary, Fraction.binary_value, highEnd]
  push_cast
  rfl

theorem ofBinary_value : (ofBinary m e).value.value = m * 2 ^ e := by
  simp only [ofBinary, Fraction.binary_value, two_zpow_eq e]
  push_cast
  ring

/-- The basin of a number is the interval of the values that are rounded to it. -/
theorem contains_iff (hc : Canonical m e) (c : ℕ) (k : ℤ) :
    (ofBinary m e).contains c k = true ↔ RoundsTo (c * 10 ^ k) m e := by
  have hlow : 0 < (ofBinary m e).low.den := Fraction.binary_den_pos _ _
  have hhigh : 0 < (ofBinary m e).high.den := Fraction.binary_den_pos _ _
  have hle := Fraction.shift_le_iff hlow c k
  have hlt := Fraction.shift_lt_iff hlow c k
  have hge := not_congr (Fraction.shift_lt_iff hhigh c k)
  have hgt := not_congr (Fraction.shift_le_iff hhigh c k)
  rw [not_lt, not_lt, ofBinary_high] at hge
  rw [not_le, not_le, ofBinary_high] at hgt
  rw [ofBinary_low hc] at hle hlt
  have hclosed : (ofBinary m e).closed = (m % 2 == 0) := rfl
  simp only [contains, hclosed, beq_iff_eq]
  split_ifs with hm
  · rw [Bool.and_eq_true, decide_eq_true_iff, decide_eq_true_iff, hle, hge]
    exact ⟨fun ⟨h1, h2⟩ => ⟨h1, h2, fun h => by omega⟩, fun h => ⟨h.low, h.high⟩⟩
  · rw [Bool.and_eq_true, decide_eq_true_iff, decide_eq_true_iff, hlt, hgt]
    exact ⟨fun ⟨h1, h2⟩ => ⟨h1.le, h2.le, fun _ => ⟨h1, h2⟩⟩, fun h => h.odd (by omega)⟩

section
variable {b : Basin} {c : ℕ} {k : ℤ}

theorem contains_of_nearest? (h : b.nearest? k = some c) : b.contains c k = true := by
  simp only [nearest?] at h
  split at h
  · next hfloor hceil =>
    cases h
    split_ifs
    · exact hceil
    · exact hfloor
  · next hfloor _ =>
    cases h
    exact hfloor
  · next _ hceil =>
    cases h
    exact hceil
  · cases h

theorem exists_nearest? (h : b.contains (b.value.shift (-k)).floor k = true ∨
    b.contains ((b.value.shift (-k)).floor + 1) k = true) : ∃ c, b.nearest? k = some c := by
  simp only [nearest?]
  split
  · exact ⟨_, rfl⟩
  · exact ⟨_, rfl⟩
  · exact ⟨_, rfl⟩
  · next hfloor hceil =>
    rw [hfloor, hceil] at h
    rcases h with h | h <;> cases h

end

/-- Seventeen digits tell the numbers apart. -/
theorem grid_lt (hc : Canonical m e) {k : ℤ} (hk : (10 : ℚ) ^ (k + 16) ≤ m * 2 ^ e) :
    lowEnd m e + 10 ^ k < highEnd m e := by
  have hpos : (0 : ℚ) < 2 ^ (e - 2) := by positivity
  have hlt : (m : ℚ) < 2 ^ 53 := by exact_mod_cast hc.lt
  have hk' : (10 : ℚ) ^ k * 10 ^ 16 ≤ 4 * m * 2 ^ (e - 2) := by
    rw [zpow_add₀ (by norm_num), two_zpow_eq e] at hk
    norm_num at hk ⊢
    linarith
  unfold lowEnd highEnd
  split_ifs with h
  · obtain ⟨rfl, -⟩ := h
    push_cast at hk' ⊢
    nlinarith
  · nlinarith

theorem exists_nearest_last (hc : Canonical m e) :
    ∃ c, (ofBinary m e).nearest? ((ofBinary m e).value.magnitude - 16) = some c := by
  obtain ⟨k, hk⟩ : ∃ k, k = (ofBinary m e).value.magnitude - 16 := ⟨_, rfl⟩
  have hden : 0 < (ofBinary m e).value.den := Fraction.binary_den_pos _ _
  have hnum : 0 < (ofBinary m e).value.num := by
    have hpos := hc.pos
    simp only [ofBinary, Fraction.binary, Nat.shiftLeft_eq]
    positivity
  have hgrid : lowEnd m e + 10 ^ k < highEnd m e := by
    apply grid_lt hc
    rw [hk, sub_add_cancel, ← ofBinary_value]
    exact (Fraction.magnitude_spec hnum hden).1
  have hfloor := Fraction.floor_le (Fraction.shift_den_pos hden (-k))
  have hceil := Fraction.lt_floor_add_one (Fraction.shift_den_pos hden (-k))
  rw [Fraction.shift_value, zpow_neg, ← div_eq_mul_inv, ofBinary_value] at hfloor hceil
  rw [le_div_iff₀ (by positivity)] at hfloor
  rw [div_lt_iff₀ (by positivity)] at hceil
  rw [← hk]
  apply exists_nearest?
  rw [contains_iff hc, contains_iff hc]
  push_cast
  generalize (((ofBinary m e).value.shift (-k)).floor : ℚ) = f at hfloor hceil
  obtain ⟨hlow, hhigh⟩ := between_ends m e
  -- If the point below the value is not in the basin, the basin is wide enough for the next one.
  rcases lt_or_ge (lowEnd m e) (f * 10 ^ k) with hin | hout
  · have h : f * 10 ^ k < highEnd m e := by linarith
    exact .inl ⟨hin.le, h.le, fun _ => ⟨hin, h⟩⟩
  · have h : (f + 1) * 10 ^ k < highEnd m e := by linarith
    have h' : lowEnd m e < (f + 1) * 10 ^ k := by linarith
    exact .inr ⟨h'.le, h.le, fun _ => ⟨h', h⟩⟩

/-- Seventeen digits always suffice. -/
theorem shortest_contains (hc : Canonical m e) :
    (ofBinary m e).contains (ofBinary m e).shortest.1 (ofBinary m e).shortest.2 = true := by
  obtain ⟨hit, hhit⟩ : ∃ hit, hit = (List.range 17).findSome? fun (i : ℕ) =>
      ((ofBinary m e).nearest? ((ofBinary m e).value.magnitude - i)).map fun c =>
        (c, (ofBinary m e).value.magnitude - (i : ℤ)) := ⟨_, rfl⟩
  have hshortest : (ofBinary m e).shortest =
      hit.getD (((ofBinary m e).value.shift (16 - (ofBinary m e).value.magnitude)).floor,
        (ofBinary m e).value.magnitude - 16) := by
    rw [hhit]
    rfl
  cases hit with
  | none =>
    obtain ⟨c, hlast⟩ := exists_nearest_last hc
    have hnone := List.findSome?_eq_none_iff.mp hhit.symm 16 (by simp)
    simp [hlast] at hnone
  | some p =>
    obtain ⟨i, -, hi⟩ := List.exists_of_findSome?_eq_some hhit.symm
    obtain ⟨c, hnearest, rfl⟩ := Option.map_eq_some_iff.mp hi
    rw [hshortest]
    exact contains_of_nearest? hnearest

end Basin

theorem unpack_of_unsigned {x : Float} (hx : x.isFinite = true) (hs : Unsigned x) :
    x.toModel.unpack = .zero .positive ∨
      ∃ m e hm, x.toModel.unpack = .finite .positive m e hm := by
  have hfinite : x.toModel.unpack.isFinite = true := hx
  have hnan : x.isNaN = false := by
    change x.toModel.unpack.isNaN = false
    cases hu : x.toModel.unpack with
    | notANumber =>
      rw [hu] at hfinite
      cases hfinite
    | _ => rfl
  have hpos := (nonnegative_unpack_iff x).mpr ⟨hnan, hs⟩
  cases hu : x.toModel.unpack with
  | zero s =>
    rw [hu] at hpos
    cases hpos
    exact .inl rfl
  | finite s m e hm =>
    rw [hu] at hpos
    cases hpos
    exact .inr ⟨m, e, hm, rfl⟩
  | _ =>
    rw [hu] at hfinite
    cases hfinite

theorem text_finite {x : Float} {m : ℕ} {e : ℤ} {hm : 0 < m}
    (hu : x.toModel.unpack = .finite .positive m e hm) :
    ∃ n p : ℕ, text x = positional n p ∧ RoundsTo (n / 10 ^ p) m e := by
  have hc := canonical_of_unpack hu
  have hcontains := (Basin.contains_iff hc _ _).mp (Basin.shortest_contains hc)
  obtain ⟨c, k, hck⟩ : ∃ c k, (Basin.ofBinary m e).shortest = (c, k) := ⟨_, _, rfl⟩
  rw [hck, zpow_eq_div, ← mul_div_assoc] at hcontains
  refine ⟨c * 10 ^ k.toNat, (-k).toNat, ?_, by exact_mod_cast hcontains⟩
  simp only [text, hu, hck, tens_eq]
  rfl

/-- The text of a number without a sign is read as that number. -/
theorem read?_text {x : Float} (hx : x.isFinite = true) (hs : Unsigned x) :
    read? (text x) = some x := by
  rcases unpack_of_unsigned hx hs with hu | ⟨m, e, hm, hu⟩
  · have htext : text x = ['0'] := by
      simp only [text, hu]
      rfl
    rw [htext, ← ofModel_pack hu]
    rfl
  · obtain ⟨n, p, htext, hr⟩ := text_finite hu
    obtain ⟨hliteral, hspelled⟩ := positional_spec n p
    have hread := ofScientific_eq (canonical_of_unpack hu) (hspelled ▸ hr)
    rw [htext, read?, if_pos hliteral, hread, ofModel_pack hu]

end Calculator.Number
