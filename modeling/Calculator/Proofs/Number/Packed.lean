import Mathlib

/-! # Packed numbers

A number is packed into a sign, an exponent and a mantissa.  Unpacking reads these back, so that
nothing is lost; the finite numbers other than zero are those with a canonical mantissa and
exponent.
-/
namespace Calculator.Number
open Float.Model Float.Model.UnpackedFloat

structure Canonical (m : Nat) (e : Int) : Prop where
  pos : 0 < m
  lt : m < 2 ^ 53
  low : -1074 ≤ e
  high : e ≤ 971
  normal : 2 ^ 52 ≤ m ∨ e = -1074

inductive Fields (s : Sign) : BitVec 11 → BitVec 52 → UnpackedFloat → Prop
  | nan {v : BitVec 52} (hv : v ≠ 0#_) : Fields s (-1#_) v .notANumber
  | infinity : Fields s (-1#_) 0#_ (.infinity s)
  | zero : Fields s 0#_ 0#_ (.zero s)
  | subnormal {v : BitVec 52} {m : Nat} {k : Int} (hm : m = v.toNat) (hk : k = -1074)
      (h : 0 < m) : Fields s 0#_ v (.finite s m k h)
  | normal {e : BitVec 11} {v : BitVec 52} {m : Nat} {k : Int} (h0 : e ≠ 0#_)
      (h1 : e ≠ -1#_) (hm : m = 2 ^ 52 + v.toNat) (hk : k = e.toNat - 1075) (h : 0 < m) :
      Fields s e v (.finite s m k h)

theorem ofBitVec_toBitVec (s : Sign) : Sign.ofBitVec s.toBitVec = s := by
  cases s <;> rfl

theorem toBitVec_ofBitVec (v : BitVec 1) : (Sign.ofBitVec v).toBitVec = v := by
  revert v
  decide

theorem exponentBias_eq : Format.binary64.exponentBias = 1023 := rfl

theorem unpackSign_packComponents {f : Format} (s : Sign) (e : BitVec f.exponentBits)
    (v : BitVec f.mantissaBitsWithoutImplicit) :
    unpackSign (packComponents f s e v) = s.toBitVec := by
  ext i hi
  obtain rfl : i = 0 := by omega
  simp [unpackSign, packComponents, BitVec.getLsbD_append, BitVec.getElem_append]

theorem packComponents_unpack (b : BitVec (Format.numBits .binary64)) :
    packComponents .binary64 (.ofBitVec (unpackSign b)) (unpackExponent b) (unpackMantissa b) =
      b := by
  rw [packComponents, toBitVec_ofBitVec]
  apply BitVec.eq_of_getLsbD_eq
  intro i hi
  change i < 64 at hi
  simp only [BitVec.getLsbD_append, unpackSign, unpackExponent, unpackMantissa, BitVec.getLsbD_cast,
    BitVec.getLsbD_extractLsb]
  split
  · simp
    omega
  · split
    · rw [Nat.add_sub_cancel' (by omega)]
      simp
      omega
    · rw [Nat.sub_sub, Nat.add_sub_cancel' (by omega)]
      simp
      omega

theorem toNat_append_mantissa (v : BitVec 52) : (1#1 ++ v).toNat = 2 ^ 52 + v.toNat := by
  rw [BitVec.toNat_append, ← Nat.shiftLeft_add_eq_or_of_lt v.isLt]
  rfl

namespace Fields

variable {s : Sign} {e : BitVec 11} {v : BitVec 52} {u : UnpackedFloat}

theorem exponent_lt (he : e ≠ -1#_) : e.toNat < 2047 := by
  have hlt := e.isLt
  have hmax : e.toNat ≠ 2047 := fun hmax => he (BitVec.eq_of_toNat_eq hmax)
  omega

theorem exponent_pos (he : e ≠ 0#_) : 0 < e.toNat := by
  have hmin : e.toNat ≠ 0 := fun hmin => he (BitVec.eq_of_toNat_eq hmin)
  omega

theorem pack_eq (h : Fields s e v u) (hu : u ≠ .notANumber) :
    UnpackedFloat.pack .binary64 u = packComponents .binary64 s e v := by
  cases h with
  | nan hv => exact absurd rfl hu
  | infinity => rfl
  | zero => rfl
  | subnormal hm hk h =>
    subst hm hk
    have hlog : v.toNat.log2 < 52 := (Nat.log2_lt h.ne').mpr v.isLt
    have he : ¬ 2 ^ 11 ≤ (-1074 + (Format.binary64.exponentBias : Int) + (52 : Nat)).toNat + 1 := by
      decide
    have hn : v.toNat.log2 + 1 ≠ Format.binary64.mantissaBits := by
      simp only [Format.mantissaBits]
      omega
    simp only [UnpackedFloat.pack]
    rw [if_neg he, if_neg hn, BitVec.ofNat_toNat, BitVec.setWidth_eq]
  | normal h0 h1 hm hk h =>
    subst hm hk
    have hv := v.isLt
    have hlt := exponent_lt h1
    have hlog : (2 ^ 52 + v.toNat).log2 = 52 := (Nat.log2_eq_iff h.ne').mpr ⟨by omega, by omega⟩
    have he : ((e.toNat : Int) - 1075 + Format.binary64.exponentBias + (52 : Nat)).toNat =
        e.toNat := by
      rw [exponentBias_eq]
      omega
    have hle : ¬ 2 ^ 11 ≤ e.toNat + 1 := by omega
    have hn : (2 ^ 52 + v.toNat).log2 + 1 = Format.binary64.mantissaBits := by
      simp only [Format.mantissaBits]
      omega
    simp only [UnpackedFloat.pack]
    rw [he, if_neg hle, if_pos hn, BitVec.ofNat_toNat, BitVec.setWidth_eq]
    congr 1
    apply BitVec.eq_of_toNat_eq
    rw [BitVec.toNat_ofNat, Nat.add_mod_left, Nat.mod_eq_of_lt hv]

theorem canonical {m : Nat} {k : Int} {s' : Sign} {h : 0 < m}
    (hf : Fields s e v (.finite s' m k h)) : Canonical m k := by
  have hv := v.isLt
  cases hf with
  | subnormal hm hk h => exact ⟨h, by omega, by omega, by omega, .inr hk⟩
  | normal h0 h1 hm hk h =>
    have hpos := exponent_pos h0
    have hlt := exponent_lt h1
    exact ⟨h, by omega, by omega, by omega, .inl (by omega)⟩

theorem unpack_eq (h : Fields s e v u) :
    UnpackedFloat.unpack .binary64 (packComponents .binary64 s e v) = u := by
  rw [UnpackedFloat.unpack]
  simp only [unpackExponent_packComponents, unpackMantissa_packComponents,
    unpackSign_packComponents, ofBitVec_toBitVec]
  cases h with
  | nan hv => rw [if_pos rfl, if_neg hv]
  | infinity => rfl
  | zero => rfl
  | subnormal hm hk h =>
    subst hm hk
    have hv : v ≠ 0#_ := by
      rintro rfl
      exact absurd h (by decide)
    rw [if_neg (by decide), if_pos rfl, dif_neg hv]
    rfl
  | normal h0 h1 hm hk h =>
    subst hm hk
    rw [if_neg h1, if_neg h0]
    simp only [toNat_append_mantissa, exponentBias_eq]
    rfl

end Fields

theorem exists_fields_of (s : Sign) (e : BitVec 11) (v : BitVec 52) : ∃ u, Fields s e v u := by
  by_cases he : e = -1#_
  · subst he
    by_cases hv : v = 0#_
    · subst hv
      exact ⟨_, .infinity⟩
    · exact ⟨_, .nan hv⟩
  · by_cases he0 : e = 0#_
    · subst he0
      by_cases hv : v = 0#_
      · subst hv
        exact ⟨_, .zero⟩
      · have hpos : 0 < v.toNat := Nat.pos_of_ne_zero fun h => hv (BitVec.eq_of_toNat_eq h)
        exact ⟨_, .subnormal rfl rfl hpos⟩
    · exact ⟨_, .normal he0 he rfl rfl (by omega)⟩

theorem fields_unpack (s : Sign) (e : BitVec 11) (v : BitVec 52) :
    Fields s e v (UnpackedFloat.unpack .binary64 (packComponents .binary64 s e v)) := by
  obtain ⟨u, h⟩ := exists_fields_of s e v
  rw [h.unpack_eq]
  exact h

theorem exists_fields (x : Float.Model) :
    ∃ s e v, x.toBits.toBitVec = packComponents .binary64 s e v ∧ Fields s e v x.unpack := by
  obtain ⟨s, e, v, hx⟩ : ∃ s e v, packComponents .binary64 s e v = x.toBits.toBitVec :=
    ⟨_, _, _, packComponents_unpack _⟩
  have h := fields_unpack s e v
  rw [hx] at h
  exact ⟨s, e, v, hx.symm, h⟩

theorem pack_unpack (x : Float.Model) : Float.Model.pack x.unpack = x := by
  obtain ⟨s, e, v, hx, h⟩ := exists_fields x
  have hpack : UnpackedFloat.pack .binary64 x.unpack = x.toBits.toBitVec := by
    by_cases hu : x.unpack = .notANumber
    · have hnan := x.valid.eq_packedNaN
      rw [hx, unpackExponent_packComponents, unpackMantissa_packComponents, ← hx] at hnan
      rw [hu] at h ⊢
      cases h with
      | nan hv => exact (hnan rfl hv).symm
    · rw [h.pack_eq hu, hx]
  rcases x with ⟨⟨b⟩, hb⟩
  simp only [Float.Model.pack, hpack]

theorem ofModel_pack {x : Float} {u : UnpackedFloat} (h : x.toModel.unpack = u) :
    Float.ofModel (.pack u) = x := by
  rw [← h, pack_unpack]

theorem canonical_of_unpack {x : Float.Model} {s : Sign} {m : Nat} {e : Int} {h : 0 < m}
    (hx : x.unpack = .finite s m e h) : Canonical m e := by
  obtain ⟨_, _, _, _, hf⟩ := exists_fields x
  rw [hx] at hf
  exact hf.canonical

theorem Canonical.exists_fields {m : Nat} {k : Int} (hc : Canonical m k) (s : Sign) :
    ∃ e v, Fields s e v (.finite s m k hc.pos) := by
  have hlt := hc.lt
  have hlow := hc.low
  have hhigh := hc.high
  by_cases hm : 2 ^ 52 ≤ m
  · have he : (BitVec.ofNat 11 (k + 1075).toNat).toNat = (k + 1075).toNat := by
      rw [BitVec.toNat_ofNat, Nat.mod_eq_of_lt (by omega)]
    have hv : (BitVec.ofNat 52 (m - 2 ^ 52)).toNat = m - 2 ^ 52 := by
      rw [BitVec.toNat_ofNat, Nat.mod_eq_of_lt (by omega)]
    refine ⟨.ofNat 11 (k + 1075).toNat, .ofNat 52 (m - 2 ^ 52), .normal ?_ ?_ ?_ ?_ hc.pos⟩
    · intro h0
      have h := congrArg BitVec.toNat h0
      rw [he, BitVec.toNat_zero] at h
      omega
    · intro h1
      have h := congrArg BitVec.toNat h1
      have hmax : (-1#11).toNat = 2047 := rfl
      rw [he, hmax] at h
      omega
    · rw [hv]
      omega
    · rw [he]
      omega
  · have hv : (BitVec.ofNat 52 m).toNat = m := by
      rw [BitVec.toNat_ofNat, Nat.mod_eq_of_lt (by omega)]
    exact ⟨0#_, .ofNat 52 m, .subnormal hv.symm (hc.normal.resolve_left hm) hc.pos⟩

theorem unpack_pack {m : Nat} {e : Int} (hc : Canonical m e) (s : Sign) :
    (Float.Model.pack (.finite s m e hc.pos)).unpack = .finite s m e hc.pos := by
  obtain ⟨e', v, hf⟩ := hc.exists_fields s
  have hpack := hf.pack_eq (by simp)
  simp only [Float.Model.pack, Float.Model.unpack, hpack, hf.unpack_eq]

def Unsigned (x : Float) : Prop := x.toBits.toBitVec.msb = false

instance (x : Float) : Decidable (Unsigned x) := inferInstanceAs (Decidable (_ = false))

inductive Nonnegative : UnpackedFloat → Prop
  | infinity : Nonnegative (.infinity .positive)
  | zero : Nonnegative (.zero .positive)
  | finite (m : Nat) (e : Int) (h : 0 < m) : Nonnegative (.finite .positive m e h)

theorem msb_packComponents (s : Sign) (e : BitVec 11) (v : BitVec 52) :
    (packComponents .binary64 s e v).msb = false ↔ s = .positive := by
  rw [packComponents, BitVec.msb_append, if_neg (by decide), BitVec.msb_append, if_neg (by decide)]
  cases s <;> simp [Sign.toBitVec]

theorem nonnegative_unpack_iff (x : Float) :
    Nonnegative x.toModel.unpack ↔ x.isNaN = false ∧ Unsigned x := by
  obtain ⟨s, e, v, hx, hf⟩ := exists_fields x.toModel
  have hsign : Unsigned x ↔ s = .positive := by
    rw [← msb_packComponents s e v, ← hx]
    rfl
  have hnan : x.isNaN = x.toModel.unpack.isNaN := rfl
  rw [hsign, hnan]
  generalize x.toModel.unpack = u at hf
  constructor
  · intro hu
    cases hu <;> cases hf <;> exact ⟨rfl, rfl⟩
  · rintro ⟨hu, rfl⟩
    cases hf with
    | nan hv => cases hu
    | infinity => exact .infinity
    | zero => exact .zero
    | subnormal hm hk h => exact .finite _ _ h
    | normal h0 h1 hm hk h => exact .finite _ _ h

theorem Nonnegative.pack {u : UnpackedFloat} (hu : Nonnegative u) :
    ∃ e v, UnpackedFloat.pack .binary64 u = packComponents .binary64 .positive e v ∧
      (e = -1#_ → v = 0#_) := by
  cases hu with
  | infinity => exact ⟨_, _, rfl, fun _ => rfl⟩
  | zero => exact ⟨_, _, rfl, fun _ => rfl⟩
  | finite m k h =>
    simp only [UnpackedFloat.pack]
    split
    · exact ⟨_, _, rfl, fun _ => rfl⟩
    · next hk =>
      split
      · refine ⟨_, _, rfl, fun he => ?_⟩
        have hmax := congrArg BitVec.toNat he
        rw [BitVec.toNat_ofNat, Nat.mod_eq_of_lt (by omega)] at hmax
        change _ = 2047 at hmax
        omega
      · exact ⟨_, _, rfl, fun he => absurd he (by decide)⟩

theorem Nonnegative.unpack_pack {u : UnpackedFloat} (hu : Nonnegative u) :
    Nonnegative (Float.Model.pack u).unpack := by
  obtain ⟨e, v, hpack, hv⟩ := hu.pack
  have hf := fields_unpack .positive e v
  simp only [Float.Model.pack, Float.Model.unpack, hpack]
  generalize UnpackedFloat.unpack .binary64 (packComponents .binary64 .positive e v) = u' at hf
  cases hf with
  | nan hne => exact absurd (hv rfl) hne
  | infinity => exact .infinity
  | zero => exact .zero
  | subnormal hm hk h => exact .finite _ _ h
  | normal h0 h1 hm hk h => exact .finite _ _ h

end Calculator.Number
