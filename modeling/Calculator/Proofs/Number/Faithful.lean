import Calculator.Proofs.Number.Ordered
import Calculator.Proofs.Number.Places

/-! # Displayed numbers are faithful

The text of a displayed number, in plain notation or with an exponent, is read as a decimal.  This
decimal is the number rounded in its last place, so that it has the sign of the number, is a zero
only if the number is one, and keeps the order of the numbers.
-/
namespace Calculator.Number
open Float.Model Float.Model.UnpackedFloat

/-! ## Reading decimals -/

def signed? {α : Type} [Neg α] (read : List Char → Option α) : List Char → Option α
  | '-' :: cs => (read cs).map (- ·)
  | cs => read cs

def digits? (cs : List Char) : Option ℤ :=
  if cs ≠ [] ∧ cs.all Char.isDigit then some (digitsValue cs) else none

def unsigned? (cs : List Char) : Option ℚ :=
  let mantissa := cs.takeWhile (· != 'e')
  if isLiteral mantissa then
    match cs.dropWhile (· != 'e') with
    | [] => some (spelled mantissa)
    | _ :: ds => (signed? digits? ds).map fun k => spelled mantissa * 10 ^ k
  else none

def decimal? : List Char → Option ℚ := signed? unsigned?

theorem signed?_of_head {α : Type} [Neg α] (read : List Char → Option α) {cs : List Char}
    (h : ∀ c ∈ cs.head?, c ≠ '-') : signed? read cs = read cs := by
  unfold signed?
  split
  · exact absurd rfl (h '-' rfl)
  · rfl

theorem ne_minus {c : Char} (h : c.isDigit = true) : c ≠ '-' := by
  rintro rfl
  cases h

theorem digits?_numeral (n : ℕ) : digits? (numeral n) = some (n : ℤ) := by
  have hall : (numeral n).all Char.isDigit = true :=
    List.all_eq_true.mpr fun c hc => isDigit_of_mem_numeral hc
  rw [digits?, if_pos ⟨Nat.toDigits_ne_nil, hall⟩, digitsValue_numeral]

theorem signed?_intNumeral (k : ℤ) : signed? digits? (intNumeral k) = some k := by
  unfold intNumeral
  split_ifs with hk
  · have hneg : -(k.natAbs : ℤ) = k := by omega
    change (digits? (numeral k.natAbs)).map (- ·) = some k
    rw [digits?_numeral, Option.map_some, hneg]
  · have hnonneg : (k.natAbs : ℤ) = k := by omega
    have hhead : ∀ c ∈ (numeral k.natAbs).head?, c ≠ '-' := fun c hc =>
      ne_minus (isDigit_of_mem_numeral (List.mem_of_mem_head? hc))
    rw [signed?_of_head _ hhead, digits?_numeral, hnonneg]

section
variable {cs ds : List Char}

theorem ne_exponent_of_isLiteral (h : isLiteral cs = true) : ∀ c ∈ cs, (c != 'e') = true := by
  intro c hc
  simp only [isLiteral, Bool.and_eq_true, List.all_eq_true] at h
  rw [bne_iff_ne]
  rintro rfl
  exact absurd (h.1.1 'e' hc) (by decide)

theorem unsigned?_plain (h : isLiteral cs = true) : unsigned? cs = some (spelled cs) := by
  have hne := ne_exponent_of_isLiteral h
  have htake : cs.takeWhile (· != 'e') = cs := List.takeWhile_eq_self_iff.mpr hne
  have hdrop : cs.dropWhile (· != 'e') = [] := List.dropWhile_eq_nil_iff.mpr hne
  simp only [unsigned?, htake, hdrop, h, if_true]

theorem unsigned?_zero : unsigned? ['0'] = some 0 := by
  have hdigits : ∀ c ∈ ['0'], c.isDigit = true := by simp
  have hvalue : digitsValue ['0'] = 0 := digitsValue_numeral 0
  rw [unsigned?_plain (by decide), spelled_digits hdigits, hvalue, Nat.cast_zero]

theorem unsigned?_scientific {k : ℤ} (h : isLiteral cs = true) (hk : signed? digits? ds = some k) :
    unsigned? (cs ++ 'e' :: ds) = some (spelled cs * 10 ^ k) := by
  have hne := ne_exponent_of_isLiteral h
  have htake : (cs ++ 'e' :: ds).takeWhile (· != 'e') = cs := by
    rw [List.takeWhile_append_of_pos hne, List.takeWhile_cons_of_neg (by decide), List.append_nil]
  have hdrop : (cs ++ 'e' :: ds).dropWhile (· != 'e') = 'e' :: ds := by
    rw [List.dropWhile_append_of_pos hne, List.dropWhile_cons_of_neg (by decide)]
  simp only [unsigned?, htake, hdrop, h, if_true, hk, Option.map_some]

end

/-! ## The texts -/

/-- In plain notation no zero and no point stands at the end of the places. -/
def Tidy (cs : List Char) : Prop :=
  'e' ∉ cs → '.' ∈ cs → ∀ c ∈ cs.getLast?, c ≠ '0' ∧ c ≠ '.'

structure Spells (cs : List Char) (v : ℚ) : Prop where
  head : ∃ d ds, cs = d :: ds ∧ d.isDigit = true
  value : unsigned? cs = some v
  tidy : Tidy cs

theorem dropZeros_last (cs : List Char) : ∀ c ∈ (dropZeros cs).getLast?, c ≠ '0' := by
  intro c hc
  have hne : dropZeros cs ≠ [] := List.ne_nil_of_mem (List.mem_of_getLast? hc)
  have hlast := List.rdropWhile_last_not (· == '0') cs hne
  rw [Option.mem_def, List.getLast?_eq_some_getLast hne, Option.some_inj] at hc
  rw [← hc]
  exact ne_of_beq_false (Bool.eq_false_iff.mpr hlast)

theorem tidy_positional (n p : ℕ) : Tidy (positional n p) := by
  intro _ hpoint c hc
  unfold positional at hpoint hc
  have hwhole : '.' ∉ numeral (n / tens p) := fun h => ne_dot (isDigit_of_mem_numeral h) rfl
  have hlast := dropZeros_last (padded p (n % tens p))
  have hdigits : ∀ c ∈ dropZeros (padded p (n % tens p)), c.isDigit = true := by
    intro c hc
    obtain ⟨k, hk⟩ := exists_dropZeros (padded p (n % tens p))
    apply isDigit_of_mem_padded
    rw [hk]
    exact List.mem_append_left _ hc
  generalize dropZeros (padded p (n % tens p)) = tail at hpoint hc hlast hdigits
  cases tail with
  | nil => exact absurd hpoint hwhole
  | cons d ds =>
    have htail : c ∈ (d :: ds).getLast? := by
      rw [List.getLast?_append, List.getLast?_cons_cons] at hc
      simpa using hc
    exact ⟨hlast c htail, ne_dot (hdigits c (List.mem_of_getLast? htail))⟩

theorem exists_digit (n : ℕ) (rest : List Char) :
    ∃ d ds, numeral n ++ rest = d :: ds ∧ d.isDigit = true := by
  obtain ⟨d, ds, hds⟩ := List.exists_cons_of_ne_nil (Nat.toDigits_ne_nil (b := 10) (n := n))
  refine ⟨d, ds ++ rest, ?_, isDigit_of_mem_numeral (n := n) ?_⟩
  · rw [numeral, hds, List.cons_append]
  · rw [numeral, hds]
    exact List.mem_cons_self

theorem spells_positional (n p : ℕ) : Spells (positional n p) (n / 10 ^ p) := by
  obtain ⟨hliteral, hvalue⟩ := positional_spec n p
  refine ⟨?_, hvalue ▸ unsigned?_plain hliteral, tidy_positional n p⟩
  unfold positional
  split
  · simpa using exists_digit (n / tens p) []
  · exact exists_digit _ _

theorem spells_fixed (r : Fraction) : Spells (fixed r) ((r.shift 6).round / 10 ^ (6 : ℤ)) :=
  spells_positional _ 6

theorem spells_exponent (n : ℕ) (top : ℤ) :
    Spells (numeral (n / tens 6) ++ '.' :: padded 6 (n % tens 6) ++ 'e' :: intNumeral top)
      (n / 10 ^ 6 * 10 ^ top) := by
  have hwhole (c : Char) (hc : c ∈ numeral (n / tens 6)) := isDigit_of_mem_numeral hc
  have hplaces (c : Char) (hc : c ∈ padded 6 (n % tens 6)) := isDigit_of_mem_padded hc
  have hlength : (padded 6 (n % tens 6)).length = 6 :=
    length_padded (by decide) (Nat.mod_lt _ (by decide))
  have hsplit : (n : ℚ) = 10 ^ 6 * (n / tens 6 : ℕ) + (n % tens 6 : ℕ) := by
    exact_mod_cast (Nat.div_add_mod n (tens 6)).symm
  have hvalue : spelled (numeral (n / tens 6) ++ '.' :: padded 6 (n % tens 6)) = n / 10 ^ 6 := by
    rw [spelled_decimal hwhole hplaces, digitsValue_numeral, digitsValue_padded, hlength, hsplit]
    field_simp
  have hliteral := isLiteral_decimal hwhole Nat.toDigits_ne_nil hplaces
  refine ⟨?_, hvalue ▸ unsigned?_scientific hliteral (signed?_intNumeral top), ?_⟩
  · rw [List.append_assoc]
    exact exists_digit _ _
  · exact fun he => absurd (List.mem_append_right _ List.mem_cons_self) he

theorem spells_scientific (r : Fraction) :
    Spells (scientific r) ((r.shift (6 - r.magnitude)).round / 10 ^ (6 - r.magnitude)) := by
  unfold scientific
  dsimp only
  generalize (r.shift (6 - r.magnitude)).round = n
  have hpow : (10 : ℚ) ^ (6 - r.magnitude) = 10 ^ 6 / 10 ^ r.magnitude := by
    rw [zpow_sub₀ (by norm_num)]
    norm_num
  rw [hpow, div_div_eq_mul_div, mul_div_right_comm]
  split_ifs with hn
  · -- Ten units of the leading digit are one of the next higher digit.
    have hcarry : (n : ℚ) / 10 ^ 6 * 10 ^ r.magnitude =
        (tens 6 : ℕ) / 10 ^ 6 * 10 ^ (r.magnitude + 1) := by
      rw [hn, zpow_add_one₀ (by norm_num)]
      norm_num [tens]
      ring
    rw [hcarry]
    exact spells_exponent (tens 6) (r.magnitude + 1)
  · exact spells_exponent n r.magnitude

/-! ## Numbers and what their texts spell -/

/-- The text of a number with its exact value and the value that the text spells. -/
inductive Shown : List Char → ℚ → ℚ → Prop
  | zero : Shown ['0'] 0 0
  | positive {cs : List Char} {q v : ℚ} (hq : 0 < q) (hcs : Spells cs v) (h : Rounded q v) :
      Shown cs q v
  | negative {cs : List Char} {q v : ℚ} (hq : 0 < q) (hcs : Spells cs v) (h : Rounded q v) :
      Shown ('-' :: cs) (-q) (-v)

/-- Six places are shown exactly where the number has six of them. -/
theorem exists_rounded (r : Fraction) (hnum : 0 < r.num) (hden : 0 < r.den) {extreme : Bool}
    (hextreme : extreme = true ↔ 10 ^ 10 < r.value ∨ r.value < 1 / 10 ^ 5) :
    ∃ v, Spells (if extreme then scientific r else fixed r) v ∧ Rounded r.value v := by
  have hnearest (k : ℤ) : Nearest (r.value * 10 ^ k) (r.shift k).round := by
    rw [← Fraction.shift_value]
    exact Fraction.round_nearest (Fraction.shift_den_pos hden k)
  cases extreme with
  | true =>
    obtain ⟨hlow, hhigh⟩ := Fraction.magnitude_spec hnum hden
    rw [if_pos rfl]
    exact ⟨_, spells_scientific r, .intro (.scientific (hextreme.mp rfl) hlow hhigh) (hnearest _)⟩
  | false =>
    have hplain := mt hextreme.mpr Bool.false_ne_true
    rw [not_or, not_lt, not_lt] at hplain
    rw [if_neg Bool.false_ne_true]
    exact ⟨_, spells_fixed r, .intro (.plain hplain.2 hplain.1) (hnearest _)⟩

theorem exists_shown {x : Float} (hx : x.isFinite = true) :
    ∃ v, Shown (display x) (exactValue x) v := by
  have hextreme := isExtreme_iff hx
  have hbounded := bounded_unpack hx
  unfold exactValue at *
  unfold display
  generalize x.toModel.unpack = u at hbounded hextreme ⊢
  cases hbounded with
  | zero s => exact ⟨0, .zero⟩
  | @finite s m e hc =>
    have hpos := unpackedValue_pos (e := e) hc.pos
    have hvalue : (Fraction.binary m e).value = unpackedValue (.finite .positive m e hc.pos) :=
      Fraction.binary_value m e
    have habs : |unpackedValue (.finite s m e hc.pos)| = (Fraction.binary m e).value := by
      rw [hvalue]
      cases s with
      | negative => rw [unpackedValue_negative, abs_neg, abs_of_pos hpos]
      | positive => exact abs_of_pos hpos
    have hne : unpackedValue (.finite s m e hc.pos) ≠ 0 := by
      rw [← abs_pos, habs, hvalue]
      exact hpos
    have hnum : 0 < (Fraction.binary m e).num := by
      have hm := hc.pos
      simp only [Fraction.binary, Nat.shiftLeft_eq]
      positivity
    rw [habs, and_iff_left hne] at hextreme
    obtain ⟨v, hspells, hrounded⟩ :=
      exists_rounded _ hnum (Fraction.binary_den_pos m e) hextreme
    rw [hvalue] at hrounded
    cases s with
    | negative =>
      rw [unpackedValue_negative]
      exact ⟨-v, .negative hpos hspells hrounded⟩
    | positive => exact ⟨v, .positive hpos hspells hrounded⟩

namespace Shown
variable {cs ds : List Char} {p q v w : ℚ}

theorem decimal?_eq (h : Shown cs q v) : decimal? cs = some v := by
  cases h with
  | zero => exact unsigned?_zero
  | positive hq hcs h =>
    obtain ⟨d, ds, rfl, hd⟩ := hcs.head
    rw [decimal?, signed?_of_head _ (by rintro _ ⟨⟩; exact ne_minus hd), hcs.value]
  | @negative cs q v hq hcs h =>
    change (unsigned? cs).map (- ·) = _
    rw [hcs.value]
    rfl

theorem tidy (h : Shown cs q v) : Tidy cs := by
  cases h with
  | zero => exact fun _ hpoint => absurd hpoint (by decide)
  | positive hq hcs h => exact hcs.tidy
  | @negative cs _ _ hq hcs h =>
    intro he hpoint c hc
    obtain ⟨d, ds, rfl, -⟩ := hcs.head
    rw [List.getLast?_cons_cons] at hc
    refine hcs.tidy (fun h => he (List.mem_cons_of_mem _ h)) ?_ c hc
    exact (List.mem_cons.mp hpoint).resolve_left (by decide)

theorem ne_negative_zero (h : Shown cs q v) : cs ≠ ['-', '0'] := by
  rintro rfl
  cases h with
  | positive hq hcs h =>
    obtain ⟨d, ds, hhead, hd⟩ := hcs.head
    cases hhead
    exact ne_minus hd rfl
  | negative hq hcs h =>
    have hzero := hcs.value.symm.trans unsigned?_zero
    exact h.pos.ne' (Option.some_inj.mp hzero)

theorem sign_eq (h : Shown cs q v) : SignType.sign v = SignType.sign q := by
  cases h with
  | zero => rfl
  | positive hq hcs h => rw [sign_pos hq, sign_pos h.pos]
  | negative hq hcs h => rw [Left.sign_neg, Left.sign_neg, sign_pos hq, sign_pos h.pos]

theorem error (h : Shown cs q v) :
    (1 / 10 ^ 5 ≤ |q| ∧ |q| ≤ 10 ^ 10 → |v - q| ≤ 5 / 10 ^ 7) ∧
      (¬ (1 / 10 ^ 5 ≤ |q| ∧ |q| ≤ 10 ^ 10) → |v - q| ≤ 5 / 10 ^ 7 * |q|) := by
  cases h with
  | zero => norm_num
  | positive hq hcs h =>
    rw [abs_of_pos hq]
    exact h.error
  | @negative cs q v hq hcs h =>
    rw [neg_sub_neg, abs_sub_comm, abs_neg, abs_of_pos hq]
    exact h.error

/-- Signs are compared first, and then the magnitudes. -/
theorem mono (hp : Shown cs p v) (hq : Shown ds q w) (h : p ≤ q) : v ≤ w := by
  cases hp with
  | zero =>
    cases hq with
    | zero => exact le_rfl
    | positive hq hds hw => exact hw.pos.le
    | negative hq hds hw => linarith
  | positive hp hcs hv =>
    cases hq with
    | zero => linarith
    | positive hq hds hw => exact hv.mono hw h
    | negative hq hds hw => linarith
  | negative hp hcs hv =>
    have hpos := hv.pos
    cases hq with
    | zero => linarith
    | positive hq hds hw => linarith [hw.pos]
    | negative hq hds hw => exact neg_le_neg (hw.mono hv (neg_le_neg_iff.mp h))

end Shown

/-- The text of a finite number is read as a decimal that differs from it by half a unit in the
sixth place at most, or by as much in relation to the number where an exponent is shown.  The
decimal has the sign of the number, is a zero only if the number is one, and is shown without
superfluous characters.  Texts of larger numbers never spell smaller decimals. -/
theorem display_faithful {x : Float} (hx : x.isFinite = true) :
    ∃ v, decimal? (display x) = some v ∧
      (1 / 10 ^ 5 ≤ |exactValue x| ∧ |exactValue x| ≤ 10 ^ 10 →
        |v - exactValue x| ≤ 5 / 10 ^ 7) ∧
      (¬ (1 / 10 ^ 5 ≤ |exactValue x| ∧ |exactValue x| ≤ 10 ^ 10) →
        |v - exactValue x| ≤ 5 / 10 ^ 7 * |exactValue x|) ∧
      (v = 0 ↔ (x == 0) = true) ∧ SignType.sign v = SignType.sign (exactValue x) ∧
      display x ≠ ['-', '0'] ∧ Tidy (display x) ∧
      ∀ y : Float, y.isFinite = true → x ≤ y →
        ∃ w, decimal? (display y) = some w ∧ v ≤ w := by
  obtain ⟨v, hv⟩ := exists_shown hx
  have hzero : v = 0 ↔ exactValue x = 0 := by
    rw [← sign_eq_zero_iff, hv.sign_eq, sign_eq_zero_iff]
  obtain ⟨hplain, hextreme⟩ := hv.error
  refine ⟨v, hv.decimal?_eq, hplain, hextreme, ?_, hv.sign_eq, hv.ne_negative_zero,
    hv.tidy, ?_⟩
  · rw [hzero, beq_iff_exactValue hx rfl]
    rfl
  · intro y hy hxy
    obtain ⟨w, hw⟩ := exists_shown hy
    exact ⟨w, hw.decimal?_eq, hv.mono hw ((le_iff_exactValue hx hy).mp hxy)⟩

/-- Just below the switch between the notations the rounding carries to the next power of ten. -/
theorem carry_faithful : Float.isFinite 9.9999999e-6 = true ∧
    display 9.9999999e-6 = "1.000000e-5".toList ∧
    ∃ v, decimal? (display 9.9999999e-6) = some v ∧ v ≠ 0 ∧
      ∀ y : Float, y.isFinite = true → 9.9999999e-6 ≤ y →
        ∃ w, decimal? (display y) = some w ∧ v ≤ w := by
  refine ⟨rfl, by decide +kernel, ?_⟩
  obtain ⟨v, hv, -, -, hzero, -, -, -, hmono⟩ := display_faithful (x := 9.9999999e-6) rfl
  exact ⟨v, hv, mt hzero.mp (by decide +kernel), hmono⟩

end Calculator.Number
