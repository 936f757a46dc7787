import Calculator.Proofs.Grammar

/-! # The value of a phrase

A phrase is evaluated with its left operand first and each operation behind its operands.  Under a
nesting limit a level is checked where it is entered, before anything inside it is evaluated.
-/
namespace Calculator

structure Valuation where
  result : Except Failure Float
  steps : List Step := []

namespace Valuation

def bind (o : Valuation) (k : Float → Valuation) : Valuation :=
  match o.result with
  | .ok x => { result := (k x).result, steps := o.steps ++ (k x).steps }
  | .error _ => o

theorem bind_eq_of_ok {o : Valuation} {x : Float} (h : o.result = .ok x) (k : Float → Valuation) :
    o.bind k = ⟨(k x).result, o.steps ++ (k x).steps⟩ := by
  simp [bind, h]

theorem bind_eq_of_error {o : Valuation} {e : Failure} (h : o.result = .error e)
    (k : Float → Valuation) : o.bind k = o := by
  simp [bind, h]

theorem of_bind_ok {o : Valuation} {k : Float → Valuation} {v : Float}
    (h : (o.bind k).result = .ok v) : ∃ x, o.result = .ok x ∧ (k x).result = .ok v := by
  cases ho : o.result with
  | ok x => exact ⟨x, rfl, by simpa [bind_eq_of_ok ho] using h⟩
  | error e => simp [bind_eq_of_error ho, ho] at h

end Valuation

section
variable (lib : Elementary)

def Operation.valuation (o : Operation) : Valuation :=
  match o.perform lib with
  | .ok x => { result := .ok x, steps := [⟨o, x⟩] }
  | .error e => { result := .error e }

def Operator.valuation (op : Operator) (l r : Valuation) : Valuation :=
  l.bind fun x => r.bind fun y => (Operation.binary x op y).valuation lib

theorem Operator.of_valuation_ok {op : Operator} {l r : Valuation} {v : Float}
    (h : (op.valuation lib l r).result = .ok v) :
    (∃ x, l.result = .ok x) ∧ ∃ y, r.result = .ok y := by
  obtain ⟨x, hx, h⟩ := Valuation.of_bind_ok h
  obtain ⟨y, hy, _⟩ := Valuation.of_bind_ok h
  exact ⟨⟨x, hx⟩, y, hy⟩

namespace Phrase

def value {c : Category} : Phrase c → Valuation
  | .number x => { result := .ok x }
  | .group e => e.value
  | .call f e => e.value.bind fun x => (Operation.call f x).valuation lib
  | .primary p => p.value
  | .power b x => Operator.pow.valuation lib b.value x.value
  | .factor f => f.value
  | .product l op _ r => op.valuation lib l.value r.value
  | .term t => t.value
  | .sum l op _ r => op.valuation lib l.value r.value

end Phrase

def nested (limit depth : Nat) (inside : Nat → Valuation) : Valuation :=
  if limit < depth + 1 then { result := .error (.nestingTooDeep limit) } else inside (depth + 1)

theorem nested_eq {limit depth : Nat} (h : depth + 1 ≤ limit) (inside : Nat → Valuation) :
    nested limit depth inside = inside (depth + 1) :=
  if_neg (not_lt.mpr h)

theorem of_nested_ok {limit depth : Nat} {inside : Nat → Valuation} {v : Float}
    (h : (nested limit depth inside).result = .ok v) :
    depth + 1 ≤ limit ∧ (inside (depth + 1)).result = .ok v := by
  unfold nested at h
  split at h
  · cases h
  · exact ⟨by omega, h⟩

namespace Phrase

/-- The value of a phrase that stands inside `depth` levels of nesting. -/
def valueWithin (limit : Nat) {c : Category} (depth : Nat) : Phrase c → Valuation
  | .number x => { result := .ok x }
  | .group e => nested limit depth fun d => e.valueWithin limit d
  | .call f e =>
    (nested limit depth fun d => e.valueWithin limit d).bind fun x =>
      (Operation.call f x).valuation lib
  | .primary p => p.valueWithin limit depth
  | .power b x =>
    Operator.pow.valuation lib (b.valueWithin limit depth)
      (nested limit depth fun d => x.valueWithin limit d)
  | .factor f => f.valueWithin limit depth
  | .product l op _ r =>
    op.valuation lib (l.valueWithin limit depth) (r.valueWithin limit depth)
  | .term t => t.valueWithin limit depth
  | .sum l op _ r => op.valuation lib (l.valueWithin limit depth) (r.valueWithin limit depth)

/-- How deep the parts of a phrase are nested.  A group, the argument of a call and an exponent
open one level each. -/
def nesting {c : Category} : Phrase c → Nat
  | .number _ => 0
  | .group e | .call _ e => e.nesting + 1
  | .primary p => p.nesting
  | .power b x => max b.nesting (x.nesting + 1)
  | .factor f => f.nesting
  | .product l _ _ r => max l.nesting r.nesting
  | .term t => t.nesting
  | .sum l _ _ r => max l.nesting r.nesting

/-- A limit that no part of the phrase exceeds changes nothing. -/
theorem valueWithin_eq {limit : Nat} {c : Category} (p : Phrase c) {depth : Nat}
    (h : depth + p.nesting ≤ limit) : p.valueWithin lib limit depth = p.value lib := by
  induction p generalizing depth with
  | number x => rfl
  | group e ih =>
    simp only [nesting] at h
    rw [valueWithin, nested_eq (by omega), ih (by omega), value]
  | call f e ih =>
    simp only [nesting] at h
    rw [valueWithin, nested_eq (by omega), ih (by omega), value]
  | primary p ih => exact ih h
  | power b x ihb ihx =>
    simp only [nesting] at h
    rw [valueWithin, ihb (by omega), nested_eq (by omega), ihx (by omega), value]
  | factor f ih => exact ih h
  | product l op hop r ihl ihr =>
    simp only [nesting] at h
    rw [valueWithin, ihl (by omega), ihr (by omega), value]
  | term t ih => exact ih h
  | sum l op hop r ihl ihr =>
    simp only [nesting] at h
    rw [valueWithin, ihl (by omega), ihr (by omega), value]

/-- A value within the limit has passed the check of every level. -/
theorem nesting_le {limit : Nat} {c : Category} (p : Phrase c) {depth : Nat} {v : Float}
    (hd : depth ≤ limit) (h : (p.valueWithin lib limit depth).result = .ok v) :
    depth + p.nesting ≤ limit := by
  induction p generalizing depth v with
  | number x => exact hd
  | group e ih =>
    obtain ⟨hd', h⟩ := of_nested_ok h
    have he := ih hd' h
    simp only [nesting]
    omega
  | call f e ih =>
    obtain ⟨x, hx, _⟩ := Valuation.of_bind_ok h
    obtain ⟨hd', hx⟩ := of_nested_ok hx
    have he := ih hd' hx
    simp only [nesting]
    omega
  | primary p ih => exact ih hd h
  | power b x ihb ihx =>
    obtain ⟨⟨_, hb⟩, _, hx⟩ := Operator.of_valuation_ok lib h
    obtain ⟨hd', hx⟩ := of_nested_ok hx
    have hb' := ihb hd hb
    have hx' := ihx hd' hx
    simp only [nesting]
    omega
  | factor f ih => exact ih hd h
  | product l op hop r ihl ihr =>
    obtain ⟨⟨_, hl⟩, _, hr⟩ := Operator.of_valuation_ok lib h
    have hl' := ihl hd hl
    have hr' := ihr hd hr
    simp only [nesting]
    omega
  | term t ih => exact ih hd h
  | sum l op hop r ihl ihr =>
    obtain ⟨⟨_, hl⟩, _, hr⟩ := Operator.of_valuation_ok lib h
    have hl' := ihl hd hl
    have hr' := ihr hd hr
    simp only [nesting]
    omega

end Phrase

end

end Calculator
