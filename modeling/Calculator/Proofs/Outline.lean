import Calculator.Proofs.Grammar

/-! # Beginnings of sentences

What may follow the beginning of a sentence depends on little: whether an operand, the parenthesis
of a call or an operator comes next, and how many groups are open.  Following the tokens through
these outlines decides whether they begin a sentence, and every outline can be completed to one.
-/
namespace Calculator

inductive Outline where
  | operand (opened : Nat)
  | argument (opened : Nat)
  | operated (opened : Nat)
  | ended

namespace Outline

def next? : Outline → Token → Option Outline
  | .operand n, .number _ => some (.operated n)
  | .operand n, .name f => if (Function.ofName? f).isSome then some (.argument n) else none
  | .operand n, .symbol c | .argument n, .symbol c =>
    if c = '(' then some (.operand (n + 1)) else none
  | .operated n, .symbol c =>
    if (Operator.ofSymbol? c).isSome then some (.operand n)
    else if c = ')' ∧ 0 < n then some (.operated (n - 1))
    else none
  | .operated n, .eof => if n = 0 then some .ended else none
  | _, _ => none

def follow (o : Outline) (ts : List Token) : Option Outline := ts.foldlM next? o

@[simp] theorem follow_nil (o : Outline) : o.follow [] = some o := rfl

@[simp] theorem follow_cons (o : Outline) (t : Token) (ts : List Token) :
    o.follow (t :: ts) = (o.next? t).bind fun o' => o'.follow ts := by
  simp [follow]

theorem follow_append (o : Outline) (ts us : List Token) :
    o.follow (ts ++ us) = (o.follow ts).bind fun o' => o'.follow us := by
  simp [follow, List.foldlM_append]

@[simp] theorem next?_operator (n : Nat) (op : Operator) :
    (operated n).next? op.token = some (.operand n) := by
  cases op <;> rfl

@[simp] theorem next?_name (n : Nat) (f : Function) :
    (operand n).next? (.name f.name) = some (.argument n) := by
  cases f <;> rfl

@[simp] theorem next?_open (n : Nat) :
    (operand n).next? (.symbol '(') = some (.operand (n + 1)) := rfl

@[simp] theorem next?_open_argument (n : Nat) :
    (argument n).next? (.symbol '(') = some (.operand (n + 1)) := rfl

@[simp] theorem next?_close (n : Nat) :
    (operated (n + 1)).next? (.symbol ')') = some (.operated n) := rfl

inductive Advances : Outline → Token → Outline → Prop
  | number (n : Nat) (x : Float) : Advances (.operand n) (.number x) (.operated n)
  | name (n : Nat) (f : Function) : Advances (.operand n) (.name f.name) (.argument n)
  | group (n : Nat) : Advances (.operand n) (.symbol '(') (.operand (n + 1))
  | call (n : Nat) : Advances (.argument n) (.symbol '(') (.operand (n + 1))
  | operator (n : Nat) (op : Operator) : Advances (.operated n) (.symbol op.symbol) (.operand n)
  | close (n : Nat) : Advances (.operated (n + 1)) (.symbol ')') (.operated n)
  | eof : Advances (.operated 0) .eof .ended

theorem advances {o o' : Outline} {t : Token} (hn : o.next? t = some o') : o.Advances t o' := by
  cases o with
  | operand n =>
    cases t with
    | number x =>
      cases hn
      exact .number n x
    | name f =>
      cases hf : Function.ofName? f with
      | none => simp [next?, hf] at hn
      | some f =>
        obtain rfl := Function.eq_name hf
        simp only [next?_name, Option.some.injEq] at hn
        subst hn
        exact .name n f
    | symbol c =>
      simp only [next?, Option.ite_none_right_eq_some, Option.some.injEq] at hn
      obtain ⟨rfl, rfl⟩ := hn
      exact .group n
    | comma => cases hn
    | eof => cases hn
  | argument n =>
    cases t with
    | symbol c =>
      simp only [next?, Option.ite_none_right_eq_some, Option.some.injEq] at hn
      obtain ⟨rfl, rfl⟩ := hn
      exact .call n
    | _ => cases hn
  | operated n =>
    cases t with
    | symbol c =>
      cases ho : Operator.ofSymbol? c with
      | some op =>
        obtain rfl := Operator.eq_symbol ho
        simp only [next?, ho, Option.isSome_some, ↓reduceIte, Option.some.injEq] at hn
        subst hn
        exact .operator n op
      | none =>
        simp only [next?, ho, Option.isSome_none, Bool.false_eq_true, ↓reduceIte,
          Option.ite_none_right_eq_some, Option.some.injEq] at hn
        obtain ⟨⟨rfl, hpos⟩, rfl⟩ := hn
        obtain ⟨m, rfl⟩ := Nat.exists_eq_succ_of_ne_zero hpos.ne'
        exact .close m
    | eof =>
      simp only [next?, Option.ite_none_right_eq_some, Option.some.injEq] at hn
      obtain ⟨rfl, rfl⟩ := hn
      exact .eof
    | _ => cases hn
  | ended => cases t <;> cases hn

/-- A phrase is an operand that can be followed by an operator. -/
theorem follow_tokens {c : Category} (p : Phrase c) (n : Nat) :
    (operand n).follow p.tokens = some (.operated n) := by
  induction p generalizing n with
  | number x => rfl
  | group e ih => simp [Phrase.tokens, follow_append, ih]
  | call f e ih => simp [Phrase.tokens, follow_append, ih]
  | primary p ih => exact ih n
  | power b x ihb ihx => simp [Phrase.tokens, follow_append, ihb, ihx]
  | factor f ih => exact ih n
  | product l op hop r ihl ihr => simp [Phrase.tokens, follow_append, ihl, ihr]
  | term t ih => exact ih n
  | sum l op hop r ihl ihr => simp [Phrase.tokens, follow_append, ihl, ihr]

end Outline

namespace Phrase

/-- One more exponent at the end of a power. -/
theorem exists_power : ∀ (f : Phrase .factor) (b : Phrase .primary),
    ∃ f' : Phrase .factor, f'.tokens = f.tokens ++ Operator.pow.token :: b.tokens
  | .primary p, b => ⟨.power p (.primary b), rfl⟩
  | .power p x, b => by
    obtain ⟨x', hx⟩ := exists_power x b
    exact ⟨.power p x', by simp [tokens, hx]⟩

theorem exists_product (t : Phrase .term) {op : Operator} (hop : 2 ≤ op.level)
    (b : Phrase .primary) : ∃ t' : Phrase .term, t'.tokens = t.tokens ++ op.token :: b.tokens := by
  by_cases hmul : op.level = 2
  · exact ⟨.product t op hmul (.primary b), rfl⟩
  · have hpow : op = .pow := by cases op <;> simp_all [Operator.level]
    subst hpow
    cases t with
    | factor f =>
      obtain ⟨f', hf⟩ := f.exists_power b
      exact ⟨.factor f', hf⟩
    | product l op' h r =>
      obtain ⟨r', hr⟩ := r.exists_power b
      exact ⟨.product l op' h r', by simp [tokens, hr]⟩

/-- Any expression can be continued by any operator and operand. -/
theorem exists_sum (e : Phrase .expr) (op : Operator) (b : Phrase .primary) :
    ∃ e' : Phrase .expr, e'.tokens = e.tokens ++ op.token :: b.tokens := by
  by_cases hadd : op.level = 1
  · exact ⟨.sum e op hadd (.factor (.primary b)), rfl⟩
  · have hmul : 2 ≤ op.level := by cases op <;> simp_all [Operator.level]
    cases e with
    | term t =>
      obtain ⟨t', ht⟩ := t.exists_product hmul b
      exact ⟨.term t', ht⟩
    | sum l op' h r =>
      obtain ⟨r', hr⟩ := r.exists_product hmul b
      exact ⟨.sum l op' h r', by simp [tokens, hr]⟩

def ofPrimary (b : Phrase .primary) : Phrase .expr := .term (.factor (.primary b))

end Phrase

def Lead (ts : List Token) : Prop :=
  ts = [] ∨ ∃ (e : Phrase .expr) (op : Operator), ts = e.tokens ++ [op.token]

theorem Lead.complete {lead : List Token} (h : Lead lead) (b : Phrase .primary) :
    ∃ e : Phrase .expr, e.tokens = lead ++ b.tokens := by
  rcases h with rfl | ⟨e, op, rfl⟩
  · exact ⟨.ofPrimary b, rfl⟩
  · obtain ⟨e', he⟩ := e.exists_sum op b
    exact ⟨e', by simp [he]⟩

inductive Opened : Nat → List Token → Prop
  | line : Opened 0 []
  | group {n : Nat} {ts lead : List Token} (h : Opened n ts) (hl : Lead lead) :
      Opened (n + 1) (ts ++ lead ++ [.symbol '('])
  | call {n : Nat} {ts lead : List Token} (h : Opened n ts) (hl : Lead lead) (f : Function) :
      Opened (n + 1) (ts ++ lead ++ [.name f.name, .symbol '('])

/-- The end of the innermost group makes an operand of it for what surrounds it. -/
theorem Opened.close {n : Nat} {ts : List Token} (h : Opened (n + 1) ts) (e : Phrase .expr) :
    ∃ around, Opened n around ∧
      ∃ e' : Phrase .expr, ts ++ e.tokens ++ [.symbol ')'] = around ++ e'.tokens := by
  cases h with
  | @group _ ts lead h hl =>
    obtain ⟨e', he⟩ := hl.complete (.group e)
    exact ⟨ts, h, e', by simp [he, Phrase.tokens]⟩
  | @call _ ts lead h hl f =>
    obtain ⟨e', he⟩ := hl.complete (.call f e)
    exact ⟨ts, h, e', by simp [he, Phrase.tokens]⟩

namespace Outline

def Covers : Outline → List Token → Prop
  | .operand n, ts => ∃ around lead, Opened n around ∧ Lead lead ∧ ts = around ++ lead
  | .argument n, ts =>
    ∃ around lead f, Opened n around ∧ Lead lead ∧ ts = around ++ lead ++ [.name (Function.name f)]
  | .operated n, ts => ∃ around, Opened n around ∧ ∃ e : Phrase .expr, ts = around ++ e.tokens
  | .ended, ts => ∃ e : Phrase .expr, ts = e.tokens ++ [.eof]

/-- Each token that an outline lets through leads to what it says. -/
theorem Covers.next {o o' : Outline} {ts : List Token} {t : Token} (h : o.Covers ts)
    (hn : o.next? t = some o') : o'.Covers (ts ++ [t]) := by
  cases advances hn with
  | number n x =>
    obtain ⟨around, lead, ha, hl, rfl⟩ := h
    obtain ⟨e, he⟩ := hl.complete (.number x)
    exact ⟨around, ha, e, by simp [he, Phrase.tokens]⟩
  | name n f =>
    obtain ⟨around, lead, ha, hl, rfl⟩ := h
    exact ⟨around, lead, f, ha, hl, rfl⟩
  | group n =>
    obtain ⟨around, lead, ha, hl, rfl⟩ := h
    exact ⟨_, [], .group ha hl, .inl rfl, by simp⟩
  | call n =>
    obtain ⟨around, lead, f, ha, hl, rfl⟩ := h
    exact ⟨_, [], .call ha hl f, .inl rfl, by simp⟩
  | operator n op =>
    obtain ⟨around, ha, e, rfl⟩ := h
    exact ⟨around, e.tokens ++ [op.token], ha, .inr ⟨e, op, rfl⟩, by simp [Operator.token]⟩
  | close n =>
    obtain ⟨around, ha, e, rfl⟩ := h
    exact ha.close e
  | eof =>
    obtain ⟨around, ha, e, rfl⟩ := h
    cases ha
    exact ⟨e, by simp⟩

theorem Covers.follow {o o' : Outline} {ts us : List Token} (h : o.Covers ts)
    (hf : o.follow us = some o') : o'.Covers (ts ++ us) := by
  induction us generalizing o ts with
  | nil =>
    cases hf
    simpa using h
  | cons u us ih =>
    rw [follow_cons] at hf
    obtain ⟨o₁, hn, hf⟩ := Option.bind_eq_some_iff.mp hf
    simpa using ih (h.next hn) hf

theorem covers_nil : (operand 0).Covers [] := ⟨[], [], .line, .inl rfl, rfl⟩

def completion : Outline → List Token
  | .operand n => .number 0 :: (List.replicate n (.symbol ')') ++ [.eof])
  | .argument n => .symbol '(' :: .number 0 :: (List.replicate (n + 1) (.symbol ')') ++ [.eof])
  | .operated n => List.replicate n (.symbol ')') ++ [.eof]
  | .ended => []

theorem follow_closing (n : Nat) :
    (operated n).follow (List.replicate n (.symbol ')') ++ [.eof]) = some .ended := by
  induction n with
  | zero => rfl
  | succ n ih => simpa [List.replicate_succ] using ih

theorem follow_completion (o : Outline) : o.follow o.completion = some .ended := by
  cases o with
  | operand n => simpa [completion, next?] using follow_closing n
  | argument n => simpa [completion, next?] using follow_closing (n + 1)
  | operated n => exact follow_closing n
  | ended => rfl

end Outline

def Sentence (ts : List Token) : Prop := ∃ e : Phrase .expr, ts = e.tokens ++ [.eof]

theorem sentence_iff {ts : List Token} :
    Sentence ts ↔ (Outline.operand 0).follow ts = some .ended := by
  constructor
  · rintro ⟨e, rfl⟩
    simp [Outline.follow_append, Outline.follow_tokens, Outline.next?]
  · intro h
    exact Outline.covers_nil.follow h

def Viable (ts : List Token) : Prop := ∃ us, Sentence (ts ++ us)

theorem viable_iff {ts : List Token} :
    Viable ts ↔ ∃ o, (Outline.operand 0).follow ts = some o := by
  constructor
  · rintro ⟨us, h⟩
    rw [sentence_iff, Outline.follow_append] at h
    obtain ⟨o, ho, _⟩ := Option.bind_eq_some_iff.mp h
    exact ⟨o, ho⟩
  · rintro ⟨o, ho⟩
    refine ⟨o.completion, ?_⟩
    rw [sentence_iff, Outline.follow_append, ho]
    exact o.follow_completion

/-- Whether a beginning can be continued by a token is a matter of its outline. -/
theorem viable_append_iff {ts : List Token} {o : Outline}
    (h : (Outline.operand 0).follow ts = some o) (t : Token) :
    Viable (ts ++ [t]) ↔ (o.next? t).isSome := by
  rw [viable_iff, Outline.follow_append, h]
  simp [Option.isSome_iff_exists]

end Calculator
