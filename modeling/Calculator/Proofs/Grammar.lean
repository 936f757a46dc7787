import Mathlib.Tactic
import Calculator.Reader

/-! # The grammar of expressions

Phrases are the derivation trees of the grammar, one constructor for each production.  Sums and
products nest to the left and powers to the right.  The main statement is that a phrase is
determined by its category and its tokens.
-/
namespace Calculator

def Operator.token (op : Operator) : Token := .symbol op.symbol

@[simp] theorem Operator.operator?_token (op : Operator) : op.token.operator? = some op := by
  cases op <;> rfl

theorem Operator.token_ne_eof (op : Operator) : op.token ≠ .eof := by
  simp [Operator.token]

theorem Operator.token_injective : Function.Injective Operator.token := by
  intro op op' h
  have ho := congrArg Token.operator? h
  simpa using ho

theorem Operator.ne_pow {op : Operator} (h : op.level ≤ 2) : op ≠ .pow := by
  rintro rfl
  exact absurd h (by decide)

theorem Function.name_injective : Function.Injective Function.name := by
  intro f g h
  cases f <;> cases g <;> first | rfl | exact absurd h (by decide)

theorem Function.eq_name {n : List Char} {f : Function} (h : Function.ofName? n = some f) :
    n = f.name := by
  have hf := List.find?_some h
  exact (beq_iff_eq.mp hf).symm

theorem Operator.eq_symbol {c : Char} {op : Operator} (h : Operator.ofSymbol? c = some op) :
    c = op.symbol := by
  have ho := List.find?_some h
  exact (beq_iff_eq.mp ho).symm

theorem Token.eq_token {t : Token} {op : Operator} (h : t.operator? = some op) : t = op.token := by
  cases t with
  | symbol c => exact congrArg Token.symbol (Operator.eq_symbol h)
  | _ => cases h

inductive Category where
  | expr
  | term
  | factor
  | primary

def Category.level : Category → Nat
  | .expr => 1
  | .term => 2
  | .factor => 3
  | .primary => 4

/-- The derivation trees of

    expr    ::= term    | expr ('+' | '-') term
    term    ::= factor  | term ('*' | '/' | '%') factor
    factor  ::= primary | primary '^' factor
    primary ::= number  | '(' expr ')' | name '(' expr ')' -/
inductive Phrase : Category → Type where
  | number (x : Float) : Phrase .primary
  | group (e : Phrase .expr) : Phrase .primary
  | call (f : Function) (e : Phrase .expr) : Phrase .primary
  | primary (p : Phrase .primary) : Phrase .factor
  | power (b : Phrase .primary) (x : Phrase .factor) : Phrase .factor
  | factor (f : Phrase .factor) : Phrase .term
  | product (l : Phrase .term) (op : Operator) (h : op.level = 2) (r : Phrase .factor) :
      Phrase .term
  | term (t : Phrase .term) : Phrase .expr
  | sum (l : Phrase .expr) (op : Operator) (h : op.level = 1) (r : Phrase .term) : Phrase .expr

namespace Phrase

def tokens {c : Category} : Phrase c → List Token
  | .number x => [.number x]
  | .group e => .symbol '(' :: (e.tokens ++ [.symbol ')'])
  | .call f e => .name f.name :: .symbol '(' :: (e.tokens ++ [.symbol ')'])
  | .primary p => p.tokens
  | .power b x => b.tokens ++ Operator.pow.token :: x.tokens
  | .factor f => f.tokens
  | .product l op _ r => l.tokens ++ op.token :: r.tokens
  | .term t => t.tokens
  | .sum l op _ r => l.tokens ++ op.token :: r.tokens

end Phrase

def nextOperator? (ts : List Token) : Option Operator := ts.head?.bind Token.operator?

@[simp] theorem nextOperator?_token (op : Operator) (ts : List Token) :
    nextOperator? (op.token :: ts) = some op := by
  simp [nextOperator?]

@[simp] theorem nextOperator?_close (ts : List Token) :
    nextOperator? (.symbol ')' :: ts) = none := rfl

namespace Category

/-- Every operator of a phrase of the category is applied before what follows is read. -/
def ClosedBy (c : Category) (ts : List Token) : Prop :=
  ∀ next, nextOperator? ts = some next →
    ∀ op : Operator, c.level ≤ op.level → op.yieldsTo next = false

def Ends (c : Category) (ts : List Token) : Prop :=
  ∀ next, nextOperator? ts = some next → next.level < c.level

theorem Ends.closedBy {c : Category} {ts : List Token} (h : c.Ends ts) : c.ClosedBy ts := by
  intro next hn op hop
  have hl := h next hn
  simp [Operator.yieldsTo]
  omega

theorem ClosedBy.of_level_le {c d : Category} {ts : List Token} (h : c.ClosedBy ts)
    (hcd : c.level ≤ d.level) : d.ClosedBy ts := by
  intro next hn op hop
  exact h next hn op (hcd.trans hop)

theorem ClosedBy.any_yieldsTo {c : Category} {ts : List Token} (h : c.ClosedBy ts) {op : Operator}
    (hop : c.level ≤ op.level) : (nextOperator? ts).any op.yieldsTo = false := by
  cases hn : nextOperator? ts with
  | none => rfl
  | some next => exact h next hn op hop

/-- Whatever closes a sum cannot continue its last term, and likewise for products. -/
theorem ClosedBy.ends {c d : Category} {ts : List Token} (h : c.ClosedBy ts) (op : Operator)
    (hop : op.level = c.level) (hd : d.level = c.level + 1) : d.Ends ts := by
  intro next hn
  have ho := h next hn op hop.ge
  simp only [Operator.yieldsTo, Bool.or_eq_false_iff, decide_eq_false_iff_not] at ho
  omega

theorem closedBy_primary (ts : List Token) : primary.ClosedBy ts := by
  intro next _ op hop
  cases op <;> simp [Operator.level, Category.level] at hop

theorem ends_primary (ts : List Token) : primary.Ends ts := by
  intro next _
  cases next <;> decide

/-- A sum goes on with an operator of its own level, and so does a product. -/
theorem closedBy_token {c : Category} {op : Operator} (h : op.level = c.level) (hp : op ≠ .pow)
    (ts : List Token) : c.ClosedBy (op.token :: ts) := by
  intro next hn op' hop'
  obtain rfl : op = next := by simpa using hn
  have hl : op'.level = op.level → op' ≠ .pow := by
    intro he ho
    subst op'
    cases op <;> simp [Operator.level] at he hp
  simp only [Operator.yieldsTo, Bool.or_eq_false_iff, decide_eq_false_iff_not, not_lt,
    Bool.and_eq_false_imp, beq_iff_eq, beq_eq_false_iff_ne]
  exact ⟨by omega, hl⟩

theorem ends_close (c : Category) (ts : List Token) : c.Ends (.symbol ')' :: ts) := by
  intro next hn
  simp at hn

end Category

/-- `Grows l op r p`: the phrase `p` is the sum or product `l` with one more operand `r`. -/
inductive Grows : {c d : Category} → Phrase c → Operator → Phrase d → Phrase c → Prop
  | product (l : Phrase .term) (op : Operator) (h : op.level = 2) (r : Phrase .factor) :
      Grows l op r (.product l op h r)
  | sum (l : Phrase .expr) (op : Operator) (h : op.level = 1) (r : Phrase .term) :
      Grows l op r (.sum l op h r)

namespace Grows

variable {c d : Category} {l p : Phrase c} {op : Operator} {r : Phrase d}

theorem tokens_eq (h : Grows l op r p) : p.tokens = l.tokens ++ op.token :: r.tokens := by
  cases h <;> rfl

theorem level_eq (h : Grows l op r p) : op.level = c.level := by
  cases h <;> assumption

theorem tighter (h : Grows l op r p) : d.level = c.level + 1 := by
  cases h <;> rfl

end Grows

/-- `Spine p q ts`: the phrase `p` lies on the left edge of `q`, and `ts` are the tokens behind
it. -/
inductive Spine {c : Category} : Phrase c → Phrase c → List Token → Prop
  | refl (p : Phrase c) : Spine p p []
  | cons {d : Category} {p p' q : Phrase c} {op : Operator} {r : Phrase d} {ts : List Token}
      (hg : Grows p op r p') (hs : Spine p' q ts) : Spine p q (op.token :: (r.tokens ++ ts))

namespace Spine

variable {c : Category} {p q q' : Phrase c} {ts rest rest' : List Token}

theorem tokens_eq (h : Spine p q ts) : q.tokens = p.tokens ++ ts := by
  induction h with
  | refl p => simp
  | cons hg hs ih => simp [ih, hg.tokens_eq]

theorem snoc {d : Category} {op : Operator} {r : Phrase d} (h : Spine p q ts)
    (hg : Grows q op r q') : Spine p q' (ts ++ op.token :: r.tokens) := by
  induction h with
  | refl p => simpa using Spine.cons hg (.refl q')
  | cons hg' hs ih => simpa using Spine.cons hg' (ih hg)

theorem exists_factor : ∀ q : Phrase .term, ∃ f ts, Spine (.factor f) q ts
  | .factor f => ⟨f, [], .refl _⟩
  | .product l op h r =>
    have ⟨f, _, hs⟩ := exists_factor l
    ⟨f, _, hs.snoc (.product l op h r)⟩

theorem exists_term : ∀ q : Phrase .expr, ∃ t ts, Spine (.term t) q ts
  | .term t => ⟨t, [], .refl _⟩
  | .sum l op h r =>
    have ⟨t, _, hs⟩ := exists_term l
    ⟨t, _, hs.snoc (.sum l op h r)⟩

/-- What continues a phrase is an operator of its own level, unless nothing does. -/
theorem ends {d : Category} (h : Spine p q ts) (hr : c.Ends rest) (hd : d.level = c.level + 1) :
    d.Ends (ts ++ rest) := by
  intro next hn
  cases h with
  | refl =>
    have hl := hr next hn
    omega
  | cons hg hs =>
    obtain rfl : _ = next := by simpa using hn
    have hl := hg.level_eq
    omega

theorem eq_of_ends (h : ∃ ts, Spine p q ts ∧ rest = ts ++ rest') (hr : c.Ends rest) :
    p = q ∧ rest = rest' := by
  obtain ⟨ts, hs, rfl⟩ := h
  cases hs with
  | refl => exact ⟨rfl, rfl⟩
  | cons hg hs => exact absurd hg.level_eq (hr _ (nextOperator?_token _ _)).ne

/-- A left operand on the edge puts the grown phrase on the edge, once the operands agree. -/
theorem grow {d : Category} {l : Phrase c} {op : Operator} {r : Phrase d} (hg : Grows l op r p)
    (h : ∃ ts, Spine l q ts ∧ op.token :: (r.tokens ++ rest) = ts ++ rest') (hr' : c.Ends rest')
    (unique : ∀ (r' : Phrase d) (us : List Token), d.Ends us →
      r.tokens ++ rest = r'.tokens ++ us → r = r' ∧ rest = us) :
    ∃ ts, Spine p q ts ∧ rest = ts ++ rest' := by
  obtain ⟨ts, hs, hts⟩ := h
  cases hs with
  | refl =>
    subst hts
    exact absurd hg.level_eq (hr' _ (nextOperator?_token _ _)).ne
  | cons hg' hs' =>
    simp only [List.cons_append, List.append_assoc, List.cons.injEq] at hts
    obtain ⟨hop, hts⟩ := hts
    obtain rfl := Operator.token_injective hop
    have hends := hs'.ends hr' hg.tighter
    cases hg <;> cases hg' <;>
    · obtain ⟨rfl, rfl⟩ := unique _ _ hends hts
      exact ⟨_, hs', rfl⟩

end Spine

namespace Phrase

/-- A phrase that is read off the front of another one lies on the left edge of it. -/
theorem spine_of_tokens {c : Category} (p q : Phrase c) {rest rest' : List Token}
    (hr : c.ClosedBy rest) (hr' : c.Ends rest') (h : p.tokens ++ rest = q.tokens ++ rest') :
    ∃ ts, Spine p q ts ∧ rest = ts ++ rest' := by
  induction p generalizing rest rest' with
  | number x =>
    cases q <;> simp only [tokens, List.cons_append, List.cons.injEq, Token.number.injEq,
      reduceCtorEq, false_and, List.nil_append] at h
    obtain ⟨rfl, rfl⟩ := h
    exact ⟨[], .refl _, rfl⟩
  | group e ihe =>
    cases q <;> simp only [tokens, List.cons_append, List.append_assoc, List.cons.injEq, true_and,
      reduceCtorEq, false_and, List.nil_append] at h
    have hclose := Category.ends_close .expr
    obtain ⟨rfl, hrest⟩ := Spine.eq_of_ends (ihe _ (hclose _).closedBy (hclose _) h) (hclose _)
    exact ⟨[], .refl _, (List.cons.inj hrest).2⟩
  | call f e ihe =>
    cases q <;> simp only [tokens, List.cons_append, List.append_assoc, List.cons.injEq, true_and,
      Token.name.injEq, reduceCtorEq, false_and, List.nil_append] at h
    obtain ⟨hname, h⟩ := h
    obtain rfl := Function.name_injective hname
    have hclose := Category.ends_close .expr
    obtain ⟨rfl, hrest⟩ := Spine.eq_of_ends (ihe _ (hclose _).closedBy (hclose _) h) (hclose _)
    exact ⟨[], .refl _, (List.cons.inj hrest).2⟩
  | primary p ihp =>
    have unique (q : Phrase .primary) {us us' : List Token}
        (h : p.tokens ++ us = q.tokens ++ us') :=
      Spine.eq_of_ends (ihp q (Category.closedBy_primary us) (Category.ends_primary us') h)
        (Category.ends_primary us)
    cases q with
    | primary q =>
      obtain ⟨rfl, rfl⟩ := unique q h
      exact ⟨[], .refl _, rfl⟩
    | power b x =>
      obtain ⟨rfl, rfl⟩ := unique b (h.trans (List.append_assoc ..))
      exact absurd (hr .pow (nextOperator?_token _ _) .pow le_rfl) (by decide)
  | power b x ihb ihx =>
    have unique (q : Phrase .primary) {us us' : List Token}
        (h : b.tokens ++ us = q.tokens ++ us') :=
      Spine.eq_of_ends (ihb q (Category.closedBy_primary us) (Category.ends_primary us') h)
        (Category.ends_primary us)
    simp only [tokens, List.append_assoc, List.cons_append] at h
    cases q with
    | primary q =>
      obtain ⟨rfl, rfl⟩ := unique q h
      exact absurd (hr' .pow (nextOperator?_token _ _)) (by decide)
    | power b' x' =>
      simp only [tokens, List.append_assoc, List.cons_append] at h
      obtain ⟨rfl, hx⟩ := unique b' h
      obtain ⟨ts, hs, rfl⟩ := ihx x' hr hr' (List.cons.inj hx).2
      cases hs with
      | refl => exact ⟨[], .refl _, rfl⟩
      | cons hg => cases hg
  | factor f ihf =>
    obtain ⟨f', ts, hs⟩ := Spine.exists_factor q
    rw [hs.tokens_eq, List.append_assoc] at h
    have hends := hs.ends (d := .factor) hr' rfl
    obtain ⟨rfl, rfl⟩ := Spine.eq_of_ends (ihf f' (hr.of_level_le (by decide)) hends h)
      (hr.ends .mul rfl rfl)
    exact ⟨ts, hs, rfl⟩
  | product l op hop r ihl ihr =>
    simp only [tokens, List.append_assoc, List.cons_append] at h
    have hl := ihl q (Category.closedBy_token hop (Operator.ne_pow hop.le) _) hr' h
    apply Spine.grow (.product l op hop r) hl hr'
    intro r' us hus h'
    exact Spine.eq_of_ends (ihr r' (hr.of_level_le (by decide)) hus h') (hr.ends .mul rfl rfl)
  | term t iht =>
    obtain ⟨t', ts, hs⟩ := Spine.exists_term q
    rw [hs.tokens_eq, List.append_assoc] at h
    have hends := hs.ends (d := .term) hr' rfl
    obtain ⟨rfl, rfl⟩ := Spine.eq_of_ends (iht t' (hr.of_level_le (by decide)) hends h)
      (hr.ends .add rfl rfl)
    exact ⟨ts, hs, rfl⟩
  | sum l op hop r ihl ihr =>
    simp only [tokens, List.append_assoc, List.cons_append] at h
    have hpow := Operator.ne_pow (hop.le.trans one_le_two)
    have hl := ihl q (Category.closedBy_token hop hpow _) hr' h
    apply Spine.grow (.sum l op hop r) hl hr'
    intro r' us hus h'
    exact Spine.eq_of_ends (ihr r' (hr.of_level_le (by decide)) hus h') (hr.ends .add rfl rfl)

/-- The grammar is unambiguous. -/
theorem tokens_injective {c : Category} : Function.Injective (tokens (c := c)) := by
  intro p q h
  have hends : c.Ends [] := by
    intro next hn
    simp [nextOperator?] at hn
  exact (Spine.eq_of_ends (p.spine_of_tokens q hends.closedBy hends (by simpa using h)) hends).1

end Phrase

end Calculator
