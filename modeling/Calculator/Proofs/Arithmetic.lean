import Calculator.CommandLine
import Calculator.Proofs.Number.Displayed
import Calculator.Proofs.Spelling
import Calculator.Proofs.Steps
import Calculator.Proofs.Syntax

/-! # Integer arithmetic

Trees of integers under addition, subtraction, multiplication and remainder, the text in which such
a tree is written with all its parentheses, and its exact value.  As long as no value on the way
exceeds `2 ^ 53`, the calculator finds the exact value of the text and prints its numeral.
-/
namespace Calculator
open Number

inductive IntOperator where
  | add
  | sub
  | mul
  | rem

namespace IntOperator

def operator : IntOperator → Operator
  | .add => .add
  | .sub => .sub
  | .mul => .mul
  | .rem => .rem

/-- The exact value; there is no remainder by zero, and any other has the sign of the dividend. -/
def value? (a b : ℤ) : IntOperator → Option ℤ
  | .add => some (a + b)
  | .sub => some (a - b)
  | .mul => some (a * b)
  | .rem => if b = 0 then none else some (a.tmod b)

def phrase (l r : Phrase .primary) : IntOperator → Phrase .expr
  | .add => .sum (.term (.factor (.primary l))) .add rfl (.factor (.primary r))
  | .sub => .sum (.term (.factor (.primary l))) .sub rfl (.factor (.primary r))
  | .mul => .term (.product (.factor (.primary l)) .mul rfl (.primary r))
  | .rem => .term (.product (.factor (.primary l)) .rem rfl (.primary r))

end IntOperator

structure IntLiteral where
  digits : List Char
  ne_nil : digits ≠ []
  isDigit : ∀ c ∈ digits, c.isDigit = true
  le : digitsValue digits ≤ 2 ^ 53

namespace IntLiteral

def value (d : IntLiteral) : ℕ := digitsValue d.digits

def number (d : IntLiteral) : Float := (read? d.digits).getD 0

end IntLiteral

inductive IntExpr where
  | literal (d : IntLiteral)
  | binary (l : IntExpr) (op : IntOperator) (r : IntExpr)

namespace IntExpr

def render : IntExpr → List Char
  | .literal d => d.digits
  | .binary l op r => '(' :: (l.render ++ op.operator.symbol :: (r.render ++ [')']))

def nesting : IntExpr → Nat
  | .literal _ => 0
  | .binary l _ r => max l.nesting r.nesting + 1

def value? : IntExpr → Option ℤ
  | .literal d => some d.value
  | .binary l op r => l.value?.bind fun a => r.value?.bind fun b => op.value? a b

/-- The values that are computed, the left operand first, up to the end or the first remainder by
zero. -/
def computed : IntExpr → List ℤ
  | .literal d => [(d.value : ℤ)]
  | .binary l op r =>
    l.computed ++
      if l.value?.isSome then r.computed ++ (binary l op r).value?.toList else []

/-- Evaluating, the left operand first, comes to a remainder whose right operand is 0. -/
inductive MeetsZero : IntExpr → Prop
  | left {l r : IntExpr} (op : IntOperator) (h : l.MeetsZero) : MeetsZero (.binary l op r)
  | right {l r : IntExpr} {a : ℤ} (op : IntOperator) (hl : l.value? = some a) (h : r.MeetsZero) :
      MeetsZero (.binary l op r)
  | here {l r : IntExpr} {a : ℤ} (hl : l.value? = some a) (hr : r.value? = some 0) :
      MeetsZero (.binary l .rem r)

def phrase : IntExpr → Phrase .primary
  | .literal d => .number d.number
  | .binary l op r => .group (op.phrase l.phrase r.phrase)

end IntExpr

/-! ## Reading the text of a tree -/

theorem IntLiteral.read?_digits (d : IntLiteral) :
    read? d.digits = some d.number ∧ Represents d.number d.value := by
  obtain ⟨x, hx, hrep⟩ := represents_of_digits d.ne_nil d.isDigit d.le
  have hnumber : d.number = x := by rw [number, hx, Option.getD_some]
  rw [hnumber]
  exact ⟨hx, hrep⟩

theorem Lexes.digits {cs ds : List Char} {ts : List Token} {x : Float} (h : Lexes cs ts)
    (hx : read? ds = some x) (hcs : ∀ c ∈ cs.head?, EndsRuns c) :
    Lexes (ds ++ cs) (.number x :: ts) := by
  obtain ⟨ls, hcut, hspells⟩ := h
  have haccepted := Lexeme.accepted_digits (read?_eq_some_iff.mp hx).1
  have hlongest : ∀ c ∈ cs.head?, ¬ (Lexeme.digits ds).ContinuedBy c :=
    fun c hc => Lexeme.not_continuedBy (hcs c hc) _
  exact ⟨.digits ds :: ls, .cons haccepted hlongest hcut, .cons (.number hx) hspells⟩

namespace IntOperator

variable (op : IntOperator) (l r : Phrase .primary)

theorem tokens_phrase : (op.phrase l r).tokens = l.tokens ++ op.operator.token :: r.tokens := by
  cases op <;> rfl

theorem nesting_phrase : (op.phrase l r).nesting = max l.nesting r.nesting := by
  cases op <;> rfl

theorem value_phrase (lib : Elementary) :
    (op.phrase l r).value lib = op.operator.valuation lib (l.value lib) (r.value lib) := by
  cases op <;> rfl

theorem symbol_mem : op.operator.symbol ∈ ['+', '-', '*', '/', '%', '^', '(', ')'] := by
  cases op <;> decide

theorem endsRuns_symbol : EndsRuns op.operator.symbol := by
  cases op <;> exact ⟨rfl, by decide⟩

end IntOperator

namespace IntExpr

theorem tokens_binary (l : IntExpr) (op : IntOperator) (r : IntExpr) :
    (binary l op r).phrase.tokens =
      .symbol '(' :: (l.phrase.tokens ++ op.operator.token :: (r.phrase.tokens ++ [.symbol ')'])) := by
  simp [phrase, Phrase.tokens, IntOperator.tokens_phrase]

theorem ne_eof_of_mem (e : IntExpr) : ∀ t ∈ e.phrase.tokens, t ≠ .eof := by
  induction e with
  | literal d => simp [phrase, Phrase.tokens]
  | binary l op r ihl ihr =>
    rw [tokens_binary]
    intro t ht
    simp only [List.mem_cons, List.mem_append, List.not_mem_nil, or_false] at ht
    rcases ht with rfl | ht | rfl | ht | rfl
    · simp
    · exact ihl t ht
    · exact Operator.token_ne_eof _
    · exact ihr t ht
    · simp

theorem nesting_phrase (e : IntExpr) : e.phrase.nesting = e.nesting := by
  induction e with
  | literal d => rfl
  | binary l op r ihl ihr =>
    simp only [phrase, Phrase.nesting, IntOperator.nesting_phrase, ihl, ihr, nesting]

theorem lexes_render (e : IntExpr) {cs : List Char} {ts : List Token} (h : Lexes cs ts)
    (hcs : ∀ c ∈ cs.head?, EndsRuns c) : Lexes (e.render ++ cs) (e.phrase.tokens ++ ts) := by
  induction e generalizing cs ts with
  | literal d => exact h.digits d.read?_digits.1 hcs
  | binary l op r ihl ihr =>
    have hclose : EndsRuns ')' := ⟨rfl, by decide⟩
    have hright := ihr (h.symbol (c := ')') (by decide)) (by simpa using hclose)
    have hop := hright.symbol op.symbol_mem
    have hleft := ihl hop (by simpa using op.endsRuns_symbol)
    have hopen := hleft.symbol (c := '(') (by decide)
    simpa [render, tokens_binary, Operator.token] using hopen

def line (e : IntExpr) : Phrase .expr := .term (.factor (.primary e.phrase))

theorem tokenize_render (e : IntExpr) : tokenize e.render = .ok (e.line.tokens ++ [.eof]) := by
  have h := e.lexes_render .nil (by simp)
  rw [List.append_nil, List.append_nil] at h
  exact h.tokenize

/-- The text of a tree is evaluated like its phrase. -/
theorem evaluate_render (config : Config) (e : IntExpr) (h : e.nesting ≤ config.maxDepth) :
    (config.evaluate e.render).result = (e.phrase.value config.elementary).result := by
  have htokens : e.line.tokens = beforeEnd (e.line.tokens ++ [.eof]) := by
    have hbefore := beforeEnd_append e.ne_eof_of_mem [.eof]
    have hend : beforeEnd [.eof] = [] := rfl
    rw [hend, List.append_nil] at hbefore
    exact hbefore.symm
  have hnest : 0 + e.line.nesting ≤ config.maxDepth := by
    rw [Nat.zero_add]
    exact e.nesting_phrase.le.trans h
  have hrun := run_line config.elementary config.maxDepth htokens
  rw [Phrase.valueWithin_eq _ _ hnest] at hrun
  simp only [Config.evaluate, e.tokenize_render]
  exact congrArg Valuation.result hrun

end IntExpr

/-! ## The value of a tree -/

/-- The result is the integer, or the failure that stands for no integer. -/
inductive Answers : Except Failure Float → Option ℤ → Prop
  | value {x : Float} {n : ℤ} (h : Represents x n) : Answers (.ok x) (some n)
  | modulusByZero : Answers (.error .modulusByZero) none

theorem Answers.exists_ok {result : Except Failure Float} {n : ℤ} (h : Answers result (some n)) :
    ∃ x, result = .ok x ∧ Represents x n := by
  cases h with
  | value h => exact ⟨_, rfl, h⟩

theorem Answers.eq_error {result : Except Failure Float} (h : Answers result none) :
    result = .error .modulusByZero := by
  cases h
  rfl

/-- What comes after an answer may rely on the integer. -/
theorem Answers.bind {o : Valuation} {k : Float → Valuation} {n : Option ℤ} {f : ℤ → Option ℤ}
    (h : Answers o.result n)
    (hk : ∀ x a, n = some a → Represents x a → Answers (k x).result (f a)) :
    Answers (o.bind k).result (n.bind f) := by
  cases n with
  | none =>
    rw [Valuation.bind_eq_of_error h.eq_error]
    exact h
  | some a =>
    obtain ⟨x, hx, ha⟩ := h.exists_ok
    rw [Valuation.bind_eq_of_ok hx]
    exact hk x a rfl ha

section
variable (lib : Elementary)

theorem Operation.result_valuation (o : Operation) : (o.valuation lib).result = o.perform lib := by
  unfold Operation.valuation
  cases o.perform lib <;> rfl

theorem perform_of_represents {op : Operator} {x y : Float} {n : ℤ} (hop : op ≠ .pow)
    (hrefusal : (Operation.binary x op y).refusal? = none) (h : Represents (op.value lib x y) n) :
    Answers ((Operation.binary x op y).perform lib) (some n) := by
  have hnan : (op.value lib x y).isNaN = false := h.isNaN
  have hok : (Operation.binary x op y).perform lib = .ok (op.value lib x y) := by
    apply Operation.perform_eq_ok_iff.mpr
    refine ⟨hrefusal, rfl, ?_, ?_⟩
    · rw [hnan, Bool.false_and]
    · cases op <;> first | rfl | exact absurd rfl hop
  rw [hok]
  exact .value h

theorem IntOperator.answers (op : IntOperator) {x y : Float} {a b : ℤ} (hx : Represents x a)
    (hy : Represents y b) (h : ∀ n ∈ op.value? a b, n.natAbs ≤ 2 ^ 53) :
    Answers ((Operation.binary x op.operator y).perform lib) (op.value? a b) := by
  cases op with
  | add => exact perform_of_represents lib (by decide) rfl (hx.add hy (h _ rfl))
  | sub => exact perform_of_represents lib (by decide) rfl (hx.sub hy (h _ rfl))
  | mul => exact perform_of_represents lib (by decide) rfl (hx.mul hy (h _ rfl))
  | rem =>
    simp only [IntOperator.value?, operator] at h ⊢
    by_cases hb : b = 0
    · have hzero : (Operation.binary x .rem y).perform lib = .error .modulusByZero := by
        simp [Operation.perform, Operation.refusal?, hy.beq_zero.mpr hb]
      rw [hzero, if_pos hb]
      exact .modulusByZero
    · have hrefusal : (Operation.binary x .rem y).refusal? = none := by
        simp only [Operation.refusal?]
        rw [if_neg (mt hy.beq_zero.mp hb)]
      rw [if_neg hb] at h ⊢
      exact perform_of_represents lib (by decide) hrefusal (hx.remainder hy hb (h _ rfl))

namespace IntExpr

variable {l r : IntExpr} {op : IntOperator} {a b n : ℤ}

theorem mem_computed_left (hn : n ∈ l.computed) : n ∈ (binary l op r).computed :=
  List.mem_append_left _ hn

theorem computed_binary (hl : l.value? = some a) :
    (binary l op r).computed = l.computed ++ (r.computed ++ (binary l op r).value?.toList) := by
  simp only [computed, hl, Option.isSome_some, if_true]

theorem mem_computed_right (hl : l.value? = some a) (hn : n ∈ r.computed) :
    n ∈ (binary l op r).computed := by
  rw [computed_binary hl]
  exact List.mem_append_right _ (List.mem_append_left _ hn)

theorem mem_computed_value (hl : l.value? = some a) (hr : r.value? = some b)
    (hn : n ∈ op.value? a b) : n ∈ (binary l op r).computed := by
  have hvalue : (binary l op r).value? = op.value? a b := by
    simp only [value?, hl, hr, Option.bind_some]
  rw [computed_binary hl, hvalue]
  exact List.mem_append_right _ (List.mem_append_right _ (Option.mem_toList.mpr hn))

/-- The phrase of a tree has the exact value of the tree. -/
theorem answers (e : IntExpr) (h : ∀ n ∈ e.computed, n.natAbs ≤ 2 ^ 53) :
    Answers (e.phrase.value lib).result e.value? := by
  induction e with
  | literal d => exact .value d.read?_digits.2
  | binary l op r ihl ihr =>
    have hvalue : (binary l op r).phrase.value lib =
        op.operator.valuation lib (l.phrase.value lib) (r.phrase.value lib) :=
      op.value_phrase _ _ lib
    have hleft := ihl fun n hn => h n (mem_computed_left hn)
    rw [hvalue]
    apply hleft.bind
    intro x a hl hx
    have hright := ihr fun n hn => h n (mem_computed_right hl hn)
    apply hright.bind
    intro y b hr hy
    rw [Operation.result_valuation]
    exact op.answers lib hx hy fun n hn => h n (mem_computed_value hl hr hn)

end IntExpr

end

namespace IntExpr

theorem MeetsZero.value?_eq_none {e : IntExpr} (h : e.MeetsZero) : e.value? = none := by
  induction h with
  | left op h ih => rw [value?, ih, Option.bind_none]
  | right op hl h ih => rw [value?, hl, Option.bind_some, ih, Option.bind_none]
  | here hl hr =>
    rw [value?, hl, Option.bind_some, hr, Option.bind_some]
    rfl

theorem meetsZero_of_value? {e : IntExpr} (h : e.value? = none) : e.MeetsZero := by
  induction e with
  | literal d => cases h
  | binary l op r ihl ihr =>
    cases hl : l.value? with
    | none => exact .left op (ihl hl)
    | some a =>
      cases hr : r.value? with
      | none => exact .right op hl (ihr hr)
      | some b =>
        rw [value?, hl, Option.bind_some, hr, Option.bind_some] at h
        cases op with
        | rem =>
          obtain rfl : b = 0 := by
            by_contra hb
            rw [IntOperator.value?, if_neg hb] at h
            cases h
          exact .here hl hr
        | _ => cases h

theorem value?_eq_none_iff (e : IntExpr) : e.value? = none ↔ e.MeetsZero :=
  ⟨meetsZero_of_value?, MeetsZero.value?_eq_none⟩

/-- The text of a tree is no option. -/
theorem head?_render (e : IntExpr) : ∀ c ∈ e.render.head?, c ≠ '-' := by
  cases e with
  | literal d =>
    intro c hc
    have hdigit := d.isDigit c (List.mem_of_mem_head? hc)
    rintro rfl
    cases hdigit
  | binary l op r =>
    rintro c hc rfl
    cases hc

theorem ofArguments_render (features : CommandLine.Features) (e : IntExpr) :
    CommandLine.Mode.ofArguments features [e.render] = .once e.render := by
  have hne (cs : List Char) : e.render ≠ '-' :: cs := by
    intro h
    have hhead := e.head?_render
    rw [h] at hhead
    exact hhead '-' rfl rfl
  have hunwords : Text.unwords [e.render] = e.render := by simp [Text.unwords]
  have hhelp : e.render ≠ "--help".toList := hne _
  have hh : e.render ≠ "-h".toList := hne _
  have hplain : e.render ≠ "--plain".toList := hne _
  have hline : e.render ≠ "--line".toList := hne _
  simp only [CommandLine.Mode.ofArguments, hunwords, hhelp, hh, hplain, hline, decide_false,
    Bool.or_false, Bool.false_eq_true, if_false]

end IntExpr

/-- Integer arithmetic is exact from the text to the printed result.  As long as no value on the way
exceeds `2 ^ 53` and the parentheses are not nested too deep, the text of a tree evaluates to the
exact value of the tree, or fails exactly if a remainder by zero is met; and a result of at most
`10 ^ 10` is printed as its numeral. -/
theorem integer_arithmetic_exact (config : Config) (e : IntExpr)
    (hnesting : e.nesting ≤ config.maxDepth) (hcomputed : ∀ n ∈ e.computed, n.natAbs ≤ 2 ^ 53) :
    (∀ n, e.value? = some n →
      ∃ x, (config.evaluate e.render).result = .ok x ∧ Represents x n) ∧
    ((config.evaluate e.render).result = .error .modulusByZero ↔ e.MeetsZero) ∧
    (e.value? = none ↔ e.MeetsZero) ∧
    ∀ n, e.value? = some n → n.natAbs ≤ 10 ^ 10 → ∀ features input,
      (CommandLine.Mode.ofArguments features [e.render]).run? config input =
        some { status := 0, output := "Result: ".toList ++ intNumeral n ++ ['\n'], errors := [] } := by
  have hanswers := e.answers config.elementary hcomputed
  rw [← e.evaluate_render config hnesting] at hanswers
  refine ⟨?_, ?_, e.value?_eq_none_iff, ?_⟩
  · intro n hn
    rw [hn] at hanswers
    exact hanswers.exists_ok
  · rw [← e.value?_eq_none_iff]
    constructor
    · intro herror
      rw [herror] at hanswers
      cases hvalue : e.value? with
      | none => rfl
      | some n =>
        rw [hvalue] at hanswers
        cases hanswers
    · intro hnone
      rw [hnone] at hanswers
      exact hanswers.eq_error
  · intro n hn hsmall features input
    rw [hn] at hanswers
    obtain ⟨x, hx, hrep⟩ := hanswers.exists_ok
    rw [e.ofArguments_render]
    simp only [CommandLine.Mode.run?, CommandLine.once, hx, hrep.display_eq hsmall]

def IntExpr.largeRemainder : IntExpr :=
  .binary
    (.binary (.literal ⟨['0'], by decide, List.all_eq_true.mp rfl, by decide⟩) .sub
      (.literal ⟨"9007199254740992".toList, by decide, List.all_eq_true.mp rfl,
        by decide +kernel⟩))
    .rem
    (.literal ⟨"4503599627370495".toList, by decide, List.all_eq_true.mp rfl, by decide +kernel⟩)

theorem largeRemainder_prints :
    let e := IntExpr.largeRemainder
    e.render = "((0-9007199254740992)%4503599627370495)".toList ∧
    e.nesting ≤ ({} : Config).maxDepth ∧
    (∀ n ∈ e.computed, n.natAbs ≤ 2 ^ 53) ∧
    (CommandLine.Mode.ofArguments {} [e.render]).run? {} .empty =
      some { status := 0, output := "Result: -2\n".toList, errors := [] } := by
  intro e
  have hnesting : e.nesting ≤ ({} : Config).maxDepth := by decide
  have hcomputed : ∀ n ∈ e.computed, n.natAbs ≤ 2 ^ 53 := by decide +kernel
  have htext : "Result: ".toList ++ intNumeral (-2) ++ ['\n'] = "Result: -2\n".toList := by
    decide +kernel
  obtain ⟨-, -, -, hprints⟩ := integer_arithmetic_exact {} e hnesting hcomputed
  refine ⟨by decide, hnesting, hcomputed, ?_⟩
  rw [← htext]
  exact hprints (-2) (by decide +kernel) (by decide) {} .empty

end Calculator
