import Calculator.Proofs.Move
import Calculator.Proofs.Value

/-! # Reading a phrase

Reading the tokens of a phrase in the place of an operand amounts to evaluating the phrase: the
reader then stands behind it with its value and its steps, or has stopped with its failure.
-/
namespace Calculator

def Reading.valuation (r : Reading) : Valuation := { result := r.result, steps := r.steps }

namespace Work

/-- What is left open once the innermost operator is applied; only an exponent is nested. -/
def applied (w : Work) (op : Operator) : Work :=
  { w with depth := if op = .pow then w.depth - 1 else w.depth }

theorem applied_eq {op : Operator} (h : op ≠ .pow) (w : Work) : w.applied op = w := by
  simp only [applied, if_neg h]

@[simp] theorem record_record (w : Work) (ss ss' : List Step) :
    (w.record ss).record ss' = w.record (ss ++ ss') := by
  simp [record]

@[simp] theorem steps_record (w : Work) (ss : List Step) :
    (w.record ss).steps.reverse = w.steps.reverse ++ ss := by
  simp [record]

end Work

namespace Valuation

def resume (o : Valuation) (w : Work) (k : Float → Work → Valuation) : Valuation :=
  match o.result with
  | .ok x => k x (w.record o.steps)
  | .error e => { result := .error e, steps := w.steps.reverse ++ o.steps }

theorem resume_bind (o : Valuation) (f : Float → Valuation) (w : Work)
    (k : Float → Work → Valuation) :
    (o.bind f).resume w k = o.resume w fun x w' => (f x).resume w' k := by
  rcases o with ⟨result, steps⟩
  cases result with
  | error e => rfl
  | ok x => cases hf : (f x).result <;> simp [bind, resume, hf]

theorem resume_congr (o : Valuation) {w w' : Work} {k k' : Float → Work → Valuation}
    (hs : w.steps = w'.steps) (h : ∀ x ss, k x (w.record ss) = k' x (w'.record ss)) :
    o.resume w k = o.resume w' k' := by
  unfold resume
  split
  · exact h _ _
  · rw [hs]

end Valuation

section
variable (lib : Elementary) (limit : Nat)

/-- Every operator of a phrase of the category is read before the innermost waiting operator is
applied. -/
def Work.Awaits (w : Work) (c : Category) : Prop :=
  ∀ p ∈ w.pending.head?, ∀ op : Operator, c.level ≤ op.level → p.op.yieldsTo op = true

theorem Work.Awaits.of_level_le {w : Work} {c d : Category} (h : w.Awaits c)
    (hcd : c.level ≤ d.level) : w.Awaits d := by
  intro p hp op hop
  exact h p hp op (hcd.trans hop)

theorem Work.awaits_push (w : Work) (x : Float) {op : Operator} {c : Category}
    (h : op.level < c.level ∨ op = .pow ∧ c = .factor) : (w.push x op).Awaits c := by
  intro p hp next hn
  obtain rfl : ⟨x, op⟩ = p := by simpa [push] using hp
  rcases h with h | ⟨rfl, rfl⟩
  · simp [Operator.yieldsTo]
    omega
  · cases next <;> simp_all [Operator.level, Category.level, Operator.yieldsTo]

theorem settle_eq {next : Option Operator} {w : Work}
    (h : ∀ p ∈ w.pending.head?, next.any p.op.yieldsTo = true) (x : Float) :
    settle lib next x w = (.ok x, w) := by
  rcases w with ⟨pending, enclosing, depth, steps⟩
  cases pending with
  | nil => rfl
  | cons p ps =>
    have hp := h p rfl
    simp [settle, settle.go, hp]

/-- Of the work only the enclosing groups are read while its operators are applied. -/
theorem settle_go_congr (next : Option Operator) {w w' : Work} (h : w.enclosing = w'.enclosing)
    (y : Float) (ps : List Pending) (depth : Nat) (steps : List Step) :
    settle.go lib next w y ps depth steps = settle.go lib next w' y ps depth steps := by
  induction ps generalizing y depth steps with
  | nil => simp [settle.go, h]
  | cons p ps ih =>
    simp only [settle.go, h]
    split
    · rfl
    · split
      · exact ih _ _ _
      · rfl

theorem settle_push {next : Option Operator} {op : Operator} (h : next.any op.yieldsTo = false)
    (x y : Float) (w : Work) :
    settle lib next y (w.push x op) =
      match (Operation.binary x op y).perform lib with
      | .ok r => settle lib next r ((w.applied op).record [⟨.binary x op y, r⟩])
      | .error e => (.error e, w.applied op) := by
  simp only [settle, Work.push, settle.go, h, Bool.false_eq_true, ↓reduceIte]
  cases (Operation.binary x op y).perform lib with
  | ok r =>
    apply settle_go_congr
    rfl
  | error e => rfl

theorem nextOperator?_end {ts : List Token} (h : ts.headD .eof = .eof) :
    nextOperator? ts = none := by
  cases ts with
  | nil => rfl
  | cons t ts =>
    obtain rfl : t = .eof := h
    rfl

/-- Behind an operand reading depends on nothing but what is settled before the next token. -/
theorem run_congr {ts : List Token} {x y : Float} {w w' : Work}
    (h : settle lib (nextOperator? ts) x w = settle lib (nextOperator? ts) y w') :
    State.run lib limit ⟨.operated x, w⟩ ts = State.run lib limit ⟨.operated y, w'⟩ ts := by
  rcases end_or_cons ts with hts | ⟨t, us, ht, rfl⟩
  · rw [nextOperator?_end hts] at h
    rw [State.run_end lib limit hts, State.run_end lib limit hts]
    simp only [State.finish, h]
  · simp only [nextOperator?, List.head?_cons, Option.bind_some] at h
    rw [State.run_cons lib limit ht, State.run_cons lib limit ht]
    simp only [State.step, h]

theorem run_of_settle_error {ts : List Token} {x : Float} {w w' : Work} {e : Failure}
    (h : settle lib (nextOperator? ts) x w = (.error e, w')) :
    State.run lib limit ⟨.operated x, w⟩ ts = .ofHalt (.error e) w' ts := by
  rcases end_or_cons ts with hts | ⟨t, us, ht, rfl⟩
  · rw [nextOperator?_end hts] at h
    simp only [State.run_end lib limit hts, State.finish, h]
  · simp only [nextOperator?, List.head?_cons, Option.bind_some] at h
    rw [State.run_cons lib limit ht]
    simp [State.step, h]

/-- The last operator is applied before anything that does not let it wait. -/
theorem run_push {op : Operator} {ts : List Token}
    (h : (nextOperator? ts).any op.yieldsTo = false) (x y : Float) (w : Work) :
    (State.run lib limit ⟨.operated y, w.push x op⟩ ts).valuation =
      ((Operation.binary x op y).valuation lib).resume (w.applied op) fun r w' =>
        (State.run lib limit ⟨.operated r, w'⟩ ts).valuation := by
  have hpush := settle_push lib h x y w
  unfold Operation.valuation
  cases hr : (Operation.binary x op y).perform lib with
  | ok r =>
    rw [hr] at hpush
    rw [run_congr lib limit hpush]
    rfl
  | error e =>
    rw [hr] at hpush
    rw [run_of_settle_error lib limit hpush]
    simp [Valuation.resume, Reading.valuation, Reading.ofHalt]

theorem Operator.resume_valuation (op : Operator) (l r : Valuation) (w : Work)
    (k : Float → Work → Valuation) :
    (op.valuation lib l r).resume w k =
      l.resume w fun x w₁ => r.resume w₁ fun y w₂ =>
        ((Operation.binary x op y).valuation lib).resume w₂ k := by
  simp only [Operator.valuation, Valuation.resume_bind]

/-- An operator for which the waiting ones wait takes its left operand. -/
theorem run_operator {op : Operator} (hop : op ≠ .pow) {w : Work}
    (hw : ∀ p ∈ w.pending.head?, p.op.yieldsTo op = true) (x : Float) (ts : List Token) :
    State.run lib limit ⟨.operated x, w⟩ (op.token :: ts) =
      State.run lib limit ⟨.operand, w.push x op⟩ ts := by
  have hs : settle lib (some op) x w = (.ok x, w) := settle_eq lib hw x
  rw [State.run_cons lib limit op.token_ne_eof]
  simp [State.step, hs, hop, Work.push]

theorem enter_eq (w : Work) :
    enter limit w =
      if limit < w.depth + 1 then .halt (.nestingTooDeep limit) w.deeper true
      else .shift ⟨.operand, w.deeper⟩ := rfl

/-- A token that opens a level of nesting, before what stands inside. -/
theorem run_nested {s : State} {t : Token} (ht : t ≠ .eof) (w w' : Work)
    (hs : s.step lib limit t = enter limit w') (hd : w'.depth = w.depth) (hss : w'.steps = w.steps)
    {ts : List Token} {inside : Nat → Valuation} {k : Float → Work → Valuation}
    (h : (State.run lib limit ⟨.operand, w'.deeper⟩ ts).valuation =
      (inside (w.depth + 1)).resume w k) :
    (s.run lib limit (t :: ts)).valuation = (nested limit w.depth inside).resume w k := by
  rw [State.run_cons lib limit ht, hs, enter_eq, hd]
  unfold nested
  by_cases hlimit : limit < w.depth + 1
  · rw [if_pos hlimit, if_pos hlimit]
    simp [Reading.valuation, Reading.ofHalt, Valuation.resume, Work.deeper, hss]
  · rw [if_neg hlimit, if_neg hlimit]
    exact h

theorem run_power {w : Work} (hw : ∀ p ∈ w.pending.head?, p.op.yieldsTo .pow = true) (x : Float)
    {ts : List Token} {inside : Nat → Valuation} {k : Float → Work → Valuation}
    (h : (State.run lib limit ⟨.operand, (w.push x .pow).deeper⟩ ts).valuation =
      (inside (w.depth + 1)).resume w k) :
    (State.run lib limit ⟨.operated x, w⟩ (Operator.pow.token :: ts)).valuation =
      (nested limit w.depth inside).resume w k := by
  have hs : settle lib (some .pow) x w = (.ok x, w) := settle_eq lib hw x
  have hstep : State.step lib limit ⟨.operated x, w⟩ Operator.pow.token =
      enter limit (w.push x .pow) := by
    simp [State.step, hs, Work.push]
  exact run_nested lib limit (Operator.token_ne_eof _) w (w.push x .pow) hstep rfl rfl h

theorem run_close_group (x : Float) (w : Work) (ss : List Step) (ts : List Token) :
    State.run lib limit ⟨.operated x, (w.enclose none).deeper.record ss⟩ (.symbol ')' :: ts) =
      State.run lib limit ⟨.operated x, w.record ss⟩ ts := rfl

theorem run_close_call (f : Function) (x : Float) (w : Work) (ss : List Step) (ts : List Token) :
    (State.run lib limit ⟨.operated x, (w.enclose (some f)).deeper.record ss⟩
        (.symbol ')' :: ts)).valuation =
      ((Operation.call f x).valuation lib).resume (w.record ss) fun r w' =>
        (State.run lib limit ⟨.operated r, w'⟩ ts).valuation := by
  have hs : State.step lib limit ⟨.operated x, (w.enclose (some f)).deeper.record ss⟩
      (.symbol ')') =
        leave lib ⟨some f, w.pending⟩ w.enclosing x ((w.enclose (some f)).deeper.record ss) := rfl
  rw [State.run_cons lib limit (by simp), hs]
  unfold Operation.valuation
  simp only [leave]
  cases (Operation.call f x).perform lib with
  | ok r => rfl
  | error e =>
    simp [Valuation.resume, Reading.valuation, Reading.ofHalt, Work.deeper, Work.enclose,
      Work.record]

/-- The operands of a sum or product are read one after the other. -/
theorem run_operands {c d : Category} {op : Operator} (hop : op ≠ .pow) (hc : op.level = c.level)
    (hd : d.level = c.level + 1) (w : Work) (hw : w.Awaits c) {r : Phrase d} {ts : List Token}
    (hts : c.ClosedBy ts)
    (hr : ∀ w' : Work, w'.Awaits d →
      (State.run lib limit ⟨.operand, w'⟩ (r.tokens ++ ts)).valuation =
        (r.valueWithin lib limit w'.depth).resume w' fun y w₂ =>
          (State.run lib limit ⟨.operated y, w₂⟩ ts).valuation) (x : Float) :
    (State.run lib limit ⟨.operated x, w⟩ (op.token :: (r.tokens ++ ts))).valuation =
      (r.valueWithin lib limit w.depth).resume w fun y w₂ =>
        ((Operation.binary x op y).valuation lib).resume w₂ fun z w₃ =>
          (State.run lib limit ⟨.operated z, w₃⟩ ts).valuation := by
  rw [run_operator lib limit hop fun p hp => hw p hp op hc.ge,
    hr _ (w.awaits_push x (.inl (by omega)))]
  refine Valuation.resume_congr _ rfl ?_
  intro y ss
  have hpush := run_push lib limit (hts.any_yieldsTo hc.ge) x y (w.record ss)
  rwa [Work.applied_eq hop] at hpush

/-- The tokens of a phrase are read as its evaluation, and what follows is read with its value. -/
theorem run_phrase {c : Category} (p : Phrase c) {w : Work} (hw : w.Awaits c) {ts : List Token}
    (hts : c.ClosedBy ts) :
    (State.run lib limit ⟨.operand, w⟩ (p.tokens ++ ts)).valuation =
      (p.valueWithin lib limit w.depth).resume w fun x w' =>
        (State.run lib limit ⟨.operated x, w'⟩ ts).valuation := by
  induction p generalizing w ts with
  | number x => rfl
  | group e ih =>
    have hin : ((w.enclose none).deeper).Awaits .expr := by
      intro p hp
      simp [Work.deeper, Work.enclose] at hp
    rw [Phrase.tokens, List.cons_append, List.append_assoc, List.singleton_append]
    refine run_nested lib limit Token.noConfusion w (w.enclose none) rfl rfl rfl ?_
    rw [ih hin (Category.ends_close .expr ts).closedBy]
    refine Valuation.resume_congr _ rfl ?_
    intro x ss
    exact congrArg _ (run_close_group lib limit x w ss ts)
  | call f e ih =>
    have hin : ((w.enclose (some f)).deeper).Awaits .expr := by
      intro p hp
      simp [Work.deeper, Work.enclose] at hp
    have hname : State.step lib limit ⟨.operand, w⟩ (.name f.name) = .shift ⟨.argument f, w⟩ := by
      cases f <;> rfl
    rw [Phrase.tokens, List.cons_append, List.cons_append, List.append_assoc,
      List.singleton_append, State.run_cons lib limit Token.noConfusion, hname, Phrase.valueWithin,
      Valuation.resume_bind]
    refine run_nested lib limit Token.noConfusion w (w.enclose (some f)) rfl rfl rfl ?_
    rw [ih hin (Category.ends_close .expr ts).closedBy]
    refine Valuation.resume_congr _ rfl ?_
    intro x ss
    exact run_close_call lib limit f x w ss ts
  | primary p ih => exact ih (hw.of_level_le (by decide)) (hts.of_level_le (by decide))
  | power b x ihb ihx =>
    rw [Phrase.tokens, List.append_assoc, List.cons_append,
      ihb (hw.of_level_le (by decide)) (Category.closedBy_primary _), Phrase.valueWithin,
      Operator.resume_valuation]
    refine Valuation.resume_congr _ rfl ?_
    intro v ss
    refine run_power lib limit (w := w.record ss) (fun p hp => hw p hp .pow le_rfl) v ?_
    have hin : ((w.record ss).push v .pow).deeper.Awaits .factor :=
      (w.record ss).awaits_push v (.inr ⟨rfl, rfl⟩)
    rw [ihx hin hts]
    refine Valuation.resume_congr _ rfl ?_
    intro y ss'
    exact run_push lib limit (hts.any_yieldsTo le_rfl) v y ((w.record ss).deeper.record ss')
  | factor f ih => exact ih (hw.of_level_le (by decide)) (hts.of_level_le (by decide))
  | product l op hop r ihl ihr =>
    have hpow := Operator.ne_pow hop.le
    rw [Phrase.tokens, List.append_assoc, List.cons_append,
      ihl hw (Category.closedBy_token hop hpow _), Phrase.valueWithin, Operator.resume_valuation]
    refine Valuation.resume_congr _ rfl ?_
    intro x ss
    exact run_operands lib limit (c := .term) hpow hop rfl (w.record ss) hw hts
      (fun w' hw' => ihr hw' (hts.of_level_le (by decide))) x
  | term t ih => exact ih (hw.of_level_le (by decide)) (hts.of_level_le (by decide))
  | sum l op hop r ihl ihr =>
    have hpow := Operator.ne_pow (hop.le.trans one_le_two)
    rw [Phrase.tokens, List.append_assoc, List.cons_append,
      ihl hw (Category.closedBy_token hop hpow _), Phrase.valueWithin, Operator.resume_valuation]
    refine Valuation.resume_congr _ rfl ?_
    intro x ss
    exact run_operands lib limit (c := .expr) hpow hop rfl (w.record ss) hw hts
      (fun w' hw' => ihr hw' (hts.of_level_le (by decide))) x

end

end Calculator
