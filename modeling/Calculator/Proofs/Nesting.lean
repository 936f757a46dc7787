import Calculator.Proofs.Move

/-! # Levels of nesting

The levels that are open after some tokens can be told from the tokens alone.  The depth that the
reader counts is their number, above the depth at which it started, so that no level is taken away
that was not counted.
-/
namespace Calculator

/-- How many exponents are open in the innermost group, and in each group around it. -/
structure Openings where
  powers : Nat := 0
  outer : List Nat := []

namespace Openings

/-- Every exponent is one level, and every group and call is one more. -/
def total (o : Openings) : Nat := o.powers + (o.outer.map (· + 1)).sum

def close (o : Openings) : Openings :=
  match o.outer with
  | [] => {}
  | n :: ns => ⟨n, ns⟩

def next (o : Openings) (t : Token) : Openings :=
  match t.operator? with
  | some .pow => { o with powers := o.powers + 1 }
  | some _ => { o with powers := 0 }
  | none =>
    if t.isSymbol '(' then ⟨0, o.powers :: o.outer⟩
    else if t.isSymbol ')' then o.close
    else o

def peak (o : Openings) : List Token → Nat
  | [] => o.total
  | t :: ts => max o.total ((o.next t).peak ts)

theorem total_close_le (o : Openings) : o.close.total ≤ o.total := by
  obtain ⟨n, ns⟩ := o
  cases ns with
  | nil => simp [close, total]
  | cons m ms =>
    simp only [close, total, List.map_cons, List.sum_cons]
    omega

theorem total_next_le (o : Openings) (t : Token) : (o.next t).total ≤ o.total + 1 := by
  have hclose := o.total_close_le
  unfold next
  split
  · simp only [total]
    omega
  · simp only [total]
    omega
  · split
    · simp only [total, List.map_cons, List.sum_cons]
      omega
    · split
      · omega
      · omega

theorem total_le_peak (o : Openings) (ts : List Token) : o.total ≤ o.peak ts := by
  cases ts with
  | nil => exact le_rfl
  | cons t ts => exact le_max_left _ _

theorem peak_le (o : Openings) (ts : List Token) : o.peak ts ≤ o.total + ts.length := by
  induction ts generalizing o with
  | nil => simp [peak]
  | cons t ts ih =>
    have hnext := o.total_next_le t
    have hpeak := ih (o.next t)
    simp only [peak, List.length_cons]
    omega

end Openings

def Work.openings (w : Work) : Openings :=
  ⟨Calculator.powers w.pending, w.enclosing.map fun a => Calculator.powers a.pending⟩

def PowersFirst (ps : List Pending) : Prop := ps.Pairwise fun p q => q.op = .pow → p.op = .pow

structure Work.Counts (before : Nat) (w : Work) : Prop where
  depth : w.depth = before + w.openings.total
  inner : PowersFirst w.pending
  outer : ∀ a ∈ w.enclosing, PowersFirst a.pending

theorem counts_initial (depth : Nat) : ({ depth } : Work).Counts depth :=
  ⟨rfl, .nil, fun _ ha => nomatch ha⟩

theorem PowersFirst.powers_eq_zero {p : Pending} {ps : List Pending} (h : PowersFirst (p :: ps))
    (hp : p.op ≠ .pow) : powers (p :: ps) = 0 := by
  have hps := (List.pairwise_cons.mp h).1
  simp only [powers, List.countP_eq_zero, List.mem_cons, beq_iff_eq]
  rintro q (rfl | hq)
  · exact hp
  · exact fun hpow => hp (hps q hq hpow)

namespace Settles

variable {next : Option Operator} {w w' : Work} {applied : List Pending}
  {result : Except Failure Float} {before : Nat} {x : Float}

theorem total_eq (h : Settles next w applied result w') :
    w.openings.total = powers applied + w'.openings.total := by
  simp only [Work.openings, Openings.total, h.pending, h.enclosing, powers_append]
  omega

theorem counts (h : Settles next w applied result w') (hw : w.Counts before) :
    w'.Counts before := by
  have htotal := h.total_eq
  have hdepth := hw.depth
  have hinner := hw.inner
  rw [h.pending] at hinner
  refine ⟨?_, hinner.sublist (List.sublist_append_right _ _), ?_⟩
  · rw [h.depth]
    omega
  · rw [h.enclosing]
    exact hw.outer

theorem pending_eq_nil (h : Settles none w applied (.ok x) w') : w'.pending = [] := by
  have hwaits := h.waits x rfl
  cases hp : w'.pending with
  | nil => rfl
  | cons p ps => simp [hp] at hwaits

theorem powers_eq_zero {op : Operator} (h : Settles (some op) w applied (.ok x) w')
    (hop : op ≠ .pow) (hw : w.Counts before) : powers w'.pending = 0 := by
  have hinner := (h.counts hw).inner
  have hwaits := h.waits x rfl
  cases hp : w'.pending with
  | nil => rfl
  | cons p ps =>
    rw [hp] at hinner
    apply hinner.powers_eq_zero
    intro hpow
    have hy := hwaits p (by rw [hp]; rfl)
    rw [Option.any_some, hpow] at hy
    cases op <;> simp_all [Operator.yieldsTo, Operator.level]

theorem pending_eq_of_pow (h : Settles (some .pow) w applied (.ok x) w') :
    w.pending = w'.pending := by
  have happlied := h.applied
  cases applied with
  | nil => exact h.pending
  | cons p ps =>
    have hp := happlied p List.mem_cons_self
    obtain ⟨left, op⟩ := p
    cases op <;> simp [Operator.yieldsTo, Operator.level] at hp

end Settles

section
variable (lib : Elementary) (limit : Nat)

/-- The innermost group is closed by taking its level away. -/
theorem Settles.close {w w' : Work} {applied : List Pending} {x : Float} {before : Nat}
    (h : Settles none w applied (.ok x) w') (hw : w.Counts before) {call : Option Function}
    {ps : List Pending} {outer : List Enclosing} (he : w'.enclosing = ⟨call, ps⟩ :: outer) :
    (w'.close ps outer).Counts before ∧
      (w'.close ps outer).openings = w.openings.next (.symbol ')') := by
  have hw' := h.counts hw
  have hdepth := hw'.depth
  have houter := hw'.outer
  have henc := h.enclosing.symm.trans he
  rw [he] at houter
  refine ⟨⟨?_, houter _ List.mem_cons_self, fun a ha => houter a (List.mem_cons_of_mem _ ha)⟩, ?_⟩
  · simp only [Work.openings, Openings.total, h.pending_eq_nil, he, powers_nil, List.map_cons,
      List.sum_cons] at hdepth
    simp only [Work.close, Work.openings, Openings.total]
    omega
  · have hnext (o : Openings) : o.next (.symbol ')') = o.close := rfl
    simp [hnext, Work.openings, Openings.close, Work.close, henc]

theorem Enters.counts {s : State} {t : Token} {w : Work} {before : Nat} (h : Enters lib s t w)
    (hs : s.work.Counts before) :
    w.deeper.Counts before ∧ w.deeper.openings = s.work.openings.next t := by
  have enclosed (call : Option Function) (w : Work) (hw : w.Counts before) :
      (w.enclose call).deeper.Counts before := by
    have hdepth := hw.depth
    refine ⟨?_, List.Pairwise.nil, ?_⟩
    · simp only [Work.openings, Openings.total] at hdepth
      simp only [Work.enclose, Work.deeper, Work.openings, Openings.total, powers_nil,
        List.map_cons, List.sum_cons]
      omega
    · intro a ha
      rcases List.mem_cons.mp ha with rfl | ha
      · exact hw.inner
      · exact hw.outer a ha
  cases h with
  | group w => exact ⟨enclosed none w hs, rfl⟩
  | call f w => exact ⟨enclosed (some f) w hs, rfl⟩
  | power hset =>
    obtain ⟨_, hset⟩ := settles lib hset
    have hw := hset.counts hs
    have hdepth := hw.depth
    refine ⟨⟨?_, ?_, hw.outer⟩, ?_⟩
    · simp only [Work.openings, Openings.total] at hdepth
      simp only [Work.push, Work.deeper, Work.openings, Openings.total, powers_cons, ↓reduceIte]
      omega
    · exact List.pairwise_cons.mpr ⟨fun _ _ _ => rfl, hw.inner⟩
    · simp [Work.push, Work.deeper, Work.openings, Openings.next, powers_cons,
        hset.pending_eq_of_pow, hset.enclosing]

/-- A step changes the levels that are open as its token says, and the depth with them. -/
theorem Moves.counts {s s' : State} {t : Token} {before : Nat}
    (h : Moves lib limit s t (.shift s')) (hs : s.work.Counts before) :
    s'.work.Counts before ∧ s'.work.openings = s.work.openings.next t := by
  cases h with
  | number x w => exact ⟨hs, rfl⟩
  | name f w => exact ⟨hs, rfl⟩
  | enter h hl => exact h.counts lib hs
  | @operator _ _ _ _ op hop hset =>
    obtain ⟨_, hset⟩ := settles lib hset
    have hw := hset.counts hs
    have hdepth := hw.depth
    have hzero := hset.powers_eq_zero hop hs
    refine ⟨⟨?_, ?_, hw.outer⟩, ?_⟩
    · simpa [Work.push, Work.openings, powers_cons, hop] using hdepth
    · refine List.pairwise_cons.mpr ⟨fun q hq hpow => ?_, hw.inner⟩
      rw [powers, List.countP_eq_zero] at hzero
      exact absurd (by simpa using hpow) (hzero q hq)
    · have hnext (o : Openings) : o.next op.token = { o with powers := 0 } := by
        rw [Openings.next, Operator.operator?_token]
        cases op <;> first | rfl | exact absurd rfl hop
      simp [hnext, Work.push, Work.openings, powers_cons, hop, hzero, hset.enclosing]
  | closeGroup hset he =>
    obtain ⟨_, hset⟩ := settles lib hset
    exact hset.close hs he
  | closeCall hset he hp =>
    obtain ⟨_, hset⟩ := settles lib hset
    obtain ⟨hcounts, hopen⟩ := hset.close hs he
    exact ⟨⟨hcounts.depth, hcounts.inner, hcounts.outer⟩, hopen⟩

theorem Runs.counts {s s' : State} {us : List Token} {before : Nat}
    (h : Runs lib limit s us s') (hs : s.work.Counts before) : s'.work.Counts before := by
  induction h with
  | refl s => exact hs
  | shift ht hm hr ih => exact ih (hm.counts lib limit hs).1

/-- A step that fails has counted its token as any other, if it has consumed it. -/
theorem Moves.halt_counts {s : State} {t : Token} {e : Failure} {w : Work} {consumed : Bool}
    {before : Nat} (h : Moves lib limit s t (.halt e w consumed)) (hs : s.work.Counts before) :
    w.Counts before ∧
      if consumed then w.openings = s.work.openings.next t
      else w.openings.total ≤ s.work.openings.total := by
  have settled {next : Option Operator} {x : Float} {w w' : Work} {r : Except Failure Float}
      (hset : settle lib next x w = (r, w')) (hw : w.Counts before) :
      w'.Counts before ∧ w'.openings.total ≤ w.openings.total := by
    obtain ⟨_, hset⟩ := settles lib hset
    have htotal := hset.total_eq
    exact ⟨hset.counts hw, by omega⟩
  cases h with
  | undefined w hn => exact ⟨hs, le_rfl⟩
  | tooDeep h hl => exact h.counts lib hs
  | fail hset => exact settled hset hs
  | failCall hset he hp =>
    obtain ⟨_, hset⟩ := settles lib hset
    exact hset.close hs he
  | refuse h =>
    cases h with
    | operand w hk ht => exact ⟨hs, le_rfl⟩
    | argument f w ht => exact ⟨hs, le_rfl⟩
    | line hset ho ht he => exact settled hset hs
    | group hset ho ht he => exact settled hset hs

theorem Moves.depth_le {s : State} {t : Token} {m : Move} {before : Nat}
    (h : Moves lib limit s t m) (hs : s.work.Counts before) :
    m.work.depth ≤ s.work.depth + 1 := by
  have hdepth := hs.depth
  have hnext := s.work.openings.total_next_le t
  cases m with
  | shift s' =>
    obtain ⟨hs', hopen⟩ := h.counts lib limit hs
    have hdepth' := hs'.depth
    rw [hopen] at hdepth'
    simp only [Move.work]
    omega
  | halt e w consumed =>
    obtain ⟨hw, hopen⟩ := h.halt_counts lib limit hs
    have hdepth' := hw.depth
    simp only [Move.work]
    cases consumed with
    | true =>
      simp only [↓reduceIte] at hopen
      rw [hopen] at hdepth'
      omega
    | false =>
      simp only [Bool.false_eq_true, ↓reduceIte] at hopen
      omega

theorem Runs.depth_le {s s' : State} {us : List Token} {before : Nat}
    (h : Runs lib limit s us s') (hs : s.work.Counts before) :
    s'.work.depth ≤ s.work.depth + us.length := by
  induction h with
  | refl s => exact le_rfl
  | @shift s s' s'' t ts ht hm hr ih =>
    have hstep := hm.depth_le lib limit hs
    have hrest := ih (hm.counts lib limit hs).1
    simp only [Move.work] at hstep
    rw [List.length_cons]
    omega

end

end Calculator
