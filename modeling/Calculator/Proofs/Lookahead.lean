import Mathlib.Data.List.GetD
import Mathlib.Data.List.TakeWhile
import Calculator.Proofs.Syntax

/-! # Lookahead

A reading depends on the tokens it has consumed and on the one it stops before.  Whatever stands
further right is not looked at: reading comes to the same end there.
-/
namespace Calculator

/-- Both lists have the same tokens up to the given place.  The end of a list counts as an end
token. -/
def AgreeTo (k : Nat) (ts us : List Token) : Prop := ∀ i ≤ k, us.getD i .eof = ts.getD i .eof

namespace AgreeTo

variable {k : Nat} {t : Token} {ts us : List Token}

theorem headD_eq (h : AgreeTo k ts us) : us.headD .eof = ts.headD .eof := by
  have h0 := h 0 (Nat.zero_le k)
  cases ts <;> cases us <;> exact h0

/-- A token before the end is in both lists. -/
theorem exists_cons (h : AgreeTo k (t :: ts) us) (ht : t ≠ .eof) :
    ∃ us', us = t :: us' ∧ ∀ n, k = n + 1 → AgreeTo n ts us' := by
  have hhead := h.headD_eq
  cases us with
  | nil => exact absurd hhead.symm ht
  | cons u us =>
    obtain rfl : u = t := hhead
    refine ⟨us, rfl, ?_⟩
    rintro n rfl i hi
    exact h (i + 1) (Nat.succ_le_succ hi)

end AgreeTo

def Reading.before (r : Reading) (ts : List Token) : Reading :=
  { r with rest := { r.rest with tokens := ts } }

section
variable (lib : Elementary) (limit : Nat)

/-- Reading stops before the token at index `k`, and it does not depend on what stands behind it. -/
structure Looks (s : State) (ts : List Token) (k : Nat) : Prop where
  rest : (s.run lib limit ts).rest.tokens = ts.drop k
  le_end : k ≤ (beforeEnd ts).length
  congr : ∀ us, AgreeTo k ts us → s.run lib limit us = (s.run lib limit ts).before (us.drop k)

variable {s : State} {t : Token} {ts : List Token}

theorem looks_end (hts : ts.headD .eof = .eof) : Looks lib limit s ts 0 := by
  refine ⟨?_, Nat.zero_le _, ?_⟩
  · rw [State.run_end lib limit hts]
    rfl
  · intro us hus
    rw [State.run_end lib limit hts, State.run_end lib limit (hus.headD_eq.trans hts)]
    rfl

theorem length_beforeEnd_cons (ht : t ≠ .eof) (ts : List Token) :
    (beforeEnd (t :: ts)).length = (beforeEnd ts).length + 1 := by
  have hne : ∀ u ∈ [t], u ≠ .eof := by simpa using ht
  have h := beforeEnd_append hne ts
  rw [List.singleton_append] at h
  rw [h, List.length_append, List.length_singleton, Nat.add_comm]

/-- A failure is found at the token itself, whether it is consumed or not. -/
theorem looks_halt {e : Failure} {w : Work} {consumed : Bool} (ht : t ≠ .eof)
    (hm : Moves lib limit s t (.halt e w consumed)) :
    Looks lib limit s (t :: ts) (if consumed then 1 else 0) := by
  have hrun (us : List Token) : s.run lib limit (t :: us) =
      .ofHalt (.error e) w (if consumed then us else t :: us) := by
    rw [State.run_cons lib limit ht, hm.step_eq]
  refine ⟨?_, ?_, ?_⟩
  · rw [hrun]
    cases consumed <;> rfl
  · rw [length_beforeEnd_cons ht]
    split <;> omega
  · intro us hus
    obtain ⟨us, rfl, -⟩ := hus.exists_cons ht
    rw [hrun, hrun]
    cases consumed <;> rfl

theorem Looks.shift {s' : State} {k : Nat} (h : Looks lib limit s' ts k) (ht : t ≠ .eof)
    (hm : Moves lib limit s t (.shift s')) : Looks lib limit s (t :: ts) (k + 1) := by
  have hrun (us : List Token) : s.run lib limit (t :: us) = s'.run lib limit us := by
    rw [State.run_cons lib limit ht, hm.step_eq]
  refine ⟨?_, ?_, ?_⟩
  · rw [hrun, h.rest, List.drop_succ_cons]
  · rw [length_beforeEnd_cons ht]
    exact Nat.succ_le_succ h.le_end
  · intro us hus
    obtain ⟨us, rfl, hagree⟩ := hus.exists_cons ht
    rw [hrun, hrun, h.congr us (hagree k rfl), List.drop_succ_cons]

theorem exists_looks (s : State) (ts : List Token) : ∃ k, Looks lib limit s ts k := by
  induction ts using line_induction generalizing s with
  | ended ts hts => exact ⟨0, looks_end lib limit hts⟩
  | token t ts ht ih =>
    have hm := moves lib limit s ht
    cases hstep : s.step lib limit t with
    | halt e w consumed =>
      rw [hstep] at hm
      exact ⟨_, looks_halt lib limit ht hm⟩
    | shift next =>
      rw [hstep] at hm
      obtain ⟨k, hk⟩ := ih next
      exact ⟨k + 1, hk.shift lib limit ht hm⟩

end

def closed (ts : List Token) : List Token :=
  if ts.getLast?.any Token.isEnd then ts else ts ++ [.eof]

theorem closed_eq (ts : List Token) : closed ts = ts ∨ closed ts = ts ++ [.eof] := by
  unfold closed
  split
  · exact .inl rfl
  · exact .inr rfl

theorem getD_closed (ts : List Token) (i : Nat) : (closed ts).getD i .eof = ts.getD i .eof := by
  rcases closed_eq ts with h | h
  · rw [h]
  · rw [h]
    rcases lt_or_ge i ts.length with hi | hi
    · exact List.getD_append _ _ _ _ hi
    · rw [List.getD_append_right _ _ _ _ hi, List.getD_eq_default _ _ hi]
      cases i - ts.length <;> rfl

theorem eof_mem_closed (ts : List Token) : .eof ∈ closed ts := by
  unfold closed
  split
  · next h =>
    obtain ⟨t, ht, hend⟩ := (Option.any_eq_true _ _).mp h
    rw [← Token.isEnd_iff.mp hend]
    exact List.mem_of_getLast? ht
  · exact List.mem_append_right _ List.mem_cons_self

theorem ne_eof_of_mem_beforeEnd {t : Token} {ts : List Token} (ht : t ∈ beforeEnd ts) :
    t ≠ .eof := by
  rintro rfl
  have hnot := List.mem_takeWhile_imp ht
  cases hnot

theorem length_beforeEnd_lt {ts : List Token} (h : .eof ∈ ts) :
    (beforeEnd ts).length < ts.length := by
  obtain ⟨rest, hts, -⟩ := eq_beforeEnd_append ts
  have hlen := congrArg List.length hts
  rw [List.length_append] at hlen
  cases rest with
  | nil =>
    rw [List.append_nil] at hts
    exact absurd rfl (ne_eof_of_mem_beforeEnd (hts ▸ h))
  | cons t rest =>
    rw [List.length_cons] at hlen
    omega

theorem getD_beforeEnd {ts : List Token} {i : Nat} (hi : i ≤ (beforeEnd ts).length) :
    ts.getD i .eof = (beforeEnd ts).getD i .eof := by
  obtain ⟨rest, hts, hrest⟩ := eq_beforeEnd_append ts
  have hsplit : ts.getD i .eof = (beforeEnd ts ++ rest).getD i .eof :=
    congrArg (fun vs : List Token => vs.getD i .eof) hts
  rw [hsplit]
  rcases hi.lt_or_eq with hlt | heq
  · exact List.getD_append _ _ _ _ hlt
  · rw [List.getD_append_right _ _ _ _ heq.ge, List.getD_eq_default _ _ heq.ge, heq, Nat.sub_self]
    cases rest <;> exact hrest

/-- Lists that agree as far as one line reaches end at the same place or further right. -/
theorem AgreeTo.le_length_beforeEnd {k : Nat} {ts us : List Token} (h : AgreeTo k ts us)
    (hk : k ≤ (beforeEnd ts).length) : k ≤ (beforeEnd us).length := by
  by_contra hlt
  rw [not_le] at hlt
  have hend : us.getD (beforeEnd us).length .eof = .eof := by
    rw [getD_beforeEnd le_rfl, List.getD_eq_default _ _ le_rfl]
  have hbefore : (beforeEnd us).length < (beforeEnd ts).length := hlt.trans_le hk
  have hne : ts.getD (beforeEnd us).length .eof ≠ .eof := by
    rw [getD_beforeEnd hbefore.le, List.getD_eq_getElem _ _ hbefore]
    exact ne_eof_of_mem_beforeEnd (List.getElem_mem hbefore)
  exact hne ((h _ hlt.le).symm.trans hend)

/-- Up to the end of the line only the tokens before it matter. -/
theorem agreeTo_of_beforeEnd_eq {ts us : List Token} (h : beforeEnd us = beforeEnd ts) :
    AgreeTo (beforeEnd ts).length ts us := by
  intro i hi
  rw [getD_beforeEnd (h ▸ hi), getD_beforeEnd hi, h]

theorem AgreeTo.mono {j k : Nat} {ts us : List Token} (h : AgreeTo k ts us) (hjk : j ≤ k) :
    AgreeTo j ts us :=
  fun i hi => h i (hi.trans hjk)

theorem agreeTo_closed {k : Nat} {ts us : List Token} :
    AgreeTo k (closed ts) (closed us) ↔ AgreeTo k ts us := by
  simp only [AgreeTo, getD_closed]

/-- How a fresh reading of some tokens ends: its result and steps, the index of the token it stops
before, and the levels of nesting it leaves open. -/
structure Ending where
  result : Except Failure Float
  steps : List Step
  cursor : Nat
  depth : Nat

def Reading.ending (r : Reading) (ts : List Token) : Ending where
  result := r.result
  steps := r.steps
  cursor := ts.length - r.rest.tokens.length
  depth := r.rest.depth

def Config.ending (config : Config) (ts : List Token) : Ending :=
  (config.read { tokens := closed ts }).ending (closed ts)

theorem ending_before {r : Reading} {ts us : List Token} {k : Nat}
    (hrest : r.rest.tokens = ts.drop k) (hts : k < ts.length) (hus : k < us.length) :
    (r.before (us.drop k)).ending us = r.ending ts := by
  have hcursor : us.length - (us.drop k).length = ts.length - (ts.drop k).length := by
    rw [List.length_drop, List.length_drop]
    omega
  simp only [Reading.ending, Reading.before, hrest, hcursor]

/-- The place where reading stops is one of the closed line, and nothing behind it decides. -/
theorem ending_looks (config : Config) (ts : List Token) :
    (config.ending ts).cursor < (closed ts).length ∧
      Looks config.elementary config.maxDepth {} (closed ts) (config.ending ts).cursor := by
  obtain ⟨k, hk⟩ := exists_looks config.elementary config.maxDepth {} (closed ts)
  have hlt : k < (closed ts).length := hk.le_end.trans_lt (length_beforeEnd_lt (eof_mem_closed ts))
  have hcursor : (config.ending ts).cursor = k := by
    have hrest : (config.read { tokens := closed ts }).rest.tokens = (closed ts).drop k := hk.rest
    simp only [Config.ending, Reading.ending, hrest, List.length_drop]
    omega
  rw [hcursor]
  exact ⟨hlt, hk⟩

theorem ending_eq_of_agreeTo {config : Config} {ts us : List Token}
    (h : AgreeTo (config.ending ts).cursor (closed ts) (closed us)) :
    config.ending us = config.ending ts := by
  obtain ⟨hlt, hlooks⟩ := ending_looks config ts
  have hread : config.read { tokens := closed us } =
      (config.read { tokens := closed ts }).before ((closed us).drop (config.ending ts).cursor) :=
    hlooks.congr (closed us) h
  have hus : (config.ending ts).cursor < (closed us).length :=
    (h.le_length_beforeEnd hlooks.le_end).trans_lt (length_beforeEnd_lt (eof_mem_closed us))
  calc config.ending us
      = ((config.read { tokens := closed ts }).before
          ((closed us).drop (config.ending ts).cursor)).ending (closed us) := by
        rw [Config.ending, hread]
    _ = config.ending ts := ending_before hlooks.rest hlt hus

/-- Reading never depends on what it has not read.  It stops before a token of the closed line, and
with the same tokens up to there any line ends in the same way; so tokens behind the first end
token never matter, and no failure is replaced by another one further right. -/
theorem reading_local (config : Config) (ts us : List Token) :
    let k := (config.ending ts).cursor
    k < (closed ts).length ∧
    (config.read { tokens := closed ts }).rest.tokens = (closed ts).drop k ∧
    ((∀ i ≤ k, (closed us)[i]? = (closed ts)[i]?) → config.ending us = config.ending ts) ∧
    (beforeEnd us = beforeEnd ts → config.ending us = config.ending ts) ∧
    ∀ tail, config.ending ((closed ts).take (k + 1) ++ tail) = config.ending ts := by
  intro k
  obtain ⟨hlt, hlooks⟩ := ending_looks config ts
  refine ⟨hlt, hlooks.rest, ?_, ?_, ?_⟩
  · intro h
    apply ending_eq_of_agreeTo
    intro i hi
    rw [List.getD_eq_getElem?_getD, List.getD_eq_getElem?_getD, h i hi]
  · intro h
    have hself : AgreeTo k (closed ts) ts := fun i _ => (getD_closed ts i).symm
    have hk : k ≤ (beforeEnd ts).length := hself.le_length_beforeEnd hlooks.le_end
    exact ending_eq_of_agreeTo (agreeTo_closed.mpr ((agreeTo_of_beforeEnd_eq h).mono hk))
  · intro tail
    apply ending_eq_of_agreeTo
    intro i hi
    have htake : i < ((closed ts).take (k + 1)).length := by
      rw [List.length_take]
      omega
    rw [getD_closed, List.getD_append _ _ _ _ htake, List.getD_eq_getElem?_getD,
      List.getD_eq_getElem?_getD, List.getElem?_take_of_lt (Nat.lt_succ_of_le hi)]

end Calculator
