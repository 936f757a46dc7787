import Calculator.Proofs.Nesting
import Calculator.Proofs.Syntax

/-! # Reading again

A reader may be used again after a failure, which leaves levels of nesting counted as open.  They
only lower the limit: the next reading is that of a fresh reader with so many levels fewer.
-/
namespace Calculator

def Failure.withLimit (limit : Nat) : Failure → Failure
  | .nestingTooDeep _ => .nestingTooDeep limit
  | e => e

theorem Failure.withLimit_of_semantic {limit : Nat} {e : Failure} (h : e.kind = .semantic) :
    e.withLimit limit = e := by
  cases e <;> first | rfl | cases h

section
variable (g : Nat)

def Work.raise (w : Work) : Work := { w with depth := g + w.depth }

def State.raise (s : State) : State := { s with work := s.work.raise g }

def Move.raise (limit : Nat) : Move → Move
  | .shift s => .shift (s.raise g)
  | .halt e w consumed => .halt (e.withLimit limit) (w.raise g) consumed

/-- A reading that started `g` levels deeper, under the given limit. -/
def Reading.raise (limit : Nat) (r : Reading) : Reading where
  result := r.result.mapError (Failure.withLimit limit)
  steps := r.steps
  rest := { tokens := r.rest.tokens, depth := g + r.rest.depth }

variable (lib : Elementary) (limit : Nat)

theorem settle_go_raise (next : Option Operator) (w : Work) (x : Float) (ps : List Pending)
    (depth : Nat) (steps : List Step) (h : powers ps ≤ depth) :
    settle.go lib next (w.raise g) x ps (g + depth) steps =
      ((settle.go lib next w x ps depth steps).1,
        (settle.go lib next w x ps depth steps).2.raise g) := by
  induction ps generalizing x depth steps with
  | nil => rfl
  | cons p ps ih =>
    rw [powers_cons] at h
    simp only [settle.go]
    by_cases hp : next.any p.op.yieldsTo = true
    · simp only [hp]
      rfl
    · simp only [hp]
      have hdepth : (if p.op = .pow then g + depth - 1 else g + depth) =
          g + if p.op = .pow then depth - 1 else depth := by
        split at h
        · simp_all
          omega
        · simp_all
      rw [hdepth]
      cases (Operation.binary p.left p.op x).perform lib with
      | ok r =>
        apply ih
        split at h
        · simp_all
          omega
        · simp_all
      | error e => rfl

theorem settle_raise {next : Option Operator} {x : Float} {w w' : Work} {r : Except Failure Float}
    {before : Nat} (hw : w.Counts before) (h : settle lib next x w = (r, w')) :
    settle lib next x (w.raise g) = (r, w'.raise g) := by
  have hdepth := hw.depth
  simp only [Work.openings, Openings.total] at hdepth
  have hgo := settle_go_raise g lib next w x w.pending w.depth w.steps (by omega)
  have hset : settle.go lib next w x w.pending w.depth w.steps = (r, w') := h
  rw [hset] at hgo
  exact hgo

theorem Work.raise_close {w : Work} (hw : 0 < w.depth) (ps : List Pending)
    (outer : List Enclosing) : (w.raise g).close ps outer = (w.close ps outer).raise g := by
  have hdepth : g + w.depth - 1 = g + (w.depth - 1) := by omega
  simp [Work.raise, Work.close, hdepth]

theorem Work.Counts.depth_pos {w : Work} {before : Nat} (hw : w.Counts before) {a : Enclosing}
    {outer : List Enclosing} (he : w.enclosing = a :: outer) : 0 < w.depth := by
  have hdepth := hw.depth
  simp only [Work.openings, Openings.total, he, List.map_cons, List.sum_cons] at hdepth
  omega

/-- Every level that is taken away while operators are applied was counted. -/
theorem Work.Counts.settle {next : Option Operator} {x : Float} {w w' : Work}
    {r : Except Failure Float} {before : Nat} (hw : w.Counts before)
    (h : settle lib next x w = (r, w')) :
    w'.depth + powers w.pending = w.depth + powers w'.pending ∧
      (w'.enclosing ≠ [] → 0 < w'.depth) := by
  obtain ⟨applied, hset⟩ := settles lib h
  have hw' := hset.counts hw
  constructor
  · have htotal := hset.total_eq
    have hdepth := hw.depth
    have hdepth' := hw'.depth
    rw [hset.pending, powers_append]
    omega
  · intro hne
    obtain ⟨a, outer, he⟩ := List.exists_cons_of_ne_nil hne
    exact hw'.depth_pos he

theorem Enters.raise {s : State} {t : Token} {w : Work} {before : Nat} (h : Enters lib s t w)
    (hs : s.work.Counts before) : Enters lib (s.raise g) t (w.raise g) := by
  cases h with
  | group w => exact .group (w.raise g)
  | call f w => exact .call f (w.raise g)
  | power hset => exact .power (settle_raise g lib hs hset)

theorem Refuses.raise {s : State} {t : Token} {expected : Expected} {w : Work} {before : Nat}
    (h : Refuses lib s t expected w) (hs : s.work.Counts before) :
    Refuses lib (s.raise g) t expected (w.raise g) := by
  cases h with
  | operand w hk ht => exact .operand (w.raise g) hk ht
  | argument f w ht => exact .argument f (w.raise g) ht
  | line hset ho ht he => exact .line (settle_raise g lib hs hset) ho ht he
  | group hset ho ht he => exact .group (settle_raise g lib hs hset) ho ht he

/-- The same token makes the same move `g` levels deeper, where the limit is as much higher. -/
theorem Moves.raise {s : State} {t : Token} {m : Move} {before : Nat}
    (h : Moves lib (limit - g) s t m) (hs : s.work.Counts before) :
    Moves lib limit (s.raise g) t (m.raise g limit) := by
  cases h with
  | number x w => exact .number x (w.raise g)
  | name f w => exact .name f (w.raise g)
  | undefined w hn => exact .undefined (w.raise g) hn
  | enter h hl =>
    refine .enter (h.raise g lib hs) ?_
    simp only [Work.raise]
    omega
  | tooDeep h hl =>
    refine .tooDeep (h.raise g lib hs) ?_
    simp only [Work.raise]
    omega
  | operator hop hset => exact .operator hop (settle_raise g lib hs hset)
  | fail hset =>
    have hset' := settle_raise g lib hs hset
    obtain ⟨_, hset⟩ := settles lib hset
    rw [Move.raise, Failure.withLimit_of_semantic (hset.semantic _ rfl)]
    exact .fail hset'
  | closeGroup hset he =>
    have hm : Moves lib limit _ _ _ := .closeGroup (settle_raise g lib hs hset) he
    obtain ⟨_, hset⟩ := settles lib hset
    rw [Work.raise_close g ((hset.counts hs).depth_pos he)] at hm
    exact hm
  | closeCall hset he hp =>
    have hm : Moves lib limit _ _ _ := .closeCall (settle_raise g lib hs hset) he hp
    obtain ⟨_, hset⟩ := settles lib hset
    rw [Work.raise_close g ((hset.counts hs).depth_pos he)] at hm
    exact hm
  | failCall hset he hp =>
    have hm : Moves lib limit _ _ _ := .failCall (settle_raise g lib hs hset) he hp
    obtain ⟨_, hset⟩ := settles lib hset
    rw [Work.raise_close g ((hset.counts hs).depth_pos he)] at hm
    rw [Move.raise, Failure.withLimit_of_semantic (Operation.perform_error lib hp)]
    exact hm
  | refuse h => exact .refuse (h.raise g lib hs)

theorem Runs.raise {s s' : State} {us : List Token} {before : Nat}
    (h : Runs lib (limit - g) s us s') (hs : s.work.Counts before) :
    Runs lib limit (s.raise g) us (s'.raise g) := by
  induction h with
  | refl s => exact .refl (s.raise g)
  | shift ht hm hr ih =>
    exact .shift ht (hm.raise g lib limit hs) (ih (hm.counts lib (limit - g) hs).1)

theorem Stops.raise {s : State} {ts : List Token} {r : Reading} {before : Nat}
    (h : Stops lib (limit - g) s ts r) (hs : s.work.Counts before) :
    Stops lib limit (s.raise g) ts (r.raise g limit) := by
  cases h with
  | value hts hset he => exact .value hts (settle_raise g lib hs hset) he
  | endRefused hts h => exact .endRefused hts (h.raise g lib hs)
  | endFailed hts hset =>
    have hstop : Stops lib limit _ _ _ := .endFailed hts (settle_raise g lib hs hset)
    obtain ⟨_, hset⟩ := settles lib hset
    simp only [Reading.raise, Reading.ofHalt, Except.mapError,
      Failure.withLimit_of_semantic (hset.semantic _ rfl)]
    exact hstop
  | halt ht hm => exact .halt ht (hm.raise g lib limit hs)

theorem run_raise {s : State} {before : Nat} (hs : s.work.Counts before) (ts : List Token) :
    (s.raise g).run lib limit ts = (s.run lib (limit - g) ts).raise g limit := by
  obtain ⟨us, rest, s', rfl, hr, hstop⟩ := exists_runs lib (limit - g) s ts
  have hs' := hr.counts lib (limit - g) hs
  rw [(hr.raise g lib limit hs).run_eq lib limit, (hstop.raise g lib limit hs').run_eq lib limit]

end

/-- The levels that a reader counts as open only lower its limit. -/
theorem read_eq_fresh (lib : Elementary) (limit : Nat) (r : Reader) :
    r.read lib limit =
      (Reader.read lib (limit - r.depth) { tokens := r.tokens }).raise r.depth limit := by
  have hs : ({} : State).work.Counts 0 := counts_initial 0
  exact run_raise r.depth lib limit hs r.tokens

section
variable (lib : Elementary) (limit : Nat)

/-- Reading opens one level at most for every token that it consumes. -/
theorem Stops.rest {s : State} {ts : List Token} {r : Reading} {before : Nat}
    (h : Stops lib limit s ts r) (hs : s.work.Counts before) :
    ∃ us, ts = us ++ r.rest.tokens ∧ (∀ t ∈ us, t ≠ .eof) ∧
      r.rest.depth ≤ s.work.depth + us.length := by
  cases h with
  | value hts hset he => exact ⟨[], rfl, by simp, settle_depth_le lib hset⟩
  | endRefused hts h =>
    refine ⟨[], rfl, by simp, ?_⟩
    cases h with
    | operand w hk ht => exact le_rfl
    | argument f w ht => exact le_rfl
    | line hset ho ht he => exact settle_depth_le lib hset
    | group hset ho ht he => exact settle_depth_le lib hset
  | endFailed hts hset => exact ⟨[], rfl, by simp, settle_depth_le lib hset⟩
  | @halt _ t ts e w consumed ht hm =>
    cases consumed with
    | true => exact ⟨[t], rfl, by simpa using ht, hm.depth_le lib limit hs⟩
    | false =>
      obtain ⟨hw, hopen⟩ := hm.halt_counts lib limit hs
      have hdepth := hs.depth
      have hdepth' := hw.depth
      simp only [Bool.false_eq_true, ↓reduceIte] at hopen
      refine ⟨[], rfl, by simp, ?_⟩
      simp only [Reading.ofHalt, List.length_nil]
      omega

/-- Reading that succeeds has closed every level and stands at the end of the line. -/
theorem Stops.rest_of_ok {s : State} {ts : List Token} {r : Reading} {before : Nat} {v : Float}
    (h : Stops lib limit s ts r) (hs : s.work.Counts before) (hv : r.result = .ok v) :
    r.rest = { tokens := ts, depth := before } ∧ ts.headD .eof = .eof := by
  cases h with
  | @value _ _ _ w' _ hts hset he =>
    obtain ⟨_, hset⟩ := settles lib hset
    have hdepth := (hset.counts hs).depth
    simp only [Work.openings, Openings.total, hset.pending_eq_nil, he, powers_nil, List.map_nil,
      List.sum_nil, Nat.add_zero] at hdepth
    refine ⟨?_, hts⟩
    rw [Reading.ofHalt, hdepth]
  | endRefused hts h => cases hv
  | endFailed hts hset => cases hv
  | halt ht hm => cases hv

/-- Where reading consumes nothing at the start of an operand, it has done nothing at all. -/
theorem Stops.of_rest_eq {w : Work} {ts : List Token} {r : Reading}
    (h : Stops lib limit ⟨.operand, w⟩ ts r) (hrest : r.rest.tokens = ts) :
    ∃ e, r = .ofHalt (.error e) w ts := by
  cases h with
  | endRefused hts h =>
    cases h with
    | operand w hk ht => exact ⟨_, rfl⟩
  | @halt _ t ts e w' consumed ht hm =>
    cases hm with
    | undefined w hn => exact ⟨_, rfl⟩
    | tooDeep h hl =>
      have hlen := congrArg List.length hrest
      simp [Reading.ofHalt] at hlen
    | refuse h =>
      cases h with
      | operand w hk ht => exact ⟨_, rfl⟩

end

section
variable (config : Config)

def Reader.start (r : Reader) : State := { work := { depth := r.depth } }

theorem Runs.counts_start {r : Reader} {us : List Token} {s : State}
    (h : Runs config.elementary config.maxDepth r.start us s) :
    s.work.Counts r.depth ∧ s.work.depth ≤ r.depth + us.length := by
  have hstart : r.start.work.Counts r.depth := counts_initial r.depth
  constructor
  · exact h.counts config.elementary config.maxDepth hstart
  · exact h.depth_le config.elementary config.maxDepth hstart

theorem exists_reading (r : Reader) :
    ∃ us ts s, r.tokens = us ++ ts ∧ Runs config.elementary config.maxDepth r.start us s ∧
      Stops config.elementary config.maxDepth s ts (config.read r) :=
  exists_runs config.elementary config.maxDepth r.start r.tokens

theorem read_eq_of_rest_eq {r : Reader} (h : (config.read r).rest.tokens = r.tokens) :
    ∃ e, config.read r = ⟨.error e, [], r⟩ := by
  obtain ⟨us, ts, s, hts, hr, hstop⟩ := exists_reading config r
  obtain ⟨hs, -⟩ := hr.counts_start config
  obtain ⟨vs, hvs, -, -⟩ := hstop.rest config.elementary config.maxDepth hs
  have hlen := congrArg List.length hts
  rw [hvs, h, List.length_append, List.length_append] at hlen
  obtain rfl : us = [] := List.eq_nil_of_length_eq_zero (by omega)
  cases hr with
  | refl =>
    rw [List.nil_append] at hts
    obtain ⟨e, he⟩ := hstop.of_rest_eq config.elementary config.maxDepth (h.trans hts)
    refine ⟨e, ?_⟩
    rw [he, ← hts]
    rfl

def Config.rest (r : Reader) : Reader := (config.read r).rest

structure Reader.Behind (tokens us : List Token) (r : Reader) : Prop where
  tokens : tokens = us ++ r.tokens
  ne_eof : ∀ t ∈ us, t ≠ .eof
  depth : r.depth ≤ us.length

theorem Reader.Behind.beforeEnd_eq {tokens us vs ts : List Token} {r : Reader}
    (h : r.Behind tokens us) (hts : r.tokens = vs ++ ts) (hvs : ∀ t ∈ vs, t ≠ .eof) :
    beforeEnd tokens = us ++ (vs ++ beforeEnd ts) := by
  rw [h.tokens, hts, beforeEnd_append h.ne_eof, beforeEnd_append hvs]

theorem Reader.Behind.rest {tokens us : List Token} {r : Reader} (h : r.Behind tokens us) :
    ∃ us', (config.rest r).Behind tokens us' := by
  obtain ⟨vs, ts, s, hts, hr, hstop⟩ := exists_reading config r
  obtain ⟨hs, hdepth⟩ := hr.counts_start config
  obtain ⟨ws, rfl, hws, hrest⟩ := hstop.rest config.elementary config.maxDepth hs
  refine ⟨us ++ (vs ++ ws), ?_, ?_, ?_⟩
  · rw [h.tokens, hts]
    simp [Config.rest]
  · intro t ht
    rw [List.mem_append, List.mem_append] at ht
    rcases ht with ht | ht | ht
    · exact h.ne_eof t ht
    · exact hr.ne_eof _ _ t ht
    · exact hws t ht
  · have hbehind := h.depth
    simp only [List.length_append, Config.rest]
    omega

/-- A state that reading passes through has consumed no end token, and opened no more levels than
it has consumed tokens. -/
theorem Reader.Behind.passed {tokens us vs : List Token} {r : Reader} {s : State}
    (h : r.Behind tokens us) (hvs : vs <+: r.tokens)
    (hr : Runs config.elementary config.maxDepth r.start vs s) :
    s.work.depth ≤ us.length + vs.length ∧
      us.length + vs.length ≤ (beforeEnd tokens).length := by
  obtain ⟨ts, hts⟩ := hvs
  obtain ⟨-, hle⟩ := hr.counts_start config
  constructor
  · exact hle.trans (Nat.add_le_add_right h.depth _)
  · rw [h.beforeEnd_eq hts.symm (hr.ne_eof _ _)]
    simp only [List.length_append]
    omega

theorem Reader.Behind.rest_of_ok {tokens us : List Token} {r : Reader} {v : Float}
    (h : r.Behind tokens us) (hv : (config.read r).result = .ok v) :
    (config.read r).rest =
      { tokens := tokens.drop (beforeEnd tokens).length, depth := r.depth } := by
  obtain ⟨vs, ts, s, hts, hr, hstop⟩ := exists_reading config r
  obtain ⟨hs, -⟩ := hr.counts_start config
  obtain ⟨hrest, hend⟩ := hstop.rest_of_ok config.elementary config.maxDepth hs hv
  rw [h.beforeEnd_eq hts (hr.ne_eof _ _), beforeEnd_of_end hend, List.append_nil, h.tokens, hts,
    ← List.append_assoc, List.drop_left]
  exact hrest

theorem exists_behind (tokens : List Token) (n : Nat) :
    ∃ us, (config.rest^[n] { tokens }).Behind tokens us := by
  induction n with
  | zero => exact ⟨[], rfl, by simp, le_rfl⟩
  | succ n ih =>
    obtain ⟨us, h⟩ := ih
    rw [Function.iterate_succ_apply']
    exact h.rest config

end

/-- A reader may be used any number of times.  It never counts more levels as open than tokens it
has consumed, nor leaves the line, and takes away only levels that it counted.  A success leaves it
at the end of the line with the levels it had; each reading is that of a fresh reader of the tokens
left, with so many levels fewer; and once a reading consumes nothing, nothing changes any more. -/
theorem reuse_eq_fresh (config : Config) (tokens : List Token) (n : Nat) :
    let r := config.rest^[n] { tokens }
    let reading := config.read r
    let fresh := Reader.read config.elementary (config.maxDepth - r.depth) { tokens := r.tokens }
    ∃ c, r.tokens = tokens.drop c ∧ r.depth ≤ c ∧ c ≤ (beforeEnd tokens).length ∧
      (∀ us s, us <+: r.tokens →
        r.start.after config.elementary config.maxDepth us = some s →
        s.work.depth ≤ c + us.length ∧ c + us.length ≤ (beforeEnd tokens).length ∧
        ∀ next x result w, settle config.elementary next x s.work = (result, w) →
          w.depth ≤ s.work.depth ∧
          w.depth + powers s.work.pending = s.work.depth + powers w.pending ∧
          (w.enclosing ≠ [] → 0 < w.depth)) ∧
      (∀ v, reading.result = .ok v →
        reading.rest = { tokens := tokens.drop (beforeEnd tokens).length, depth := r.depth }) ∧
      reading.result = fresh.result.mapError (Failure.withLimit config.maxDepth) ∧
      reading.steps = fresh.steps ∧
      (reading.rest.tokens = r.tokens → ∃ e, ∀ m, config.rest^[m] r = r ∧
        config.read (config.rest^[m] r) = ⟨.error e, [], r⟩) := by
  intro r reading fresh
  obtain ⟨us, h⟩ := exists_behind config tokens n
  change r.Behind tokens us at h
  have hfresh : reading = fresh.raise r.depth config.maxDepth := read_eq_fresh _ _ r
  refine ⟨us.length, ?_, h.depth, ?_, ?_, ?_, ?_, ?_, ?_⟩
  · rw [h.tokens, List.drop_left]
  · rw [h.tokens, beforeEnd_append h.ne_eof]
    simp
  · intro vs s hvs hafter
    have hr := runs_of_after config.elementary config.maxDepth hafter
    obtain ⟨hdepth, hend⟩ := h.passed config hvs hr
    obtain ⟨hs, -⟩ := hr.counts_start config
    refine ⟨hdepth, hend, ?_⟩
    intro next x result w hset
    exact ⟨settle_depth_le config.elementary hset, hs.settle config.elementary hset⟩
  · intro v hv
    exact h.rest_of_ok config hv
  · rw [hfresh]
    rfl
  · rw [hfresh]
    rfl
  · intro hsame
    obtain ⟨e, he⟩ := read_eq_of_rest_eq config hsame
    have hfix : config.rest r = r := congrArg Reading.rest he
    refine ⟨e, fun m => ?_⟩
    rw [Function.iterate_fixed hfix]
    exact ⟨rfl, he⟩

end Calculator
