import Calculator.Evaluation
import Calculator.Proofs.Nesting

/-! # The nesting limit

Under two limits the reader makes the same moves, until one of them is exceeded.  The greatest
number of levels that are open at once is therefore a sharp threshold: a lower limit is exceeded,
and any other one changes nothing.
-/
namespace Calculator

def Move.within (limit : Nat) (m : Move) : Move :=
  if m.work.depth ≤ limit then m else .halt (.nestingTooDeep limit) m.work true

theorem enter_work (limit : Nat) (w : Work) : (enter limit w).work = w.deeper := by
  unfold enter
  dsimp only
  split
  · rfl
  · rfl

theorem within_enter {limit limit' : Nat} {w : Work}
    (hle : limit' ≤ limit ∨ w.deeper.depth ≤ limit) :
    (enter limit w).within limit' = enter limit' w := by
  have hdepth : w.deeper.depth = w.depth + 1 := rfl
  unfold Move.within
  rw [enter_work, hdepth]
  by_cases hl : w.depth + 1 ≤ limit'
  · have hl' : w.depth + 1 ≤ limit := by omega
    simp [hl, enter, Nat.not_lt.mpr hl, Nat.not_lt.mpr hl']
  · simp [hl, enter, not_le.mp hl, Work.deeper]

section
variable (lib : Elementary)

theorem Refuses.depth_le {s : State} {t : Token} {expected : Expected} {w : Work}
    (h : Refuses lib s t expected w) : w.depth ≤ s.work.depth := by
  cases h with
  | operand w hk ht => exact le_rfl
  | argument f w ht => exact le_rfl
  | line hset ho ht he =>
    have hdepth := settle_depth_le lib hset
    exact hdepth
  | group hset ho ht he =>
    have hdepth := settle_depth_le lib hset
    exact hdepth

/-- A move that opens no level is made under every limit. -/
theorem Moves.enters_or {limit : Nat} {s : State} {t : Token} {m : Move}
    (h : Moves lib limit s t m) :
    (∃ w, Enters lib s t w ∧ m = Calculator.enter limit w) ∨
      m.work.depth ≤ s.work.depth ∧ ∀ limit', Moves lib limit' s t m := by
  cases h with
  | number x w => exact .inr ⟨le_rfl, fun _ => .number x w⟩
  | name f w => exact .inr ⟨le_rfl, fun _ => .name f w⟩
  | undefined w hn => exact .inr ⟨le_rfl, fun _ => .undefined w hn⟩
  | @enter _ _ w h hl =>
    refine .inl ⟨w, h, ?_⟩
    simp [Calculator.enter, Nat.not_lt.mpr hl, Work.deeper]
  | @tooDeep _ _ w h hl =>
    refine .inl ⟨w, h, ?_⟩
    simp [Calculator.enter, hl, Work.deeper]
  | operator hop hset =>
    have hdepth := settle_depth_le lib hset
    exact .inr ⟨hdepth, fun _ => .operator hop hset⟩
  | fail hset =>
    have hdepth := settle_depth_le lib hset
    exact .inr ⟨hdepth, fun _ => .fail hset⟩
  | closeGroup hset he =>
    have hdepth := settle_depth_le lib hset
    exact .inr ⟨(Nat.sub_le _ _).trans hdepth, fun _ => .closeGroup hset he⟩
  | closeCall hset he hp =>
    have hdepth := settle_depth_le lib hset
    exact .inr ⟨(Nat.sub_le _ _).trans hdepth, fun _ => .closeCall hset he hp⟩
  | failCall hset he hp =>
    have hdepth := settle_depth_le lib hset
    exact .inr ⟨(Nat.sub_le _ _).trans hdepth, fun _ => .failCall hset he hp⟩
  | refuse h => exact .inr ⟨h.depth_le lib, fun _ => .refuse h⟩

/-- A move that does not exceed its own limit, or exceeds a lower one as well, is made under
another limit as far as that one allows. -/
theorem Moves.within {limit limit' : Nat} {s : State} {t : Token} {m : Move}
    (h : Moves lib limit s t m) (hs : s.work.depth ≤ limit')
    (hle : limit' ≤ limit ∨ m.work.depth ≤ limit) : Moves lib limit' s t (m.within limit') := by
  rcases h.enters_or lib with ⟨w, henters, rfl⟩ | ⟨hdepth, hmoves⟩
  · rw [enter_work] at hle
    rw [within_enter hle]
    exact henters.moves lib limit'
  · unfold Move.within
    rw [if_pos (hdepth.trans hs)]
    exact hmoves limit'

theorem Moves.ne_tooDeep {limit n : Nat} {s : State} {t : Token} {e : Failure} {w : Work}
    {consumed : Bool} (h : Moves lib limit s t (.halt e w consumed)) (hw : w.depth ≤ limit) :
    e ≠ .nestingTooDeep n := by
  rintro rfl
  cases h with
  | tooDeep h hl => exact absurd hw (not_le.mpr hl)
  | fail hset =>
    obtain ⟨_, hset⟩ := settles lib hset
    cases hset.semantic _ rfl
  | failCall hset he hp => cases Operation.perform_error lib hp

theorem Moves.steps {limit : Nat} {s : State} {t : Token} {m : Move} (h : Moves lib limit s t m) :
    s.work.steps <:+ m.work.steps := by
  have entered {s : State} {t : Token} {w : Work} (h : Enters lib s t w) :
      s.work.steps <:+ w.deeper.steps := by
    cases h with
    | group w => exact List.suffix_rfl
    | call f w => exact List.suffix_rfl
    | power hset =>
      have hsteps := settle_steps lib hset
      exact hsteps
  cases h with
  | number x w => exact List.suffix_rfl
  | name f w => exact List.suffix_rfl
  | undefined w hn => exact List.suffix_rfl
  | enter h hl => exact entered h
  | tooDeep h hl => exact entered h
  | operator hop hset =>
    have hsteps := settle_steps lib hset
    exact hsteps
  | fail hset =>
    have hsteps := settle_steps lib hset
    exact hsteps
  | closeGroup hset he =>
    have hsteps := settle_steps lib hset
    exact hsteps
  | closeCall hset he hp =>
    have hsteps := settle_steps lib hset
    exact hsteps.trans (List.suffix_cons _ _)
  | failCall hset he hp =>
    have hsteps := settle_steps lib hset
    exact hsteps
  | refuse h =>
    cases h with
    | operand w hk ht => exact List.suffix_rfl
    | argument f w ht => exact List.suffix_rfl
    | line hset ho ht he =>
      have hsteps := settle_steps lib hset
      exact hsteps
    | group hset ho ht he =>
      have hsteps := settle_steps lib hset
      exact hsteps

theorem Runs.steps {limit : Nat} {s s' : State} {us : List Token} (h : Runs lib limit s us s') :
    s.work.steps <:+ s'.work.steps := by
  induction h with
  | refl s => exact List.suffix_rfl
  | shift ht hm hr ih => exact (hm.steps lib).trans ih

theorem Stops.steps {limit : Nat} {s : State} {ts : List Token} {r : Reading}
    (h : Stops lib limit s ts r) : s.work.steps.reverse <+: r.steps := by
  cases h with
  | value hts hset he =>
    have hsteps := settle_steps lib hset
    exact List.reverse_prefix.mpr hsteps
  | endRefused hts h =>
    have hm : Moves lib limit s .eof _ := .refuse h
    exact List.reverse_prefix.mpr (hm.steps lib)
  | endFailed hts hset =>
    have hsteps := settle_steps lib hset
    exact List.reverse_prefix.mpr hsteps
  | halt ht hm =>
    have hsteps := hm.steps lib
    exact List.reverse_prefix.mpr hsteps

/-- No step that was taken is undone. -/
theorem run_steps (limit : Nat) (s : State) (ts : List Token) :
    s.work.steps.reverse <+: (s.run lib limit ts).steps := by
  obtain ⟨us, rest, s', rfl, hr, hstop⟩ := exists_runs lib limit s ts
  exact (List.reverse_prefix.mpr (hr.steps lib)).trans (hstop.steps lib)

theorem run_steps_mono {limit limit' : Nat} (hle : limit ≤ limit') {s : State}
    (hs : s.work.depth ≤ limit) (ts : List Token) :
    (s.run lib limit ts).steps <+: (s.run lib limit' ts).steps := by
  induction ts using line_induction generalizing s with
  | ended ts hts =>
    rw [State.run_end lib limit hts, State.run_end lib limit' hts]
  | token t ts ht ih =>
    have hm := moves lib limit' s ht
    have hm' := hm.within lib hs (.inl hle)
    rw [State.run_cons lib limit ht, State.run_cons lib limit' ht, hm'.step_eq]
    cases s.step lib limit' t with
    | shift next =>
      by_cases hl : next.work.depth ≤ limit
      · simp only [Move.within, Move.work, hl, ↓reduceIte]
        exact ih hl
      · simp only [Move.within, Move.work, hl, ↓reduceIte]
        exact run_steps lib limit' next ts
    | halt e w consumed =>
      by_cases hl : w.depth ≤ limit
      · simp only [Move.within, Move.work, hl, ↓reduceIte]
        exact List.prefix_rfl
      · simp only [Move.within, Move.work, hl, ↓reduceIte]
        exact List.prefix_rfl

theorem Stops.end_ne_tooDeep {limit n : Nat} {s : State} {ts : List Token} {r : Reading}
    (hts : ts.headD .eof = .eof) (h : Stops lib limit s ts r) :
    r.result ≠ .error (.nestingTooDeep n) := by
  intro hr
  cases h with
  | value hts' hset he => cases hr
  | endRefused hts' h => cases hr
  | endFailed hts' hset =>
    obtain ⟨_, hset⟩ := settles lib hset
    cases hr
    cases hset.semantic _ rfl
  | halt ht hm => exact ht hts

/-- Reading that consumes `us` exceeds a limit below the levels that are then open at once, above
the number `before`, and is the same under every other limit. -/
structure Threshold (limit before : Nat) (s : State) (ts us : List Token) : Prop where
  tokens : ts = us ++ (s.run lib limit ts).rest.tokens
  ne_eof : ∀ t ∈ us, t ≠ .eof
  ne_tooDeep : ∀ n, (s.run lib limit ts).result ≠ .error (.nestingTooDeep n)
  exceeded : ∀ d, s.work.depth ≤ d → d < before + s.work.openings.peak us →
    (s.run lib d ts).result = .error (.nestingTooDeep d)
  unaffected : ∀ d, before + s.work.openings.peak us ≤ d → s.run lib d ts = s.run lib limit ts

variable {limit before : Nat} {s : State} {t : Token} {ts us : List Token}

theorem threshold_end (hs : s.work.Counts before) (hts : ts.headD .eof = .eof) :
    Threshold lib limit before s ts [] := by
  refine ⟨?_, by simp, fun n => (stops_end lib limit hts s).end_ne_tooDeep lib hts, ?_, ?_⟩
  · rw [State.run_end lib limit hts]
    rfl
  · intro d hd hpeak
    have hdepth := hs.depth
    simp only [Openings.peak] at hpeak
    omega
  · intro d hpeak
    rw [State.run_end lib d hts, State.run_end lib limit hts]

theorem Moves.exceeded {m : Move} {d : Nat} (h : Moves lib limit s t m) (ht : t ≠ .eof)
    (hm : m.work.depth ≤ limit) (hs : s.work.depth ≤ d) (hd : d < m.work.depth) :
    (s.run lib d (t :: ts)).result = .error (.nestingTooDeep d) := by
  have hwithin := h.within lib hs (.inr hm)
  rw [State.run_cons lib d ht, hwithin.step_eq, Move.within, if_neg (not_le.mpr hd)]
  rfl

theorem Moves.unaffected {m : Move} {d : Nat} (h : Moves lib limit s t m)
    (hm : m.work.depth ≤ limit) (hs : s.work.depth ≤ d) (hd : m.work.depth ≤ d) :
    s.step lib d t = m := by
  have hwithin := h.within lib hs (.inr hm)
  rw [hwithin.step_eq, Move.within, if_pos hd]

theorem threshold_halt {e : Failure} {w : Work} {consumed : Bool} (hs : s.work.Counts before)
    (ht : t ≠ .eof) (hm : Moves lib limit s t (.halt e w consumed)) (hw : w.depth ≤ limit) :
    Threshold lib limit before s (t :: ts) (if consumed then [t] else []) := by
  have hdepth := hs.depth
  obtain ⟨hcounts, hopen⟩ := hm.halt_counts lib limit hs
  have hdepth' := hcounts.depth
  have hrun (d : Nat) (hd : s.work.depth ≤ d) (hd' : w.depth ≤ d) : s.run lib d (t :: ts) =
      .ofHalt (.error e) w (if consumed then ts else t :: ts) := by
    rw [State.run_cons lib d ht, hm.unaffected lib hw hd hd']
  have hlimit : s.run lib limit (t :: ts) =
      .ofHalt (.error e) w (if consumed then ts else t :: ts) := by
    rw [State.run_cons lib limit ht, hm.step_eq]
  have hpeak : s.work.openings.peak (if consumed then [t] else []) =
      max s.work.openings.total w.openings.total := by
    cases consumed with
    | true =>
      simp only [↓reduceIte] at hopen
      simp only [↓reduceIte, Openings.peak, hopen]
    | false =>
      simp only [Bool.false_eq_true, ↓reduceIte] at hopen
      simp only [Bool.false_eq_true, ↓reduceIte, Openings.peak]
      exact (max_eq_left hopen).symm
  refine ⟨?_, ?_, ?_, ?_, ?_⟩
  · rw [hlimit]
    cases consumed <;> rfl
  · cases consumed <;> simp [ht]
  · intro n
    rw [hlimit]
    intro he
    exact hm.ne_tooDeep lib hw (Except.error.inj he)
  · intro d hd hlt
    rw [hpeak] at hlt
    exact hm.exceeded lib ht hw hd (by simp only [Move.work]; omega)
  · intro d hle
    rw [hpeak] at hle
    rw [hrun d (by omega) (by omega), hlimit]

theorem Threshold.shift {s' : State} (h : Threshold lib limit before s' ts us)
    (hs : s.work.Counts before) (ht : t ≠ .eof) (hm : Moves lib limit s t (.shift s'))
    (hlimit : s'.work.depth ≤ limit) : Threshold lib limit before s (t :: ts) (t :: us) := by
  have hdepth := hs.depth
  obtain ⟨hcounts, hopen⟩ := hm.counts lib limit hs
  have hdepth' := hcounts.depth
  have htotal := s'.work.openings.total_le_peak us
  have hrun (d : Nat) (hd : s.work.depth ≤ d) (hd' : s'.work.depth ≤ d) :
      s.run lib d (t :: ts) = s'.run lib d ts := by
    rw [State.run_cons lib d ht, hm.unaffected lib hlimit hd hd']
  have hsame : s.run lib limit (t :: ts) = s'.run lib limit ts := by
    rw [State.run_cons lib limit ht, hm.step_eq]
  have hpeak : s.work.openings.peak (t :: us) =
      max s.work.openings.total (s'.work.openings.peak us) := by
    rw [Openings.peak, hopen]
  refine ⟨?_, ?_, ?_, ?_, ?_⟩
  · rw [hsame]
    exact congrArg (t :: ·) h.tokens
  · simpa [ht] using h.ne_eof
  · rw [hsame]
    exact h.ne_tooDeep
  · intro d hd hlt
    rw [hpeak] at hlt
    by_cases hd' : s'.work.depth ≤ d
    · rw [hrun d hd hd']
      exact h.exceeded d hd' (by omega)
    · exact hm.exceeded lib ht hlimit hd (not_le.mp hd')
  · intro d hle
    rw [hpeak] at hle
    rw [hrun d (by omega) (by omega), hsame]
    exact h.unaffected d (by omega)

theorem exists_threshold (hs : s.work.Counts before) (hlimit : s.work.depth + ts.length ≤ limit) :
    ∃ us, Threshold lib limit before s ts us := by
  induction ts using line_induction generalizing s with
  | ended ts hts => exact ⟨[], threshold_end lib hs hts⟩
  | token t ts ht ih =>
    have hm := moves lib limit s ht
    have hdepth := hm.depth_le lib limit hs
    rw [List.length_cons] at hlimit
    cases hstep : s.step lib limit t with
    | halt e w consumed =>
      rw [hstep] at hm hdepth
      exact ⟨_, threshold_halt lib hs ht hm (hdepth.trans (by omega))⟩
    | shift next =>
      rw [hstep] at hm hdepth
      simp only [Move.work] at hdepth
      obtain ⟨us, h⟩ := ih (hm.counts lib limit hs).1 (by omega)
      exact ⟨t :: us, h.shift lib hs ht hm (by omega)⟩

end

theorem Lexeme.kind_of_token?_error {l : Lexeme} {position : Nat} {e : Failure}
    (h : l.token? position = .error e) : e.kind = .lexical := by
  cases l with
  | digits cs =>
    simp only [token?] at h
    split at h
    · cases h
    · cases h
      rfl
  | stray c =>
    cases h
    rfl
  | _ => cases h

theorem Scan.kind_of_failure {ls : List Lexeme} {position : Nat} {e : Failure}
    (h : (ofLexemes position ls).failure = some e) : e.kind = .lexical := by
  induction ls generalizing position with
  | nil => cases h
  | cons l ls ih =>
    rw [ofLexemes] at h
    split at h
    · next he =>
      cases h
      exact Lexeme.kind_of_token?_error he
    · exact ih h
    · exact ih h

theorem kind_of_tokenize_error {line : List Char} {e : Failure} (h : tokenize line = .error e) :
    e.kind = .lexical := by
  simp only [tokenize] at h
  split at h
  · next hf =>
    cases h
    exact Scan.kind_of_failure hf
  · cases h

theorem length_tokenize {line : List Char} {tokens : List Token} (h : tokenize line = .ok tokens) :
    ∃ ts, ts.length = (Scan.ofText line).tokens.length ∧ tokens = ts ++ [.eof] := by
  simp only [tokenize] at h
  split at h
  · cases h
  · cases h
    exact ⟨_, List.length_map _, rfl⟩

theorem length_le_of_ne_eof {ts us rest : List Token} (h : ts ++ [.eof] = us ++ rest)
    (hus : ∀ t ∈ us, t ≠ .eof) : us.length ≤ ts.length := by
  by_contra hlt
  have hlen := congrArg List.length h
  simp only [List.length_append, List.length_singleton] at hlen
  obtain rfl : rest = [] := List.eq_nil_of_length_eq_zero (by omega)
  rw [List.append_nil] at h
  exact hus .eof (h ▸ List.mem_append_right ts List.mem_cons_self) rfl

theorem Trace.record_steps_mono (trace : Trace) {ss ss' : List Step} (h : ss <+: ss') :
    (trace.record ss).steps <+: (trace.record ss').steps := by
  unfold record
  split
  · exact (List.prefix_append_right_inj _).mpr h
  · exact List.prefix_rfl

theorem evaluate_eq_of_error {line : List Char} {e : Failure} (h : tokenize line = .error e)
    (config : Config) : config.evaluate line = ⟨line, .error e, []⟩ := by
  simp [Config.evaluate, h]

theorem evaluate_eq_of_ok {line : List Char} {tokens : List Token}
    (h : tokenize line = .ok tokens) (config : Config) :
    config.evaluate line =
      ⟨line, (State.run config.elementary config.maxDepth {} tokens).result,
        (State.run config.elementary config.maxDepth {} tokens).steps⟩ := by
  simp [Config.evaluate, h, Config.read, Reader.read]

theorem evaluateWith_steps_mono (lib : Elementary) (line : List Char) (trace : Trace) {d d' : Nat}
    (hd : d ≤ d') :
    (Config.evaluateWith ⟨d, lib⟩ line trace).1.steps <+:
        (Config.evaluateWith ⟨d', lib⟩ line trace).1.steps ∧
      (Config.evaluateWith ⟨d, lib⟩ line trace).2.steps <+:
        (Config.evaluateWith ⟨d', lib⟩ line trace).2.steps := by
  have hsteps : (Config.evaluate ⟨d, lib⟩ line).steps <+:
      (Config.evaluate ⟨d', lib⟩ line).steps := by
    cases h : tokenize line with
    | error e =>
      rw [evaluate_eq_of_error h, evaluate_eq_of_error h]
    | ok tokens =>
      rw [evaluate_eq_of_ok h, evaluate_eq_of_ok h]
      exact run_steps_mono lib hd (Nat.zero_le d) tokens
  constructor
  · exact hsteps
  · exact trace.record_steps_mono hsteps

/-- The nesting limit is a sharp threshold: below the number of levels that are open at once in the
part of the line that is read, evaluation fails for it, and from there on no limit makes any
difference.  A lower limit only takes the last steps away. -/
theorem limit_threshold (lib : Elementary) (line : List Char) (trace : Trace) :
    let evaluate (d : Nat) := Config.evaluateWith ⟨d, lib⟩ line trace
    ∃ n ≤ (Scan.ofText line).tokens.length,
      (∀ d < n, (evaluate d).1.result = .error (.nestingTooDeep d)) ∧
      (∀ d ≥ n, evaluate d = evaluate n ∧
        ∀ limit, (evaluate d).1.result ≠ .error (.nestingTooDeep limit)) ∧
      (∃ part, n = ({} : Openings).peak part ∧
        match tokenize line with
        | .error _ => part = []
        | .ok tokens =>
          ∀ d ≥ n, tokens = part ++ (Config.read ⟨d, lib⟩ { tokens }).rest.tokens) ∧
      ∀ d d', d ≤ d' → (evaluate d).1.steps <+: (evaluate d').1.steps ∧
        (evaluate d).2.steps <+: (evaluate d').2.steps := by
  intro evaluate
  have hmono (d d' : Nat) (hd : d ≤ d') := evaluateWith_steps_mono lib line trace hd
  cases htok : tokenize line with
  | error e =>
    have heval (d : Nat) : evaluate d = (⟨line, .error e, []⟩, trace.record []) := by
      simp only [evaluate, Config.evaluateWith, evaluate_eq_of_error htok]
    refine ⟨0, Nat.zero_le _, by simp, ?_, ⟨[], rfl, rfl⟩, hmono⟩
    intro d _
    rw [heval, heval]
    constructor
    · rfl
    · intro limit he
      cases he
      cases kind_of_tokenize_error htok
  | ok tokens =>
    have hinit : ({} : State).work.Counts 0 := counts_initial 0
    have hlimit : ({} : State).work.depth + tokens.length ≤ tokens.length := by simp
    obtain ⟨us, h⟩ := exists_threshold lib hinit hlimit
    have hopen : 0 + ({} : State).work.openings.peak us = ({} : Openings).peak us := Nat.zero_add _
    have hexceeded := h.exceeded
    have hunaffected := h.unaffected
    rw [hopen] at hexceeded hunaffected
    refine ⟨({} : Openings).peak us, ?_, ?_, ?_, ⟨us, rfl, ?_⟩, hmono⟩
    · obtain ⟨ts, hlen, rfl⟩ := length_tokenize htok
      have hpeak := ({} : Openings).peak_le us
      have htotal : ({} : Openings).total = 0 := rfl
      have hle := length_le_of_ne_eof h.tokens h.ne_eof
      omega
    · intro d hd
      simp only [evaluate, Config.evaluateWith, evaluate_eq_of_ok htok]
      exact hexceeded d (Nat.zero_le d) hd
    · intro d hd
      simp only [evaluate, Config.evaluateWith, evaluate_eq_of_ok htok, hunaffected d hd,
        hunaffected _ le_rfl]
      exact ⟨trivial, h.ne_tooDeep⟩
    · intro d hd
      have htokens := h.tokens
      rw [← hunaffected d hd] at htokens
      exact htokens

end Calculator
