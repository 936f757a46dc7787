import Calculator.Proofs.Grammar

/-! # The moves of the reader

All that a token can do to a state, one constructor for each case, and the runs that such moves
make up.  Facts about reading are proved from these and do not open the reader again.
-/
namespace Calculator

def powers (ps : List Pending) : Nat := ps.countP fun p => p.op == .pow

@[simp] theorem powers_nil : powers [] = 0 := rfl

theorem powers_append (ps qs : List Pending) : powers (ps ++ qs) = powers ps + powers qs :=
  List.countP_append

theorem powers_cons (p : Pending) (ps : List Pending) :
    powers (p :: ps) = powers ps + if p.op = .pow then 1 else 0 := by
  simp [powers, List.countP_cons]

namespace Work

def push (w : Work) (x : Float) (op : Operator) : Work :=
  { w with pending := ⟨x, op⟩ :: w.pending }

def deeper (w : Work) : Work := { w with depth := w.depth + 1 }

def close (w : Work) (ps : List Pending) (outer : List Enclosing) : Work :=
  { w with pending := ps, enclosing := outer, depth := w.depth - 1 }

def record (w : Work) (steps : List Step) : Work := { w with steps := steps.reverse ++ w.steps }

end Work

def Move.work : Move → Work
  | .shift next => next.work
  | .halt _ w _ => w

section
variable (lib : Elementary) (limit : Nat)

theorem Operation.perform_error {o : Operation} {e : Failure} (h : o.perform lib = .error e) :
    e.kind = .semantic := by
  simp only [Operation.perform] at h
  cases hr : o.refusal? with
  | some e' =>
    simp only [hr, Except.error.injEq] at h
    subst h
    unfold Operation.refusal? at hr
    split at hr <;> simp only [Option.ite_none_right_eq_some, Option.some.injEq, reduceCtorEq] at hr
    all_goals
      obtain ⟨_, rfl⟩ := hr
      rfl
  | none =>
    simp only [hr] at h
    split at h
    · cases h
      rfl
    · split at h
      · cases h
        rfl
      · cases h

/-- Applying waiting operators takes the innermost ones away, as long as they do not wait for the
next operator and have a value. -/
structure Settles (next : Option Operator) (w : Work) (applied : List Pending)
    (result : Except Failure Float) (w' : Work) : Prop where
  pending : w.pending = applied ++ w'.pending
  enclosing : w'.enclosing = w.enclosing
  depth : w'.depth = w.depth - powers applied
  steps : w.steps <:+ w'.steps
  applied : ∀ p ∈ applied, next.any p.op.yieldsTo = false
  waits : ∀ x, result = .ok x → ∀ p ∈ w'.pending.head?, next.any p.op.yieldsTo = true
  semantic : ∀ e, result = .error e → e.kind = .semantic

theorem settle_go_settles (next : Option Operator) (w : Work) (x : Float) (ps : List Pending)
    (depth : Nat) (steps : List Step) :
    ∃ applied, Settles next { w with pending := ps, depth := depth, steps := steps } applied
      (settle.go lib next w x ps depth steps).1 (settle.go lib next w x ps depth steps).2 := by
  induction ps generalizing x depth steps with
  | nil => exact ⟨[], by constructor <;> simp [settle.go]⟩
  | cons p ps ih =>
    by_cases hp : next.any p.op.yieldsTo = true
    · exact ⟨[], by constructor <;> simp [settle.go, hp]⟩
    · rw [Bool.not_eq_true] at hp
      cases hr : (Operation.binary p.left p.op x).perform lib with
      | ok r =>
        obtain ⟨applied, hs⟩ := ih r (if p.op = .pow then depth - 1 else depth)
          (⟨.binary p.left p.op x, r⟩ :: steps)
        simp only [settle.go, hp, Bool.false_eq_true, ↓reduceIte, hr]
        refine ⟨p :: applied, ?_, hs.enclosing, ?_, ?_, ?_, hs.waits, hs.semantic⟩
        · exact congrArg (p :: ·) hs.pending
        · rw [hs.depth, powers_cons]
          dsimp only
          split <;> omega
        · exact (List.suffix_cons _ _).trans hs.steps
        · simpa [hp] using hs.applied
      | error e =>
        simp only [settle.go, hp, Bool.false_eq_true, ↓reduceIte, hr]
        refine ⟨[p], rfl, rfl, ?_, List.suffix_rfl, by simpa using hp, by simp, ?_⟩
        · simp only [powers_cons, powers_nil]
          split <;> omega
        · rintro e' ⟨⟩
          exact Operation.perform_error lib hr

theorem settles {next : Option Operator} {x : Float} {w w' : Work} {r : Except Failure Float}
    (h : settle lib next x w = (r, w')) : ∃ applied, Settles next w applied r w' := by
  obtain ⟨applied, hs⟩ := settle_go_settles lib next w x w.pending w.depth w.steps
  have hgo : settle.go lib next w x w.pending w.depth w.steps = (r, w') := h
  rw [hgo] at hs
  exact ⟨applied, hs⟩

theorem settle_depth_le {next : Option Operator} {x : Float} {w w' : Work}
    {r : Except Failure Float} (h : settle lib next x w = (r, w')) : w'.depth ≤ w.depth := by
  obtain ⟨applied, hs⟩ := settles lib h
  rw [hs.depth]
  exact Nat.sub_le _ _

theorem settle_steps {next : Option Operator} {x : Float} {w w' : Work} {r : Except Failure Float}
    (h : settle lib next x w = (r, w')) : w.steps <:+ w'.steps := by
  obtain ⟨applied, hs⟩ := settles lib h
  exact hs.steps

inductive Enters : State → Token → Work → Prop
  | group (w : Work) : Enters ⟨.operand, w⟩ (.symbol '(') (w.enclose none)
  | call (f : Function) (w : Work) : Enters ⟨.argument f, w⟩ (.symbol '(') (w.enclose (some f))
  | power {x y : Float} {w w' : Work} (hs : settle lib (some .pow) x w = (.ok y, w')) :
      Enters ⟨.operated x, w⟩ Operator.pow.token (w'.push y .pow)

inductive Refuses : State → Token → Expected → Work → Prop
  | operand (w : Work) {t : Token} (hk : t.kind ≠ .number ∧ t.kind ≠ .name)
      (ht : t.isSymbol '(' = false) : Refuses ⟨.operand, w⟩ t .operand w
  | argument (f : Function) (w : Work) {t : Token} (ht : t.isSymbol '(' = false) :
      Refuses ⟨.argument f, w⟩ t (.symbol '(') w
  | line {x y : Float} {w w' : Work} {t : Token} (hs : settle lib none x w = (.ok y, w'))
      (ho : t.operator? = none) (ht : t ≠ .eof) (he : w'.enclosing = []) :
      Refuses ⟨.operated x, w⟩ t (.kind .eof) w'
  | group {x y : Float} {w w' : Work} {t : Token} {a : Enclosing} {outer : List Enclosing}
      (hs : settle lib none x w = (.ok y, w')) (ho : t.operator? = none)
      (ht : t.isSymbol ')' = false) (he : w'.enclosing = a :: outer) :
      Refuses ⟨.operated x, w⟩ t (.symbol ')') w'

inductive Moves : State → Token → Move → Prop
  | number (x : Float) (w : Work) : Moves ⟨.operand, w⟩ (.number x) (.shift ⟨.operated x, w⟩)
  | name (f : Function) (w : Work) :
      Moves ⟨.operand, w⟩ (.name f.name) (.shift ⟨.argument f, w⟩)
  | undefined {n : List Char} (w : Work) (hn : Function.ofName? n = none) :
      Moves ⟨.operand, w⟩ (.name n) (.halt (.undefinedFunction n) w false)
  | enter {s : State} {t : Token} {w : Work} (h : Enters lib s t w) (hl : w.depth + 1 ≤ limit) :
      Moves s t (.shift ⟨.operand, w.deeper⟩)
  | tooDeep {s : State} {t : Token} {w : Work} (h : Enters lib s t w) (hl : limit < w.depth + 1) :
      Moves s t (.halt (.nestingTooDeep limit) w.deeper true)
  | operator {x y : Float} {w w' : Work} {op : Operator} (hop : op ≠ .pow)
      (hs : settle lib (some op) x w = (.ok y, w')) :
      Moves ⟨.operated x, w⟩ op.token (.shift ⟨.operand, w'.push y op⟩)
  | fail {x : Float} {w w' : Work} {t : Token} {e : Failure}
      (hs : settle lib t.operator? x w = (.error e, w')) :
      Moves ⟨.operated x, w⟩ t (.halt e w' false)
  | closeGroup {x y : Float} {w w' : Work} {ps : List Pending} {outer : List Enclosing}
      (hs : settle lib none x w = (.ok y, w')) (he : w'.enclosing = ⟨none, ps⟩ :: outer) :
      Moves ⟨.operated x, w⟩ (.symbol ')') (.shift ⟨.operated y, w'.close ps outer⟩)
  | closeCall {x y z : Float} {w w' : Work} {f : Function} {ps : List Pending}
      {outer : List Enclosing} (hs : settle lib none x w = (.ok y, w'))
      (he : w'.enclosing = ⟨some f, ps⟩ :: outer)
      (hp : (Operation.call f y).perform lib = .ok z) :
      Moves ⟨.operated x, w⟩ (.symbol ')')
        (.shift ⟨.operated z, (w'.close ps outer).record [⟨.call f y, z⟩]⟩)
  | failCall {x y : Float} {w w' : Work} {f : Function} {ps : List Pending}
      {outer : List Enclosing} {e : Failure} (hs : settle lib none x w = (.ok y, w'))
      (he : w'.enclosing = ⟨some f, ps⟩ :: outer)
      (hp : (Operation.call f y).perform lib = .error e) :
      Moves ⟨.operated x, w⟩ (.symbol ')') (.halt e (w'.close ps outer) true)
  | refuse {s : State} {t : Token} {expected : Expected} {w : Work}
      (h : Refuses lib s t expected w) : Moves s t (.halt (.unexpected expected t) w false)

theorem Enters.moves {s : State} {t : Token} {w : Work} (h : Enters lib s t w) :
    Moves lib limit s t (Calculator.enter limit w) := by
  unfold Calculator.enter
  by_cases hl : limit < w.depth + 1
  · simp only [hl, ↓reduceIte]
    exact .tooDeep h hl
  · simp only [hl, ↓reduceIte]
    exact .enter h (not_lt.mp hl)

theorem moves_close {x y : Float} {w w' : Work} {t : Token} (ho : t.operator? = none)
    (ht : t ≠ .eof) (hs : settle lib none x w = (.ok y, w')) :
    Moves lib limit ⟨.operated x, w⟩ t (Calculator.close lib y t w') := by
  unfold Calculator.close
  cases he : w'.enclosing with
  | nil => exact .refuse (.line hs ho ht he)
  | cons a outer =>
    by_cases hc : t.isSymbol ')' = true
    · obtain rfl : t = .symbol ')' := by
        cases t <;> simp_all [Token.isSymbol]
      obtain ⟨call, ps⟩ := a
      cases call with
      | none => exact .closeGroup hs he
      | some f =>
        simp only [hc, ↓reduceIte, leave]
        cases hp : (Operation.call f y).perform lib with
        | ok z => exact .closeCall hs he hp
        | error e => exact .failCall hs he hp
    · simp only [hc, Bool.false_eq_true, ↓reduceIte]
      exact .refuse (.group hs ho (by simpa using hc) he)

theorem moves_operand (w : Work) (t : Token) :
    Moves lib limit ⟨.operand, w⟩ t (State.step lib limit ⟨.operand, w⟩ t) := by
  cases t with
  | number x => exact .number x w
  | name n =>
    simp only [State.step]
    cases hn : Function.ofName? n with
    | some f =>
      obtain rfl := Function.eq_name hn
      exact .name f w
    | none => exact .undefined w hn
  | symbol c =>
    by_cases hc : c = '('
    · subst hc
      exact (Enters.group w).moves lib limit
    · simp only [State.step]
      split
      · next h => simp at h
      · next h => simp at h
      · next h => simp_all
      · exact .refuse (.operand w (by simp [Token.kind]) (by simpa [Token.isSymbol] using hc))
  | comma => exact .refuse (.operand w (by simp [Token.kind]) rfl)
  | eof => exact .refuse (.operand w (by simp [Token.kind]) rfl)

theorem moves_argument (f : Function) (w : Work) (t : Token) :
    Moves lib limit ⟨.argument f, w⟩ t (State.step lib limit ⟨.argument f, w⟩ t) := by
  simp only [State.step]
  by_cases hc : t.isSymbol '(' = true
  · obtain rfl : t = .symbol '(' := by
      cases t <;> simp_all [Token.isSymbol]
    exact (Enters.call f w).moves lib limit
  · rw [if_neg hc]
    exact .refuse (.argument f w (by simpa using hc))

theorem moves_operated (x : Float) (w : Work) {t : Token} (ht : t ≠ .eof) :
    Moves lib limit ⟨.operated x, w⟩ t (State.step lib limit ⟨.operated x, w⟩ t) := by
  simp only [State.step]
  cases hs : settle lib t.operator? x w with
  | mk r w' =>
    cases r with
    | error e => exact .fail hs
    | ok y =>
      cases ho : t.operator? with
      | none =>
        rw [ho] at hs
        exact moves_close lib limit ho ht hs
      | some op =>
        obtain rfl := Token.eq_token ho
        rw [ho] at hs
        by_cases hop : op = .pow
        · subst hop
          exact (Enters.power hs).moves lib limit
        · simp only [hop, ↓reduceIte]
          exact .operator hop hs

theorem moves (s : State) {t : Token} (ht : t ≠ .eof) :
    Moves lib limit s t (s.step lib limit t) := by
  rcases s with ⟨stage, w⟩
  cases stage with
  | operand => exact moves_operand lib limit w t
  | argument f => exact moves_argument lib limit f w t
  | operated x => exact moves_operated lib limit x w ht

inductive Runs : State → List Token → State → Prop
  | refl (s : State) : Runs s [] s
  | shift {s s' s'' : State} {t : Token} {ts : List Token} (ht : t ≠ .eof)
      (hm : Moves lib limit s t (.shift s')) (hr : Runs s' ts s'') : Runs s (t :: ts) s''

/-- The state after tokens before the end of the line, if none of them ends the reading. -/
def State.after (s : State) : List Token → Option State
  | [] => some s
  | .eof :: _ => none
  | t :: ts =>
    match s.step lib limit t with
    | .shift next => next.after ts
    | .halt _ _ _ => none

theorem runs_of_after {s s' : State} {us : List Token} (h : s.after lib limit us = some s') :
    Runs lib limit s us s' := by
  induction us generalizing s with
  | nil =>
    obtain rfl : s = s' := Option.some.inj h
    exact .refl s
  | cons t ts ih =>
    by_cases ht : t = .eof
    · subst ht
      cases h
    · have hm := moves lib limit s ht
      cases hstep : s.step lib limit t with
      | halt e w consumed =>
        rw [State.after, hstep] at h
        · cases h
        · exact ht
      | shift next =>
        rw [hstep] at hm
        rw [State.after, hstep] at h
        · exact .shift ht hm (ih h)
        · exact ht

inductive Stops : State → List Token → Reading → Prop
  | value {x y : Float} {w w' : Work} {ts : List Token} (hts : ts.headD .eof = .eof)
      (hs : settle lib none x w = (.ok y, w')) (he : w'.enclosing = []) :
      Stops ⟨.operated x, w⟩ ts (.ofHalt (.ok y) w' ts)
  | endRefused {s : State} {ts : List Token} {expected : Expected} {w : Work}
      (hts : ts.headD .eof = .eof) (h : Refuses lib s .eof expected w) :
      Stops s ts (.ofHalt (.error (.unexpected expected .eof)) w ts)
  | endFailed {x : Float} {w w' : Work} {ts : List Token} {e : Failure}
      (hts : ts.headD .eof = .eof) (hs : settle lib none x w = (.error e, w')) :
      Stops ⟨.operated x, w⟩ ts (.ofHalt (.error e) w' ts)
  | halt {s : State} {t : Token} {ts : List Token} {e : Failure} {w : Work} {consumed : Bool}
      (ht : t ≠ .eof) (hm : Moves lib limit s t (.halt e w consumed)) :
      Stops s (t :: ts) (.ofHalt (.error e) w (if consumed then ts else t :: ts))

theorem State.run_end {ts : List Token} (h : ts.headD .eof = .eof) (s : State) :
    s.run lib limit ts = .ofHalt (s.finish lib).1 (s.finish lib).2 ts := by
  cases ts with
  | nil => rfl
  | cons t ts =>
    obtain rfl : t = .eof := h
    rfl

theorem State.run_cons {t : Token} (ht : t ≠ .eof) (ts : List Token) (s : State) :
    s.run lib limit (t :: ts) =
      match s.step lib limit t with
      | .halt e w consumed => .ofHalt (.error e) w (if consumed then ts else t :: ts)
      | .shift next => next.run lib limit ts := by
  cases t with
  | eof => exact absurd rfl ht
  | _ => rfl

theorem end_or_cons (ts : List Token) :
    ts.headD .eof = .eof ∨ ∃ t us, t ≠ .eof ∧ ts = t :: us := by
  cases ts with
  | nil => exact .inl rfl
  | cons t us =>
    by_cases ht : t = .eof
    · exact .inl ht
    · exact .inr ⟨t, us, ht, rfl⟩

/-- Reading goes on token by token until the tokens that are left begin with the end. -/
@[elab_as_elim]
theorem line_induction {motive : List Token → Prop}
    (ended : ∀ ts, ts.headD .eof = .eof → motive ts)
    (token : ∀ t ts, t ≠ .eof → motive ts → motive (t :: ts)) (ts : List Token) : motive ts := by
  induction ts with
  | nil => exact ended [] rfl
  | cons t ts ih =>
    by_cases ht : t = .eof
    · exact ended (t :: ts) ht
    · exact token t ts ht ih

theorem stops_end {ts : List Token} (hts : ts.headD .eof = .eof) (s : State) :
    Stops lib limit s ts (s.run lib limit ts) := by
  rw [State.run_end lib limit hts]
  rcases s with ⟨stage, w⟩
  cases stage with
  | operand => exact .endRefused hts (.operand w (by simp [Token.kind]) rfl)
  | argument f => exact .endRefused hts (.argument f w rfl)
  | operated x =>
    simp only [State.finish]
    cases hs : settle lib none x w with
    | mk r w' =>
      cases r with
      | error e => exact .endFailed hts hs
      | ok y =>
        cases he : w'.enclosing with
        | nil => simpa [he] using Stops.value hts hs he
        | cons a outer => simpa [he] using Stops.endRefused hts (.group hs rfl rfl he)

/-- Reading passes through some states and stops in the last one. -/
theorem exists_runs (s : State) (ts : List Token) :
    ∃ us rest s', ts = us ++ rest ∧ Runs lib limit s us s' ∧
      Stops lib limit s' rest (s.run lib limit ts) := by
  induction ts using line_induction generalizing s with
  | ended ts hts => exact ⟨[], ts, s, rfl, .refl s, stops_end lib limit hts s⟩
  | token t ts ht ih =>
    rw [State.run_cons lib limit ht]
    have hm := moves lib limit s ht
    cases hstep : s.step lib limit t with
    | halt e w consumed =>
      rw [hstep] at hm
      exact ⟨[], t :: ts, s, rfl, .refl s, .halt ht hm⟩
    | shift next =>
      rw [hstep] at hm
      obtain ⟨us, rest, s', rfl, hr, hs⟩ := ih next
      exact ⟨t :: us, rest, s', rfl, .shift ht hm hr, hs⟩

theorem Runs.ne_eof {s s' : State} {us : List Token} (h : Runs lib limit s us s') :
    ∀ t ∈ us, t ≠ .eof := by
  induction h with
  | refl s => simp
  | shift ht hm hr ih => simpa [ht] using ih

/-! The converse: each of these moves is the one that the reader makes. -/

theorem Enters.step_eq {s : State} {t : Token} {w : Work} (h : Enters lib s t w) :
    s.step lib limit t = Calculator.enter limit w := by
  cases h with
  | group w => rfl
  | call f w => rfl
  | power hs => simp [State.step, hs, Work.push]

theorem Refuses.step_eq {s : State} {t : Token} {expected : Expected} {w : Work}
    (h : Refuses lib s t expected w) :
    s.step lib limit t = .halt (.unexpected expected t) w false := by
  cases h with
  | operand w hk ht =>
    cases t with
    | symbol c =>
      simp only [Token.isSymbol, beq_eq_false_iff_ne] at ht
      simp only [State.step]
      split <;> simp_all
    | number x => simp [Token.kind] at hk
    | name n => simp [Token.kind] at hk
    | comma => rfl
    | eof => rfl
  | argument f w ht => simp [State.step, ht]
  | line hs ho ht he => simp [State.step, ho, hs, close, he]
  | group hs ho ht he => simp [State.step, ho, hs, close, he, ht]

theorem Moves.step_eq {s : State} {t : Token} {m : Move} (h : Moves lib limit s t m) :
    s.step lib limit t = m := by
  cases h with
  | number x w => rfl
  | name f w => cases f <;> rfl
  | undefined w hn => simp [State.step, hn]
  | enter h hl =>
    rw [h.step_eq, Calculator.enter]
    simp [Work.deeper, Nat.not_lt.mpr hl]
  | tooDeep h hl =>
    rw [h.step_eq, Calculator.enter]
    simp [Work.deeper, hl]
  | operator hop hs => simp [State.step, hs, hop, Work.push]
  | fail hs => simp [State.step, hs]
  | closeGroup hs he =>
    have ho : Token.operator? (.symbol ')') = none := rfl
    simp [State.step, ho, hs, close, he, leave, Token.isSymbol, Work.close]
  | closeCall hs he hp =>
    have ho : Token.operator? (.symbol ')') = none := rfl
    simp [State.step, ho, hs, close, he, leave, Token.isSymbol, hp, Work.close, Work.record]
  | failCall hs he hp =>
    have ho : Token.operator? (.symbol ')') = none := rfl
    simp [State.step, ho, hs, close, he, leave, Token.isSymbol, hp, Work.close]
  | refuse h => exact Refuses.step_eq lib limit h

theorem Runs.run_eq {s s' : State} {us : List Token} (h : Runs lib limit s us s')
    (rest : List Token) : s.run lib limit (us ++ rest) = s'.run lib limit rest := by
  induction h with
  | refl s => rfl
  | shift ht hm hr ih =>
    rw [List.cons_append, State.run_cons lib limit ht, hm.step_eq]
    exact ih

theorem Refuses.finish_eq {s : State} {expected : Expected} {w : Work}
    (h : Refuses lib s .eof expected w) :
    s.finish lib = (.error (.unexpected expected .eof), w) := by
  cases h with
  | operand w hk ht => rfl
  | argument f w ht => rfl
  | line hs ho ht he => exact absurd rfl ht
  | group hs ho ht he => simp [State.finish, hs, he]

theorem Stops.run_eq {s : State} {ts : List Token} {r : Reading} (h : Stops lib limit s ts r) :
    s.run lib limit ts = r := by
  cases h with
  | value hts hs he =>
    rw [State.run_end lib limit hts]
    simp [State.finish, hs, he]
  | endRefused hts h => rw [State.run_end lib limit hts, h.finish_eq]
  | endFailed hts hs =>
    rw [State.run_end lib limit hts]
    simp [State.finish, hs]
  | halt ht hm => rw [State.run_cons lib limit ht, hm.step_eq]

end

end Calculator
