import Calculator.Evaluation
import Calculator.Proofs.Move

/-! # Observed evaluations

An observer is told of every step as it is taken, over any number of lines.  Reading neither looks
at the steps taken before nor at what the observer keeps of them.
-/
namespace Calculator

/-- What is known of the evaluations so far: the trace, which may keep the steps, and the log, which
reports all of them. -/
structure Observer where
  trace : Trace
  log : List Log.Record := []

namespace Observer

def say (o : Observer) (records : List Log.Record) : Observer :=
  { o with log := o.log ++ records }

def hear (o : Observer) (s : Step) : Observer :=
  { trace := o.trace.record [s], log := o.log ++ [Log.ofStep s] }

end Observer

def State.silent (s : State) : State := { s with work := { s.work with steps := [] } }

/-- Reads to the end of the line and hands the steps over with every token, so that none of them is
there when reading goes on. -/
def State.observe (lib : Elementary) (limit : Nat) (s : State) (o : Observer) :
    List Token → Except Failure Float × Observer
  | [] =>
    let (result, work) := s.finish lib
    (result, work.steps.reverse.foldl Observer.hear o)
  | .eof :: _ =>
    let (result, work) := s.finish lib
    (result, work.steps.reverse.foldl Observer.hear o)
  | t :: ts =>
    match s.step lib limit t with
    | .halt e work _ => (.error e, work.steps.reverse.foldl Observer.hear o)
    | .shift next => next.silent.observe lib limit (next.work.steps.reverse.foldl Observer.hear o) ts

def Config.observe (config : Config) (line : List Char) (o : Observer) :
    Except Failure Float × Observer :=
  let o := o.say (Log.ofScan line (Scan.ofText line))
  let (result, o) : Except Failure Float × Observer :=
    match tokenize line with
    | .error e => (.error e, o)
    | .ok tokens => State.observe config.elementary config.maxDepth {} o tokens
  (result, o.say [Log.ofResult line result])

def Config.observeEach (config : Config) :
    List (List Char) → Observer → List (Except Failure Float) × Observer
  | [], o => ([], o)
  | line :: lines, o =>
    let (result, o) := config.observe line o
    let (results, o) := config.observeEach lines o
    (result :: results, o)

def Config.evaluateEach (config : Config) :
    List (List Char) → Trace → List Evaluation × Trace
  | [], trace => ([], trace)
  | line :: lines, trace =>
    let (evaluation, trace) := config.evaluateWith line trace
    let (evaluations, trace) := config.evaluateEach lines trace
    (evaluation :: evaluations, trace)

/-! ## Steps taken before -/

section
variable (ss : List Step)

def Work.onto (w : Work) : Work := { w with steps := w.steps ++ ss }

def State.onto (s : State) : State := { s with work := s.work.onto ss }

def Move.onto : Move → Move
  | .shift s => .shift (s.onto ss)
  | .halt e w consumed => .halt e (w.onto ss) consumed

variable (lib : Elementary) (limit : Nat)

theorem settle_go_onto (next : Option Operator) (w : Work) (x : Float) (ps : List Pending)
    (depth : Nat) (steps : List Step) :
    settle.go lib next (w.onto ss) x ps depth (steps ++ ss) =
      ((settle.go lib next w x ps depth steps).1,
        (settle.go lib next w x ps depth steps).2.onto ss) := by
  induction ps generalizing x depth steps with
  | nil => rfl
  | cons p ps ih =>
    simp only [settle.go]
    split
    · rfl
    · cases (Operation.binary p.left p.op x).perform lib with
      | ok r => exact ih r _ (⟨.binary p.left p.op x, r⟩ :: steps)
      | error e => rfl

theorem settle_onto {next : Option Operator} {x : Float} {w w' : Work} {r : Except Failure Float}
    (h : settle lib next x w = (r, w')) : settle lib next x (w.onto ss) = (r, w'.onto ss) := by
  have hgo := settle_go_onto ss lib next w x w.pending w.depth w.steps
  have hset : settle.go lib next w x w.pending w.depth w.steps = (r, w') := h
  rw [hset] at hgo
  exact hgo

theorem Enters.onto {s : State} {t : Token} {w : Work} (h : Enters lib s t w) :
    Enters lib (s.onto ss) t (w.onto ss) := by
  cases h with
  | group w => exact .group (w.onto ss)
  | call f w => exact .call f (w.onto ss)
  | power hs => exact .power (settle_onto ss lib hs)

theorem Refuses.onto {s : State} {t : Token} {expected : Expected} {w : Work}
    (h : Refuses lib s t expected w) : Refuses lib (s.onto ss) t expected (w.onto ss) := by
  cases h with
  | operand w hk ht => exact .operand (w.onto ss) hk ht
  | argument f w ht => exact .argument f (w.onto ss) ht
  | line hs ho ht he => exact .line (settle_onto ss lib hs) ho ht he
  | group hs ho ht he => exact .group (settle_onto ss lib hs) ho ht he

theorem Moves.onto {s : State} {t : Token} {m : Move} (h : Moves lib limit s t m) :
    Moves lib limit (s.onto ss) t (m.onto ss) := by
  cases h with
  | number x w => exact .number x (w.onto ss)
  | name f w => exact .name f (w.onto ss)
  | undefined w hn => exact .undefined (w.onto ss) hn
  | enter h hl => exact .enter (h.onto ss lib) hl
  | tooDeep h hl => exact .tooDeep (h.onto ss lib) hl
  | operator hop hs => exact .operator hop (settle_onto ss lib hs)
  | fail hs => exact .fail (settle_onto ss lib hs)
  | closeGroup hs he => exact .closeGroup (settle_onto ss lib hs) he
  | closeCall hs he hp => exact .closeCall (settle_onto ss lib hs) he hp
  | failCall hs he hp => exact .failCall (settle_onto ss lib hs) he hp
  | refuse h => exact .refuse (h.onto ss lib)

/-- A token makes the same move whatever steps were taken before, and puts its own on top. -/
theorem State.step_onto {t : Token} (ht : t ≠ .eof) (s : State) :
    (s.onto ss).step lib limit t = (s.step lib limit t).onto ss :=
  ((moves lib limit s ht).onto ss lib limit).step_eq lib limit

theorem State.finish_onto (s : State) :
    (s.onto ss).finish lib = ((s.finish lib).1, (s.finish lib).2.onto ss) := by
  rcases s with ⟨stage, w⟩
  cases stage with
  | operand => rfl
  | argument f => rfl
  | operated x =>
    simp only [State.finish, State.onto]
    cases hs : settle lib none x w with
    | mk r w' =>
      rw [settle_onto ss lib hs]
      cases r with
      | error e => rfl
      | ok y =>
        by_cases he : w'.enclosing.isEmpty = true
        · simp [Work.onto, he]
        · simp [Work.onto, he]

/-- Reading goes the same way whatever steps were taken before. -/
theorem State.run_onto (s : State) (ts : List Token) :
    (s.onto ss).run lib limit ts =
      { s.run lib limit ts with steps := ss.reverse ++ (s.run lib limit ts).steps } := by
  have hhalt (result : Except Failure Float) (w : Work) (rest : List Token) :
      Reading.ofHalt result (w.onto ss) rest =
        { Reading.ofHalt result w rest with
          steps := ss.reverse ++ (Reading.ofHalt result w rest).steps } := by
    simp [Reading.ofHalt, Work.onto]
  induction ts using line_induction generalizing s with
  | ended ts hts =>
    rw [State.run_end lib limit hts, State.run_end lib limit hts, State.finish_onto, hhalt]
  | token t ts ht ih =>
    rw [State.run_cons lib limit ht, State.run_cons lib limit ht, State.step_onto ss lib limit ht]
    cases s.step lib limit t with
    | halt e w consumed => exact hhalt _ _ _
    | shift next => exact ih next

end

/-! ## What an observer is told -/

theorem Trace.record_nil (trace : Trace) : trace.record [] = trace := by
  cases trace
  simp [Trace.record]

theorem Trace.record_append (trace : Trace) (ss ss' : List Step) :
    trace.record (ss ++ ss') = (trace.record ss).record ss' := by
  cases hd : trace.detailed <;> simp [Trace.record, hd]

/-- A trace that keeps no steps stays as it is. -/
theorem Trace.record_eq_self {trace : Trace} (h : trace.detailed = false) (ss : List Step) :
    trace.record ss = trace := by
  simp [Trace.record, h]

theorem foldl_hear (ss : List Step) (o : Observer) :
    ss.foldl Observer.hear o = ⟨o.trace.record ss, o.log ++ ss.map Log.ofStep⟩ := by
  induction ss generalizing o with
  | nil => simp [Trace.record_nil]
  | cons s ss ih =>
    rw [List.foldl_cons, ih, List.map_cons, ← List.singleton_append, Trace.record_append]
    simp [Observer.hear]

section
variable (lib : Elementary) (limit : Nat)

theorem State.observe_end {ts : List Token} (h : ts.headD .eof = .eof) (s : State) (o : Observer) :
    s.observe lib limit o ts =
      ((s.finish lib).1, (s.finish lib).2.steps.reverse.foldl Observer.hear o) := by
  cases ts with
  | nil => rfl
  | cons t ts =>
    obtain rfl : t = .eof := h
    rfl

theorem State.observe_cons {t : Token} (ht : t ≠ .eof) (ts : List Token) (s : State)
    (o : Observer) :
    s.observe lib limit o (t :: ts) =
      match s.step lib limit t with
      | .halt e work _ => (.error e, work.steps.reverse.foldl Observer.hear o)
      | .shift next =>
        next.silent.observe lib limit (next.work.steps.reverse.foldl Observer.hear o) ts := by
  cases t with
  | eof => exact absurd rfl ht
  | _ => rfl

theorem State.silent_onto (s : State) : s.silent.onto s.work.steps = s := rfl

/-- The steps that are handed over on the way are those of the whole reading, in order, and the
result is the same. -/
theorem State.observe_eq (s : State) (o : Observer) (ts : List Token) :
    s.silent.observe lib limit o ts =
      ((s.silent.run lib limit ts).result,
        (s.silent.run lib limit ts).steps.foldl Observer.hear o) := by
  induction ts using line_induction generalizing s o with
  | ended ts hts =>
    rw [State.observe_end lib limit hts, State.run_end lib limit hts]
    rfl
  | token t ts ht ih =>
    rw [State.observe_cons lib limit ht, State.run_cons lib limit ht]
    cases s.silent.step lib limit t with
    | halt e w consumed => rfl
    | shift next =>
      have hrun := State.run_onto next.work.steps lib limit next.silent ts
      rw [State.silent_onto] at hrun
      simp only [ih, hrun, List.foldl_append]

end

section
variable (config : Config)

/-- Before an observer a line has the result it has alone, and the observer learns of its steps
what a trace and the log would. -/
theorem observe_eq_evaluateWith (line : List Char) (o : Observer) :
    config.observe line o =
      ((config.evaluateWith line o.trace).1.result,
        ⟨(config.evaluateWith line o.trace).2,
          o.log ++ (config.evaluateWith line o.trace).1.log⟩) := by
  have hread (o : Observer) (tokens : List Token) :
      State.observe config.elementary config.maxDepth {} o tokens =
        ((config.read { tokens }).result,
          (config.read { tokens }).steps.foldl Observer.hear o) :=
    State.observe_eq config.elementary config.maxDepth {} o tokens
  simp only [Config.observe, Config.evaluateWith, Config.evaluate, Evaluation.log]
  cases tokenize line with
  | error e => simp [Observer.say, Trace.record_nil]
  | ok tokens => simp [hread, foldl_hear, Observer.say]

theorem observeEach_eq (lines : List (List Char)) (o : Observer) :
    config.observeEach lines o =
      ((config.evaluateEach lines o.trace).1.map Evaluation.result,
        ⟨(config.evaluateEach lines o.trace).2,
          o.log ++ (config.evaluateEach lines o.trace).1.flatMap Evaluation.log⟩) := by
  induction lines generalizing o with
  | nil => simp [Config.observeEach, Config.evaluateEach]
  | cons line lines ih =>
    simp [Config.observeEach, Config.evaluateEach, observe_eq_evaluateWith, ih]

def Config.stepsAlone (line : List Char) : List Step :=
  (config.evaluateWith line { detailed := true }).2.steps

theorem stepsAlone_eq (line : List Char) :
    config.stepsAlone line = (config.evaluate line).steps := rfl

theorem evaluateEach_eq (lines : List (List Char)) (trace : Trace) :
    config.evaluateEach lines trace =
      (lines.map config.evaluate, trace.record (lines.flatMap config.stepsAlone)) := by
  induction lines generalizing trace with
  | nil => simp [Config.evaluateEach, Trace.record_nil]
  | cons line lines ih =>
    simp [Config.evaluateEach, Config.evaluateWith, ih, stepsAlone_eq, Trace.record_append]

end

/-- A trace only observes.  Lines that are evaluated one after the other with one trace have the
results they have without any, and after each of them the trace is the one before with the steps
that the line records alone appended, those before its failure if it fails; a trace that is not
detailed stays as it is.  Telling the steps one by one as they are taken comes to the same, and the
log reports them all whatever the trace keeps. -/
theorem trace_observes (config : Config) (lines : List (List Char)) (o : Observer) :
    let evaluations := (config.evaluateEach lines o.trace).1
    let after (lines : List (List Char)) := (config.evaluateEach lines o.trace).2
    evaluations = lines.map config.evaluate ∧
    (∀ before line,
      (after (before ++ [line])).detailed = (after before).detailed ∧
      (after (before ++ [line])).steps = (after before).steps ++
        if o.trace.detailed then config.stepsAlone line else []) ∧
    (after lines).steps =
      o.trace.steps ++ (if o.trace.detailed then lines.flatMap config.stepsAlone else []) ∧
    (o.trace.detailed = false → after lines = o.trace) ∧
    config.observeEach lines o = (evaluations.map Evaluation.result,
      ⟨after lines, o.log ++ evaluations.flatMap Evaluation.log⟩) ∧
    ∀ trace : Trace, (config.observeEach lines { o with trace }).2.log =
      (config.observeEach lines o).2.log := by
  intro evaluations after
  have hafter (lines : List (List Char)) :
      after lines = o.trace.record (lines.flatMap config.stepsAlone) := by
    simp only [after, evaluateEach_eq]
  have hsteps (ss : List Step) : (o.trace.record ss).detailed = o.trace.detailed ∧
      (o.trace.record ss).steps = o.trace.steps ++ if o.trace.detailed then ss else [] := by
    cases hd : o.trace.detailed <;> simp [Trace.record, hd]
  refine ⟨?_, ?_, ?_, ?_, observeEach_eq config lines o, ?_⟩
  · simp only [evaluations, evaluateEach_eq]
  · intro before line
    rw [hafter, hafter, (hsteps _).1, (hsteps _).1, (hsteps _).2, (hsteps _).2]
    refine ⟨rfl, ?_⟩
    cases o.trace.detailed <;> simp
  · rw [hafter, (hsteps _).2]
  · intro hd
    rw [hafter, Trace.record_eq_self hd]
  · intro trace
    simp only [observeEach_eq, evaluateEach_eq]

end Calculator
