import Calculator.Evaluation
import Calculator.Proofs.Cutting
import Calculator.Proofs.Move

/-! # The steps of an evaluation

Every step that is taken is an operation with its result, and its operands are numbers of the line
or results of earlier steps.  So whatever operations preserve holds of all numbers of a reading.
No operation makes a NaN out of other numbers, and no line contains one.
-/
namespace Calculator

def Enclosing.Holds (p : Float → Prop) (a : Enclosing) : Prop := ∀ q ∈ a.pending, p q.left

section
variable (lib : Elementary) (p : Float → Prop)

structure Step.Taken (s : Step) : Prop where
  performed : s.operation.perform lib = .ok s.result
  operands : ∀ x ∈ s.operation.operands, p x
  result : p s.result

structure Work.Holds (w : Work) : Prop where
  pending : ∀ q ∈ w.pending, p q.left
  enclosing : ∀ a ∈ w.enclosing, a.Holds p
  steps : ∀ s ∈ w.steps, s.Taken lib p

def Preserves : Prop :=
  ∀ (o : Operation) (r : Float), (∀ x ∈ o.operands, p x) → o.perform lib = .ok r → p r

structure State.Holds (s : State) : Prop where
  value : ∀ x, s.stage = .operated x → p x
  work : s.work.Holds lib p

variable {lib p}

theorem Preserves.taken (hp : Preserves lib p) {o : Operation} {r : Float}
    (ho : ∀ x ∈ o.operands, p x) (hr : o.perform lib = .ok r) : Step.Taken lib p ⟨o, r⟩ :=
  ⟨hr, ho, hp o r ho hr⟩

theorem settle_go_holds (hp : Preserves lib p) (next : Option Operator) (w : Work) (x : Float)
    (ps : List Pending) (depth : Nat) (steps : List Step) (hx : p x)
    (hw : ({ w with pending := ps, depth, steps } : Work).Holds lib p) :
    (settle.go lib next w x ps depth steps).2.Holds lib p ∧
      ∀ y, (settle.go lib next w x ps depth steps).1 = .ok y → p y := by
  -- The right operand is the value so far: at first `x`, then the result of the last operation.
  induction ps generalizing x depth steps with
  | nil =>
    refine ⟨hw, fun y hy => ?_⟩
    cases hy
    exact hx
  | cons q ps ih =>
    have hleft := hw.pending q List.mem_cons_self
    have hps (q' : Pending) (hq' : q' ∈ ps) := hw.pending q' (List.mem_cons_of_mem q hq')
    simp only [settle.go]
    split
    · refine ⟨hw, fun y hy => ?_⟩
      cases hy
      exact hx
    · split
      · next r hr =>
        have ho : ∀ y ∈ (Operation.binary q.left q.op x).operands, p y := by
          simp [Operation.operands, hleft, hx]
        have htaken := hp.taken ho hr
        refine ih r _ _ htaken.result ⟨hps, hw.enclosing, ?_⟩
        intro s hs
        rcases List.mem_cons.mp hs with rfl | hs
        · exact htaken
        · exact hw.steps s hs
      · exact ⟨⟨hps, hw.enclosing, hw.steps⟩, by simp⟩

theorem settle_holds (hp : Preserves lib p) {next : Option Operator} {x : Float} {w w' : Work}
    {r : Except Failure Float} (hx : p x) (hw : w.Holds lib p)
    (h : settle lib next x w = (r, w')) : w'.Holds lib p ∧ ∀ y, r = .ok y → p y := by
  have hgo := settle_go_holds hp next w x w.pending w.depth w.steps hx hw
  have hsettle : settle.go lib next w x w.pending w.depth w.steps = (r, w') := h
  rwa [hsettle] at hgo

theorem Work.Holds.enclose {w : Work} (hw : w.Holds lib p) (call : Option Function) :
    (w.enclose call).Holds lib p := by
  refine ⟨by simp [Work.enclose], ?_, hw.steps⟩
  intro a ha
  rcases List.mem_cons.mp ha with rfl | ha
  · exact hw.pending
  · exact hw.enclosing a ha

theorem Work.Holds.deeper {w : Work} (hw : w.Holds lib p) : w.deeper.Holds lib p :=
  ⟨hw.pending, hw.enclosing, hw.steps⟩

theorem Work.Holds.push {w : Work} (hw : w.Holds lib p) {x : Float} (hx : p x) (op : Operator) :
    (w.push x op).Holds lib p := by
  refine ⟨?_, hw.enclosing, hw.steps⟩
  intro q hq
  rcases List.mem_cons.mp hq with rfl | hq
  · exact hx
  · exact hw.pending q hq

theorem Work.Holds.close {w : Work} (hw : w.Holds lib p) {call : Option Function}
    {ps : List Pending} {outer : List Enclosing} (he : w.enclosing = ⟨call, ps⟩ :: outer) :
    (w.close ps outer).Holds lib p := by
  have henclosing := hw.enclosing
  rw [he] at henclosing
  exact ⟨henclosing _ List.mem_cons_self,
    fun a ha => henclosing a (List.mem_cons_of_mem _ ha), hw.steps⟩

theorem Work.Holds.record {w : Work} (hw : w.Holds lib p) {s : Step} (hs : s.Taken lib p) :
    (w.record [s]).Holds lib p := by
  refine ⟨hw.pending, hw.enclosing, ?_⟩
  intro s' hs'
  rcases List.mem_cons.mp hs' with rfl | hs'
  · exact hs
  · exact hw.steps s' hs'

theorem Enters.holds (hp : Preserves lib p) {s : State} {t : Token} {w : Work}
    (h : Enters lib s t w) (hs : s.Holds lib p) : w.Holds lib p := by
  cases h with
  | group w => exact hs.work.enclose none
  | call f w => exact hs.work.enclose (some f)
  | power hsettle =>
    obtain ⟨hw, hy⟩ := settle_holds hp (hs.value _ rfl) hs.work hsettle
    exact hw.push (hy _ rfl) .pow

theorem Refuses.holds (hp : Preserves lib p) {s : State} {t : Token} {expected : Expected}
    {w : Work} (h : Refuses lib s t expected w) (hs : s.Holds lib p) : w.Holds lib p := by
  cases h with
  | operand w hk ht => exact hs.work
  | argument f w ht => exact hs.work
  | line hsettle ho ht he => exact (settle_holds hp (hs.value _ rfl) hs.work hsettle).1
  | group hsettle ho ht he => exact (settle_holds hp (hs.value _ rfl) hs.work hsettle).1

def Move.Holds (lib : Elementary) (p : Float → Prop) : Move → Prop
  | .shift next => next.Holds lib p
  | .halt _ w _ => w.Holds lib p

theorem holds_operand {w : Work} (hw : w.Holds lib p) : State.Holds lib p ⟨.operand, w⟩ :=
  ⟨by simp, hw⟩

theorem holds_operated {w : Work} {x : Float} (hw : w.Holds lib p) (hx : p x) :
    State.Holds lib p ⟨.operated x, w⟩ := by
  refine ⟨fun y hy => ?_, hw⟩
  cases hy
  exact hx

theorem Moves.holds (hp : Preserves lib p) {limit : Nat} {s : State} {t : Token} {m : Move}
    (h : Moves lib limit s t m) (ht : ∀ x, t = .number x → p x) (hs : s.Holds lib p) :
    m.Holds lib p := by
  cases h with
  | number x w => exact holds_operated hs.work (ht x rfl)
  | name f w => exact ⟨by simp, hs.work⟩
  | undefined w hn => exact hs.work
  | enter h hl => exact holds_operand (h.holds hp hs).deeper
  | tooDeep h hl => exact (h.holds hp hs).deeper
  | operator hop hsettle =>
    obtain ⟨hw, hy⟩ := settle_holds hp (hs.value _ rfl) hs.work hsettle
    exact holds_operand (hw.push (hy _ rfl) _)
  | fail hsettle => exact (settle_holds hp (hs.value _ rfl) hs.work hsettle).1
  | closeGroup hsettle he =>
    obtain ⟨hw, hy⟩ := settle_holds hp (hs.value _ rfl) hs.work hsettle
    exact holds_operated (hw.close he) (hy _ rfl)
  | @closeCall x y z w w' f ps outer hsettle he hperform =>
    obtain ⟨hw, hy⟩ := settle_holds hp (hs.value _ rfl) hs.work hsettle
    have ho : ∀ a ∈ (Operation.call f y).operands, p a := by
      simpa [Operation.operands] using hy y rfl
    have htaken := hp.taken ho hperform
    exact holds_operated ((hw.close he).record htaken) htaken.result
  | failCall hsettle he hperform =>
    exact (settle_holds hp (hs.value _ rfl) hs.work hsettle).1.close he
  | refuse h => exact h.holds hp hs

theorem Runs.holds (hp : Preserves lib p) {limit : Nat} {s s' : State} {ts : List Token}
    (h : Runs lib limit s ts s') (hts : ∀ x, .number x ∈ ts → p x) (hs : s.Holds lib p) :
    s'.Holds lib p := by
  induction h with
  | refl s => exact hs
  | shift ht hm hr ih =>
    apply ih fun x hx => hts x (List.mem_cons_of_mem _ hx)
    exact hm.holds hp (fun x hx => hts x (hx ▸ List.mem_cons_self)) hs

structure Reading.Holds (lib : Elementary) (p : Float → Prop) (r : Reading) : Prop where
  value : ∀ x, r.result = .ok x → p x
  steps : ∀ s ∈ r.steps, s.Taken lib p

theorem holds_ofHalt {w : Work} (hw : w.Holds lib p) {result : Except Failure Float}
    (hr : ∀ x, result = .ok x → p x) (ts : List Token) :
    (Reading.ofHalt result w ts).Holds lib p :=
  ⟨hr, fun s hs => hw.steps s (List.mem_reverse.mp hs)⟩

theorem Stops.holds (hp : Preserves lib p) {limit : Nat} {s : State} {ts : List Token}
    {r : Reading} (h : Stops lib limit s ts r) (hts : ∀ x, .number x ∈ ts → p x)
    (hs : s.Holds lib p) : r.Holds lib p := by
  cases h with
  | value hend hsettle he =>
    obtain ⟨hw, hy⟩ := settle_holds hp (hs.value _ rfl) hs.work hsettle
    exact holds_ofHalt hw hy _
  | endRefused hend h => exact holds_ofHalt (h.holds hp hs) (by simp) _
  | endFailed hend hsettle =>
    obtain ⟨hw, hy⟩ := settle_holds hp (hs.value _ rfl) hs.work hsettle
    exact holds_ofHalt hw hy _
  | halt ht hm =>
    have hw := hm.holds hp (fun x hx => hts x (hx ▸ List.mem_cons_self)) hs
    exact holds_ofHalt hw (by simp) _

/-- What holds of the numbers that are read and is preserved by the operations holds of all numbers
of the reading. -/
theorem Reader.read_holds (hp : Preserves lib p) (limit : Nat) (r : Reader)
    (hr : ∀ x, .number x ∈ r.tokens → p x) : (r.read lib limit).Holds lib p := by
  obtain ⟨us, rest, s', hts, hruns, hstops⟩ :=
    exists_runs lib limit { work := { depth := r.depth } } r.tokens
  have hinitial : State.Holds lib p { work := { depth := r.depth } } :=
    holds_operand ⟨by simp, by simp, by simp⟩
  have hs' := hruns.holds hp (fun x hx => hr x (hts ▸ List.mem_append_left _ hx)) hinitial
  exact hstops.holds hp (fun x hx => hr x (hts ▸ List.mem_append_right _ hx)) hs'

end

theorem Operation.perform_eq_ok_iff {lib : Elementary} {o : Operation} {r : Float} :
    o.perform lib = .ok r ↔ o.refusal? = none ∧ o.value lib = r ∧
      (r.isNaN && o.operands.all (!·.isNaN)) = false ∧ o.overflows r = false := by
  simp only [Operation.perform]
  constructor
  · intro h
    split at h
    · cases h
    · next hrefusal =>
      split_ifs at h with hnan hoverflow
      cases h
      exact ⟨hrefusal, rfl, Bool.eq_false_iff.mpr hnan, Bool.eq_false_iff.mpr hoverflow⟩
  · rintro ⟨hrefusal, rfl, hnan, hoverflow⟩
    simp only [hrefusal, hnan, hoverflow, Bool.false_eq_true, if_false]

/-- Whatever the elementary functions are, a NaN out of other numbers is no value. -/
theorem preserves_isNaN (lib : Elementary) : Preserves lib fun x => x.isNaN = false := by
  intro o r ho h
  obtain ⟨-, -, hnan, -⟩ := Operation.perform_eq_ok_iff.mp h
  have hall : o.operands.all (!·.isNaN) = true := by
    rw [List.all_eq_true]
    intro x hx
    rw [ho x hx]
    rfl
  rwa [hall, Bool.and_true] at hnan

theorem Config.evaluate_holds {config : Config} {p : Float → Prop}
    (hp : Preserves config.elementary p) (line : List Char)
    (hline : ∀ ts, tokenize line = .ok ts → ∀ x, .number x ∈ ts → p x) :
    (∀ v, (config.evaluate line).result = .ok v → p v) ∧
      ∀ s ∈ (config.evaluate line).steps, s.Taken config.elementary p := by
  simp only [Config.evaluate]
  split
  · exact ⟨by simp, by simp⟩
  · next ts hts =>
    have hread := Reader.read_holds hp config.maxDepth { tokens := ts } (hline ts hts)
    exact ⟨hread.value, hread.steps⟩

def Step.NoNaN (s : Step) : Prop :=
  s.result.isNaN = false ∧ ∀ x ∈ s.operation.operands, x.isNaN = false

theorem Step.Taken.noNaN {lib : Elementary} {s : Step}
    (h : s.Taken lib fun x => x.isNaN = false) : s.NoNaN := ⟨h.result, h.operands⟩

theorem number_of_tokenize {line : List Char} {ts : List Token} (h : tokenize line = .ok ts)
    {x : Float} (hx : .number x ∈ ts) : x.isNaN = false ∧ Number.Unsigned x := by
  obtain ⟨cs, hread⟩ := exists_read_of_tokenize h hx
  exact (Number.nonnegative_unpack_iff x).mp (Number.nonnegative_of_read? hread)

/-- No NaN appears: not as the value of a line, nor in the steps of an evaluation that succeeds or
fails, nor in what a trace keeps of it; and not in the reading of tokens, from any level of
nesting, as long as none of them is a NaN.  The numbers of a line have no sign either. -/
theorem never_nan (config : Config) :
    (∀ line,
      (∀ v, (config.evaluate line).result = .ok v → v.isNaN = false) ∧
      ∀ s ∈ (config.evaluate line).steps, s.NoNaN) ∧
    (∀ line trace, (∀ s ∈ trace.steps, s.NoNaN) →
      ∀ s ∈ (config.evaluateWith line trace).2.steps, s.NoNaN) ∧
    (∀ r : Reader, (∀ x, .number x ∈ r.tokens → x.isNaN = false) →
      (∀ v, (config.read r).result = .ok v → v.isNaN = false) ∧
      ∀ s ∈ (config.read r).steps, s.NoNaN) ∧
    ∀ line ts, tokenize line = .ok ts →
      ∀ x, .number x ∈ ts → x.isNaN = false ∧ Number.Unsigned x := by
  have hline (line : List Char) := Config.evaluate_holds (preserves_isNaN config.elementary) line
    fun ts hts x hx => (number_of_tokenize hts hx).1
  refine ⟨fun line => ?_, fun line trace htrace => ?_, fun r hr => ?_, ?_⟩
  · obtain ⟨hvalue, hsteps⟩ := hline line
    exact ⟨hvalue, fun s hs => (hsteps s hs).noNaN⟩
  · obtain ⟨-, hsteps⟩ := hline line
    intro s hs
    simp only [Config.evaluateWith, Trace.record] at hs
    split at hs
    · rcases List.mem_append.mp hs with hs | hs
      · exact htrace s hs
      · exact (hsteps s hs).noNaN
    · exact htrace s hs
  · have hread := Reader.read_holds (preserves_isNaN config.elementary) config.maxDepth r hr
    exact ⟨hread.value, fun s hs => (hread.steps s hs).noNaN⟩
  · intro line ts hts x hx
    exact number_of_tokenize hts hx

end Calculator
