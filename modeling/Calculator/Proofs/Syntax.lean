import Calculator.Evaluation
import Calculator.Proofs.Outline
import Calculator.Proofs.Reading

/-! # What is read and what is refused

The reader follows the outlines of its tokens.  A line therefore has a value exactly when it is the
line of a phrase that has one, and a token is refused exactly where no sentence goes on with it.
-/
namespace Calculator

def State.outline (s : State) : Outline :=
  match s.stage with
  | .operand => .operand s.work.enclosing.length
  | .argument _ => .argument s.work.enclosing.length
  | .operated _ => .operated s.work.enclosing.length

def Expected.Names : Expected → Token → Prop
  | .operand, t => ∃ x, t = .number x
  | .symbol c, t => t = .symbol c
  | .kind k, t => t.kind = k

section
variable (lib : Elementary) (limit : Nat)

theorem length_enclosing_settle {next : Option Operator} {x : Float} {w w' : Work}
    {r : Except Failure Float} (h : settle lib next x w = (r, w')) :
    w'.enclosing.length = w.enclosing.length := by
  obtain ⟨_, hs⟩ := settles lib h
  rw [hs.enclosing]

theorem Moves.outline {s s' : State} {t : Token} (h : Moves lib limit s t (.shift s')) :
    s.outline.next? t = some s'.outline := by
  cases h with
  | number x w => rfl
  | name f w => exact Outline.next?_name _ f
  | enter h hl =>
    cases h with
    | group w => rfl
    | call f w => rfl
    | power hs =>
      have hlen := length_enclosing_settle lib hs
      simp [State.outline, Work.deeper, Work.push, hlen]
  | operator hop hs =>
    have hlen := length_enclosing_settle lib hs
    simp [State.outline, Work.push, hlen]
  | closeGroup hs he =>
    have hlen := length_enclosing_settle lib hs
    rw [he] at hlen
    simp [State.outline, Work.close, ← hlen]
  | closeCall hs he hp =>
    have hlen := length_enclosing_settle lib hs
    rw [he] at hlen
    simp [State.outline, Work.close, Work.record, ← hlen]

theorem Runs.outline {s s' : State} {us : List Token} (h : Runs lib limit s us s') :
    s.outline.follow us = some s'.outline := by
  induction h with
  | refl s => rfl
  | shift ht hm hr ih => rw [Outline.follow_cons, hm.outline, Option.bind_some, ih]

theorem next?_operated_eq_none {n : Nat} {t : Token} (ho : t.operator? = none)
    (ht : t ≠ .eof ∨ n ≠ 0) (hc : t.isSymbol ')' = false ∨ n = 0) :
    (Outline.operated n).next? t = none := by
  cases t with
  | symbol c =>
    have hs : Operator.ofSymbol? c = none := ho
    simp only [Token.isSymbol, beq_eq_false_iff_ne] at hc
    simp only [Outline.next?, hs, Option.isSome_none, Bool.false_eq_true, ↓reduceIte]
    rw [if_neg]
    rintro ⟨hclose, hpos⟩
    rcases hc with hc | hn
    · exact hc hclose
    · exact hpos.ne' hn
  | eof => simpa [Outline.next?] using ht
  | _ => rfl

theorem Refuses.next?_eq_none {s : State} {t : Token} {expected : Expected} {w : Work}
    (h : Refuses lib s t expected w) : s.outline.next? t = none := by
  cases h with
  | operand w hk ht =>
    cases t <;> simp_all [State.outline, Outline.next?, Token.kind, Token.isSymbol]
  | argument f w ht =>
    cases t <;> simp_all [State.outline, Outline.next?, Token.isSymbol]
  | line hs ho ht he =>
    have hlen := length_enclosing_settle lib hs
    rw [he] at hlen
    exact next?_operated_eq_none ho (.inl ht) (.inr hlen.symm)
  | group hs ho ht he =>
    have hlen := length_enclosing_settle lib hs
    rw [he, List.length_cons] at hlen
    exact next?_operated_eq_none ho (.inr (hlen ▸ Nat.succ_ne_zero _)) (.inl ht)

theorem Refuses.next?_isSome {s : State} {t t' : Token} {expected : Expected} {w : Work}
    (h : Refuses lib s t expected w) (hn : expected.Names t') :
    (s.outline.next? t').isSome := by
  cases h with
  | operand w hk ht =>
    obtain ⟨x, rfl⟩ := hn
    rfl
  | argument f w ht =>
    obtain rfl : t' = .symbol '(' := hn
    rfl
  | line hs ho ht he =>
    have hlen := length_enclosing_settle lib hs
    rw [he] at hlen
    have hk : t'.kind = .eof := hn
    cases t' <;> simp_all [State.outline, Outline.next?, Token.kind]
  | group hs ho ht he =>
    have hlen := length_enclosing_settle lib hs
    rw [he, List.length_cons] at hlen
    obtain rfl : t' = .symbol ')' := hn
    simp [State.outline, ← hlen]

/-- A line that has a value is a sentence. -/
theorem Stops.outline_of_ok {s : State} {ts : List Token} {r : Reading} {v : Float}
    (h : Stops lib limit s ts r) (hv : r.result = .ok v) :
    ts.headD .eof = .eof ∧ s.outline = .operated 0 := by
  cases h with
  | value hts hs he =>
    have hlen := length_enclosing_settle lib hs
    rw [he] at hlen
    exact ⟨hts, by simp [State.outline, ← hlen]⟩
  | endRefused hts h => cases hv
  | endFailed hts hs => cases hv
  | halt ht hm => cases hv

theorem Stops.refuses {s : State} {ts : List Token} {r : Reading} {expected : Expected}
    {found : Token} (h : Stops lib limit s ts r)
    (he : r.result = .error (.unexpected expected found)) :
    r.rest.tokens = ts ∧ ts.headD .eof = found ∧ ∃ w, Refuses lib s found expected w := by
  cases h with
  | value hts hs hnil => cases he
  | @endRefused _ _ _ w hts h =>
    cases he
    exact ⟨rfl, hts, w, h⟩
  | endFailed hts hs =>
    obtain ⟨_, hs⟩ := settles lib hs
    cases he
    cases hs.semantic _ rfl
  | @halt _ t ts _ w _ ht hm =>
    cases he
    cases hm with
    | fail hs =>
      obtain ⟨_, hs⟩ := settles lib hs
      cases hs.semantic _ rfl
    | failCall hs he hp => cases Operation.perform_error lib hp
    | refuse h => exact ⟨rfl, rfl, w, h⟩

end

def Token.isEnd : Token → Bool
  | .eof => true
  | _ => false

theorem Token.isEnd_iff {t : Token} : t.isEnd = true ↔ t = .eof := by
  cases t <;> simp [isEnd]

def beforeEnd (ts : List Token) : List Token := ts.takeWhile fun t => !t.isEnd

theorem beforeEnd_append {us : List Token} (hus : ∀ t ∈ us, t ≠ .eof) (rest : List Token) :
    beforeEnd (us ++ rest) = us ++ beforeEnd rest := by
  have hall : ∀ t ∈ us, (!t.isEnd) = true := by
    intro t ht
    have hne := mt Token.isEnd_iff.mp (hus t ht)
    simpa using hne
  exact List.takeWhile_append_of_pos hall

theorem beforeEnd_of_end {rest : List Token} (h : rest.headD .eof = .eof) :
    beforeEnd rest = [] := by
  cases rest with
  | nil => rfl
  | cons t rest =>
    obtain rfl : t = .eof := h
    rfl

theorem eq_beforeEnd_append (ts : List Token) :
    ∃ rest, ts = beforeEnd ts ++ rest ∧ rest.headD .eof = .eof := by
  refine ⟨ts.dropWhile fun t => !t.isEnd, List.takeWhile_append_dropWhile.symm, ?_⟩
  cases hd : ts.dropWhile fun t => !t.isEnd with
  | nil => rfl
  | cons t us =>
    have hne : ts.dropWhile (fun t => !t.isEnd) ≠ [] := by
      rw [hd]
      exact List.cons_ne_nil t us
    have ht := List.head_dropWhile_not (fun t : Token => !t.isEnd) hne
    simp only [hd, List.head_cons, Bool.not_eq_false'] at ht
    exact Token.isEnd_iff.mp ht

section
variable (lib : Elementary) (limit : Nat)

/-- The line of a phrase has the value of the phrase. -/
theorem run_line {e : Phrase .expr} {ts : List Token} (h : e.tokens = beforeEnd ts) :
    (State.run lib limit {} ts).valuation = e.valueWithin lib limit 0 := by
  obtain ⟨rest, hts, hrest⟩ := eq_beforeEnd_append ts
  rw [hts, ← h]
  have hw : ({} : Work).Awaits .expr := by
    intro p hp
    cases hp
  have hends : Category.expr.ClosedBy rest := by
    intro next hn
    rw [nextOperator?_end hrest] at hn
    cases hn
  have hrun := run_phrase lib limit e hw hends
  change (State.run lib limit ⟨.operand, {}⟩ (e.tokens ++ rest)).valuation = _
  rw [hrun]
  have hfinish (x : Float) (ss : List Step) :
      (State.run lib limit ⟨.operated x, ({} : Work).record ss⟩ rest).valuation = ⟨.ok x, ss⟩ := by
    rw [State.run_end lib limit hrest]
    simp [State.finish, settle, settle.go, Work.record, Reading.ofHalt, Reading.valuation]
  rcases e.valueWithin lib limit 0 with ⟨result, steps⟩
  cases result with
  | ok x => exact hfinish x steps
  | error e => rfl

theorem exists_phrase {ts : List Token} {v : Float}
    (h : (State.run lib limit {} ts).result = .ok v) :
    ∃ e : Phrase .expr, e.tokens = beforeEnd ts := by
  obtain ⟨us, rest, s, rfl, hr, hs⟩ := exists_runs lib limit {} ts
  obtain ⟨hrest, ho⟩ := hs.outline_of_ok lib limit h
  have hfollow : (Outline.operand 0).follow us = some (.operated 0) := by
    rw [← ho]
    exact hr.outline
  have hsentence : Sentence (us ++ [.eof]) := by
    rw [sentence_iff, Outline.follow_append, hfollow]
    rfl
  obtain ⟨e, he⟩ := hsentence
  refine ⟨e, ?_⟩
  rw [beforeEnd_append hr.ne_eof, beforeEnd_of_end hrest, List.append_nil]
  exact (List.append_cancel_right he).symm

end

/-- Reading a line has a value exactly when its tokens are those of a phrase that is nested no
deeper than allowed and has that value, with the same steps.  The phrase is unique, and where its
evaluation fails the line fails in the same way after the same steps. -/
theorem read_iff_value (config : Config) (tokens : List Token) :
    (∀ v steps, ((config.read { tokens }).result = .ok v ∧ (config.read { tokens }).steps = steps) ↔
      ∃ e : Phrase .expr, e.tokens = beforeEnd tokens ∧ e.nesting ≤ config.maxDepth ∧
        e.value config.elementary = ⟨.ok v, steps⟩) ∧
    (∀ e e' : Phrase .expr, e.tokens = beforeEnd tokens → e'.tokens = beforeEnd tokens → e = e') ∧
    ∀ (e : Phrase .expr) (failure : Failure) (steps : List Step), e.tokens = beforeEnd tokens →
      e.valueWithin config.elementary config.maxDepth 0 = ⟨.error failure, steps⟩ →
      (config.read { tokens }).result = .error failure ∧
        (config.read { tokens }).steps = steps := by
  have hread (e : Phrase .expr) (he : e.tokens = beforeEnd tokens) :
      (config.read { tokens }).valuation = e.valueWithin config.elementary config.maxDepth 0 :=
    run_line config.elementary config.maxDepth he
  refine ⟨fun v steps => ⟨?_, ?_⟩, ?_, ?_⟩
  · rintro ⟨hv, rfl⟩
    obtain ⟨e, he⟩ := exists_phrase config.elementary config.maxDepth hv
    have hval := hread e he
    have hok : (e.valueWithin config.elementary config.maxDepth 0).result = .ok v := by
      rw [← hval]
      exact hv
    have hnest := e.nesting_le config.elementary (Nat.zero_le _) hok
    rw [e.valueWithin_eq config.elementary hnest] at hval
    refine ⟨e, he, by omega, ?_⟩
    rw [← hval, Reading.valuation, hv]
  · rintro ⟨e, he, hnest, hval⟩
    have hval' := hread e he
    rw [e.valueWithin_eq config.elementary (by omega), hval] at hval'
    exact ⟨congrArg Valuation.result hval', congrArg Valuation.steps hval'⟩
  · intro e e' he he'
    exact Phrase.tokens_injective (he.trans he'.symm)
  · intro e failure steps he hval
    have hval' := hread e he
    rw [hval] at hval'
    exact ⟨congrArg Valuation.result hval', congrArg Valuation.steps hval'⟩

/-- A token is refused at the earliest place: the tokens before it begin a sentence, no sentence
begins with them and it, and with any token that was expected instead they begin one again. -/
theorem refused_at_earliest (config : Config) (tokens : List Token) {expected : Expected}
    {found : Token}
    (h : (config.read { tokens }).result = .error (.unexpected expected found)) :
    ∃ k ≤ tokens.length, (config.read { tokens }).rest.tokens = tokens.drop k ∧
      (∀ t ∈ tokens.take k, t ≠ .eof) ∧ (tokens ++ [.eof])[k]? = some found ∧
      Viable (tokens.take k) ∧ ¬ Viable (tokens.take k ++ [found]) ∧
      ∀ t, expected.Names t → Viable (tokens.take k ++ [t]) := by
  obtain ⟨us, rest, s, rfl, hr, hs⟩ := exists_runs config.elementary config.maxDepth {} tokens
  obtain ⟨hrest, hfound, w, href⟩ := hs.refuses config.elementary config.maxDepth h
  have hfollow : (Outline.operand 0).follow us = some s.outline := hr.outline
  refine ⟨us.length, by simp, ?_, ?_, ?_, ?_, ?_, ?_⟩
  · rw [List.drop_left]
    exact hrest
  · rw [List.take_left]
    exact hr.ne_eof
  · rw [List.append_assoc, List.getElem?_append_right le_rfl, Nat.sub_self]
    cases rest with
    | nil => simpa using hfound
    | cons t rest => simpa using hfound
  · rw [List.take_left]
    exact viable_iff.mpr ⟨_, hfollow⟩
  · rw [List.take_left, viable_append_iff hfollow, href.next?_eq_none]
    simp
  · intro t ht
    rw [List.take_left, viable_append_iff hfollow]
    exact href.next?_isSome _ ht

theorem comma_refused :
    let tokens : List Token := [.number 2, .symbol '*', .symbol '(', .number 3, .comma]
    (Config.read {} { tokens }).result = .error (.unexpected (.symbol ')') .comma) ∧
      Viable (tokens.take 4) ∧ ¬ Viable tokens ∧ Viable (tokens.take 4 ++ [.symbol ')']) := by
  intro tokens
  have h : (Config.read {} { tokens }).result = .error (.unexpected (.symbol ')') .comma) := rfl
  obtain ⟨k, hk, hrest, -, -, hviable, hnot, hnamed⟩ := refused_at_earliest {} tokens h
  have hlen : 1 = 5 - k := (congrArg List.length hrest).trans List.length_drop
  obtain rfl : k = 4 := by omega
  exact ⟨h, hviable, hnot, hnamed _ rfl⟩

end Calculator
