import Mathlib.Logic.Relation
import Calculator.Proofs.Limit
import Calculator.Proofs.Spelling

/-! # Joined texts

A text is cut as if nothing stood behind it, unless its last run goes on there.  So two texts that
are joined at a blank, an operator or a comma are read one after the other, and the blanks at such a
place make no difference to what is read.
-/
namespace Calculator

def Failure.behind (n : Nat) : Failure → Failure
  | .strayCharacter c position => .strayCharacter c (position + n)
  | .malformedNumber cs position => .malformedNumber cs (position + n)
  | e => e

def Scan.result (scan : Scan) : Except Failure (List Token) :=
  match scan.failure with
  | some e => .error e
  | none => .ok (scan.tokens.map Prod.fst)

def Separates (c : Char) : Prop :=
  Text.isBlank c = true ∨ c ∈ ['+', '-', '*', '/', '%', '^', '(', ')', ',']

/-- Blanks between two texts.  They may be missing at the ends of the line and next to a character
that separates. -/
structure Gap (a gap b : List Char) : Prop where
  blank : ∀ c ∈ gap, Text.isBlank c = true
  parted : gap = [] → (∀ c ∈ a.getLast?, Separates c) ∨ ∀ c ∈ b.head?, Separates c

inductive Respaced : List Char → List Char → Prop
  | gap {a gap gap' b : List Char} (h : Gap a gap b) (h' : Gap a gap' b) :
      Respaced (a ++ gap ++ b) (a ++ gap' ++ b)

/-! ## Cutting -/

namespace Lexeme

def Apart (ls : List Lexeme) (rest : List Char) : Prop :=
  ∀ l ∈ ls.getLast?, ∀ c ∈ rest.head?, ¬ l.ContinuedBy c

variable {ls ks : List Lexeme} {cs rest : List Char}

theorem flatMap_cut (cs : List Char) : (cut cs).flatMap text = cs := by
  induction cs using cut.induct with
  | case1 => rw [cut, List.flatMap_nil]
  | case2 c cs ih => rw [cut, List.flatMap_cons, ih, next_text]

/-- A piece is cut off in the same way, whatever stands behind it that does not belong to it. -/
theorem next_resume {c : Char} (h : ∀ d ∈ rest.head?, ¬ (next c cs).1.ContinuedBy d) :
    ∃ ds, (next c cs).1.text ++ rest = c :: ds ∧ next c ds = ((next c cs).1, rest) := by
  unfold next at h ⊢
  split_ifs at h ⊢ with hblank hmark hliteral halpha
  · exact ⟨rest, rfl, rfl⟩
  · exact ⟨rest, rfl, rfl⟩
  · have hrun : ∀ d ∈ cs.takeWhile Number.isLiteralChar, Number.isLiteralChar d = true :=
      fun d hd => List.mem_takeWhile_imp hd
    have hends : ∀ d ∈ rest.head?, Number.isLiteralChar d = false := fun d hd =>
      Bool.eq_false_iff.mpr fun hd' => h d hd (isLiteralChar_iff.mp hd')
    obtain ⟨htake, hdrop⟩ := run_append hrun hends
    refine ⟨cs.takeWhile Number.isLiteralChar ++ rest, rfl, ?_⟩
    rw [htake, hdrop]
  · have hrun : ∀ d ∈ cs.takeWhile Char.isAlphanum, d.isAlphanum = true :=
      fun d hd => List.mem_takeWhile_imp hd
    have hends : ∀ d ∈ rest.head?, d.isAlphanum = false := fun d hd =>
      Bool.eq_false_iff.mpr (h d hd)
    obtain ⟨htake, hdrop⟩ := run_append hrun hends
    refine ⟨cs.takeWhile Char.isAlphanum ++ rest, rfl, ?_⟩
    rw [htake, hdrop]
  · exact ⟨rest, rfl, rfl⟩

theorem cut_eq_cons {l : Lexeme} (h : cut cs = l :: ls) :
    ∃ c ds, cs = c :: ds ∧ l = (next c ds).1 ∧ cut (next c ds).2 = ls := by
  cases cs with
  | nil => simp [cut] at h
  | cons c ds =>
    rw [cut] at h
    obtain ⟨rfl, hls⟩ := List.cons_eq_cons.mp h
    exact ⟨c, ds, rfl, rfl, hls⟩

theorem head?_text {l : Lexeme} (h : cut cs = l :: ls) :
    ∃ c, cs.head? = some c ∧ l.text.head? = some c := by
  obtain ⟨c, ds, rfl, rfl, -⟩ := cut_eq_cons h
  refine ⟨c, rfl, ?_⟩
  unfold next
  split_ifs <;> rfl

theorem Apart.tail {l : Lexeme} (h : Apart (l :: ls) rest) : Apart ls rest := by
  cases ls with
  | nil => simp [Apart]
  | cons m ms => rwa [Apart, List.getLast?_cons_cons] at h

/-- The pieces at the start of a text stay as they are when something else stands behind them. -/
theorem cut_resume (h : cut cs = ls ++ ks) (hrest : Apart ls rest) :
    cut (ls.flatMap text ++ rest) = ls ++ cut rest := by
  induction ls generalizing cs with
  | nil => rfl
  | cons l ls ih =>
    obtain ⟨c, ds, rfl, rfl, hcut⟩ := cut_eq_cons h
    have hlongest : ∀ d ∈ (ls.flatMap text ++ rest).head?, ¬ (next c ds).1.ContinuedBy d := by
      cases ls with
      | nil => exact hrest _ rfl
      | cons m ms =>
        obtain ⟨d, hhead, htext⟩ := head?_text hcut
        rw [List.flatMap_cons, List.append_assoc, List.head?_append, htext]
        rintro _ ⟨⟩
        exact next_longest c ds d hhead
    obtain ⟨es, htext, hnext⟩ := next_resume hlongest
    rw [List.flatMap_cons, List.append_assoc, htext, cut, hnext, ih hcut hrest.tail]
    rfl

/-- The pieces at the end of a text are those of what is left of it, where none of the others goes
on. -/
theorem cut_rest (h : cut cs = ls ++ ks) :
    cut (ks.flatMap text) = ks ∧ Apart ls (ks.flatMap text) := by
  induction ls generalizing cs with
  | nil =>
    rw [List.nil_append] at h
    rw [← h, flatMap_cut]
    exact ⟨rfl, by simp [Apart]⟩
  | cons l ls ih =>
    obtain ⟨c, ds, rfl, rfl, hcut⟩ := cut_eq_cons h
    obtain ⟨hks, hapart⟩ := ih hcut
    refine ⟨hks, ?_⟩
    cases ls with
    | nil =>
      rw [show ks = cut (next c ds).2 from hcut.symm, flatMap_cut]
      rintro _ ⟨⟩
      exact next_longest c ds
    | cons m ms => rwa [Apart, List.getLast?_cons_cons]

theorem cut_append {b : List Char} (h : Apart (cut cs) b) : cut (cs ++ b) = cut cs ++ cut b := by
  have hcut := cut_resume (List.append_nil _).symm h
  rwa [flatMap_cut] at hcut

theorem cut_blanks {gap b : List Char} (h : ∀ c ∈ gap, Text.isBlank c = true) :
    cut (gap ++ b) = gap.map blank ++ cut b := by
  induction gap with
  | nil => rfl
  | cons c gap ih =>
    have hnext : next c (gap ++ b) = (blank c, gap ++ b) := if_pos (h c List.mem_cons_self)
    rw [List.cons_append, cut, hnext, ih fun d hd => h d (List.mem_cons_of_mem c hd)]
    rfl

/-- A piece that can go on consists of characters that do not end a run. -/
theorem not_endsRuns_of_continuedBy {c d e : Char} (h : (next c cs).1.ContinuedBy d)
    (he : e ∈ (next c cs).1.text) : ¬ EndsRuns e := by
  rintro ⟨halnum, hdot⟩
  unfold next at h he
  split_ifs at h he with hblank hmark hliteral halpha
  · exact h
  · exact h
  · have hrun : Number.isLiteralChar e = true := by
      rcases List.mem_cons.mp he with rfl | he
      · exact hliteral
      · exact List.mem_takeWhile_imp he
    rcases isLiteralChar_iff.mp hrun with hdigit | hpoint
    · simp [Char.isAlphanum, hdigit] at halnum
    · exact hdot hpoint
  · have hrun : e.isAlphanum = true := by
      rcases List.mem_cons.mp he with rfl | he
      · simp [Char.isAlphanum, halpha]
      · exact List.mem_takeWhile_imp he
    rw [hrun] at halnum
    cases halnum
  · exact h

theorem apart_of_getLast? {b : List Char} (h : ∀ c ∈ cs.getLast?, EndsRuns c) :
    Apart (cut cs) b := by
  intro l hl d _ hcontinued
  obtain ⟨ls, hls⟩ := List.getLast?_eq_some_iff.mp hl
  obtain ⟨hlast, -⟩ := cut_rest hls
  obtain ⟨c, ds, htext, rfl, -⟩ := cut_eq_cons hlast
  rw [List.flatMap_singleton] at htext
  have hne : (next c ds).1.text ≠ [] := by
    rw [htext]
    exact List.cons_ne_nil c ds
  have hgetLast : cs.getLast? = some ((next c ds).1.text.getLast hne) := by
    rw [← flatMap_cut cs, hls, List.flatMap_append, List.flatMap_singleton, List.getLast?_append,
      List.getLast?_eq_some_getLast hne]
    rfl
  exact not_endsRuns_of_continuedBy hcontinued (List.getLast_mem hne) (h _ hgetLast)

theorem token?_add (l : Lexeme) (position n : Nat) :
    l.token? (position + n) = (l.token? position).mapError (.behind n) := by
  cases l with
  | digits cs =>
    simp only [token?]
    split <;> rfl
  | _ => rfl

end Lexeme

/-! ## Reading -/

namespace Scan
variable {ls ks : List Lexeme}

theorem result_cons (position : Nat) (l : Lexeme) (ls : List Lexeme) :
    (ofLexemes position (l :: ls)).result =
      (l.token? position).bind fun t =>
        (ofLexemes (position + l.text.length) ls).result.map (t.toList ++ ·) := by
  rw [ofLexemes]
  cases l.token? position with
  | error e => rfl
  | ok t =>
    cases t with
    | none =>
      change _ = (ofLexemes (position + l.text.length) ls).result.map id
      rw [Except.map_id]
      rfl
    | some t =>
      simp only [result, Except.bind, Option.toList]
      cases (ofLexemes (position + l.text.length) ls).failure <;> rfl

/-- Positions count from the start of the line, so a scan further behind differs in them only. -/
theorem result_add (position n : Nat) (ls : List Lexeme) :
    (ofLexemes (position + n) ls).result =
      (ofLexemes position ls).result.mapError (.behind n) := by
  induction ls generalizing position with
  | nil => rfl
  | cons l ls ih =>
    rw [result_cons, result_cons, Lexeme.token?_add, Nat.add_right_comm, ih]
    cases l.token? position with
    | error e => rfl
    | ok t => cases (ofLexemes (position + l.text.length) ls).result <;> rfl

/-- A scan goes on behind the first pieces unless it has stopped in them. -/
theorem result_append (position : Nat) (ls ks : List Lexeme) :
    (ofLexemes position (ls ++ ks)).result =
      (ofLexemes position ls).result.bind fun ts =>
        (ofLexemes (position + (ls.flatMap Lexeme.text).length) ks).result.map (ts ++ ·) := by
  induction ls generalizing position with
  | nil =>
    change _ = (ofLexemes position ks).result.map id
    rw [Except.map_id]
    rfl
  | cons l ls ih =>
    rw [List.cons_append, result_cons, result_cons, ih, List.flatMap_cons, List.length_append,
      Nat.add_assoc]
    cases l.token? position with
    | error e => rfl
    | ok t =>
      cases (ofLexemes (position + l.text.length) ls).result with
      | error e => rfl
      | ok ts =>
        simp only [Except.bind, Except.map]
        cases (ofLexemes (position + (l.text.length + (ls.flatMap Lexeme.text).length)) ks).result
        · rfl
        · simp

theorem result_blanks (position : Nat) (gap : List Char) :
    (ofLexemes position (gap.map .blank)).result = .ok [] := by
  induction gap generalizing position with
  | nil => rfl
  | cons c gap ih =>
    rw [List.map_cons, result_cons, ih]
    rfl

end Scan

theorem tokenize_eq (cs : List Char) :
    tokenize cs = (Scan.ofText cs).result.map (· ++ [.eof]) := by
  simp only [tokenize, Scan.result]
  cases (Scan.ofText cs).failure <;> rfl

theorem Separates.endsRuns {c : Char} (h : Separates c) : EndsRuns c := by
  rcases h with hblank | hmark
  · exact endsRuns_of_isBlank hblank
  · have hall : ∀ c ∈ ['+', '-', '*', '/', '%', '^', '(', ')', ','], EndsRuns c := by
      simp [EndsRuns]
    exact hall c hmark

/-! ## Gaps -/

namespace Gap
variable {a gap b : List Char}

theorem apart (h : Gap a gap b) : Lexeme.Apart (Lexeme.cut a) (gap ++ b) := by
  cases hgap : gap with
  | cons c gap' =>
    rintro l - _ ⟨⟩
    exact Lexeme.not_continuedBy (endsRuns_of_isBlank (h.blank c (by simp [hgap]))) l
  | nil =>
    rcases h.parted hgap with ha | hb
    · exact Lexeme.apart_of_getLast? fun c hc => (ha c hc).endsRuns
    · rintro l - c hc
      exact Lexeme.not_continuedBy (hb c hc).endsRuns l

/-- Joined texts are read one after the other. -/
theorem result_eq (h : Gap a gap b) :
    (Scan.ofText (a ++ gap ++ b)).result =
      (Scan.ofText a).result.bind fun us =>
        ((Scan.ofText b).result.mapError (.behind (a ++ gap).length)).map (us ++ ·) := by
  have hgap : (gap.map Lexeme.blank).flatMap Lexeme.text = gap := by
    simp [List.flatMap_map, Lexeme.text]
  have hposition : 0 + a.length + gap.length = 0 + (a ++ gap).length := by
    rw [List.length_append, Nat.add_assoc]
  rw [List.append_assoc, Scan.ofText, Lexeme.cut_append h.apart, Lexeme.cut_blanks h.blank,
    Scan.result_append, Lexeme.flatMap_cut]
  congr 1
  funext us
  rw [Scan.result_append, Scan.result_blanks, hgap, hposition, Scan.result_add]
  exact congrArg _ (congrFun Except.map_id _)

end Gap

theorem tokenize_eq_ok_iff {cs : List Char} {ts : List Token} :
    tokenize cs = .ok ts ↔ ∃ us, (Scan.ofText cs).result = .ok us ∧ ts = us ++ [.eof] := by
  rw [tokenize_eq]
  cases (Scan.ofText cs).result with
  | error e => simp [Except.map]
  | ok us => simp [Except.map, eq_comm]

theorem tokenize_eq_error_iff {cs : List Char} {e : Failure} :
    tokenize cs = .error e ↔ (Scan.ofText cs).result = .error e := by
  rw [tokenize_eq]
  cases (Scan.ofText cs).result <;> simp [Except.map]

/-- Blanks at the end of a line are not read. -/
theorem tokenize_append_blanks {cs gap : List Char} (h : ∀ c ∈ gap, Text.isBlank c = true) :
    tokenize (cs ++ gap) = tokenize cs := by
  have hgap : Gap cs gap [] := ⟨h, fun _ => .inr (by simp)⟩
  have hresult := hgap.result_eq
  have hnone : (Scan.ofText []).result = .ok [] := by
    rw [Scan.ofText, Lexeme.cut]
    rfl
  rw [List.append_nil, hnone] at hresult
  rw [tokenize_eq, tokenize_eq, hresult]
  cases (Scan.ofText cs).result with
  | error e => rfl
  | ok us => simp [Except.bind, Except.map, Except.mapError]

theorem Respaced.tokenize_eq_ok {x y : List Char} (h : Respaced x y) {ts : List Token}
    (hx : tokenize x = .ok ts) : tokenize y = .ok ts := by
  obtain @⟨a, gap, gap', b, hgap, hgap'⟩ := h
  rw [tokenize_eq, hgap.result_eq] at hx
  rw [tokenize_eq, hgap'.result_eq]
  cases ha : (Scan.ofText a).result with
  | error e =>
    rw [ha] at hx
    cases hx
  | ok us =>
    cases hb : (Scan.ofText b).result with
    | error e =>
      rw [ha, hb] at hx
      cases hx
    | ok vs =>
      rw [ha, hb] at hx
      exact hx

theorem Respaced.symm {x y : List Char} (h : Respaced x y) : Respaced y x := by
  cases h with
  | gap h h' => exact .gap h' h

theorem tokenize_eq_ok_iff_of_respaced {x y : List Char}
    (h : Relation.ReflTransGen Respaced x y) {ts : List Token} :
    tokenize x = .ok ts ↔ tokenize y = .ok ts := by
  induction h with
  | refl => rfl
  | tail _ hstep ih => exact ih.trans ⟨hstep.tokenize_eq_ok, hstep.symm.tokenize_eq_ok⟩

/-- Joined texts are read one after the other: if both can be read, the tokens of the second one
stand in place of the end token of the first one; else the problem is that of the first one, or that
of the second one, further behind by what stands before it.  So the blanks in such places have no
influence on the tokens of a line, nor on what comes of evaluating it except for a lexical failure. -/
theorem tokenize_joined :
    (∀ a gap b, Gap a gap b →
      (∀ us vs, tokenize a = .ok us → tokenize b = .ok vs →
        tokenize (a ++ gap ++ b) = .ok (us.dropLast ++ vs)) ∧
      (∀ e, tokenize a = .error e → tokenize (a ++ gap ++ b) = .error e) ∧
      (∀ us e, tokenize a = .ok us → tokenize b = .error e →
        tokenize (a ++ gap ++ b) = .error (e.behind (a ++ gap).length))) ∧
    ∀ x y, Relation.ReflTransGen Respaced x y →
      (∀ ts, tokenize x = .ok ts → tokenize y = .ok ts) ∧
      ∀ (config : Config) (trace : Trace),
        let before := config.evaluateWith x trace
        let after := config.evaluateWith y trace
        (∀ e, before.1.result = .error e → e.kind ≠ .lexical) →
          after.1.result = before.1.result ∧ after.1.steps = before.1.steps ∧
            after.2 = before.2 := by
  constructor
  · intro a gap b h
    have hresult := h.result_eq
    refine ⟨?_, ?_, ?_⟩
    · intro us vs ha hb
      obtain ⟨us, hus, rfl⟩ := tokenize_eq_ok_iff.mp ha
      obtain ⟨vs, hvs, rfl⟩ := tokenize_eq_ok_iff.mp hb
      rw [tokenize_eq, hresult, hus, hvs]
      simp [Except.bind, Except.map, Except.mapError]
    · intro e ha
      rw [tokenize_eq_error_iff] at ha
      rw [tokenize_eq_error_iff, hresult, ha]
      rfl
    · intro us e ha hb
      obtain ⟨us, hus, rfl⟩ := tokenize_eq_ok_iff.mp ha
      rw [tokenize_eq_error_iff] at hb
      rw [tokenize_eq_error_iff, hresult, hus, hb]
      rfl
  · intro x y h
    have htokens : ∀ ts, tokenize x = .ok ts → tokenize y = .ok ts :=
      fun ts => (tokenize_eq_ok_iff_of_respaced h).mp
    refine ⟨htokens, ?_⟩
    intro config trace before after hresult
    simp only [before, after, Config.evaluateWith] at hresult ⊢
    cases hx : tokenize x with
    | error e =>
      rw [evaluate_eq_of_error hx] at hresult
      exact absurd (kind_of_tokenize_error hx) (hresult e rfl)
    | ok ts =>
      rw [evaluate_eq_of_ok hx, evaluate_eq_of_ok (htokens ts hx)]
      exact ⟨rfl, rfl, rfl⟩

end Calculator
