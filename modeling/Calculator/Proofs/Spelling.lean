import Calculator.Proofs.Cutting
import Calculator.Proofs.Number.Shortest

/-! # Spelling tokens

A text in which tokens are written one after another, with blanks between them, is read as these
tokens.
-/
namespace Calculator

/-- The tokens that can be written: a number that is finite and has no sign, a name, an operator
or a comma. -/
inductive Token.Writable : Token → Prop
  | number {x : Float} (hx : x.isFinite = true) (hs : Number.Unsigned x) : Writable (.number x)
  | name {c : Char} {cs : List Char} (hc : c.isAlpha = true)
      (hcs : ∀ d ∈ cs, d.isAlphanum = true) : Writable (.name (c :: cs))
  | symbol {c : Char} (hc : c ∈ ['+', '-', '*', '/', '%', '^', '(', ')']) : Writable (.symbol c)
  | comma : Writable .comma

def written (ps : List (Token × List Char)) : List Char :=
  (ps.map fun p => p.1.text ++ p.2).flatten

def Lexes (cs : List Char) (ts : List Token) : Prop :=
  ∃ ls, Cutting ls cs ∧ List.Forall₂ Lexeme.Spells (ls.filter (!·.isBlank)) ts

def EndsRuns (c : Char) : Prop := c.isAlphanum = false ∧ c ≠ '.'

theorem endsRuns_of_isBlank {c : Char} (hc : Text.isBlank c = true) : EndsRuns c := by
  constructor
  · by_contra h
    have hfalse := (classes_of_isAlphanum (Bool.eq_true_of_not_eq_false h)).1
    rw [hc] at hfalse
    cases hfalse
  · rintro rfl
    cases hc

theorem Lexeme.not_continuedBy {c : Char} (hc : EndsRuns c) (l : Lexeme) : ¬ l.ContinuedBy c := by
  obtain ⟨halnum, hdot⟩ := hc
  cases l with
  | digits cs =>
    rintro (h | h)
    · simp [Char.isAlphanum, h] at halnum
    · exact hdot h
  | word cs =>
    intro h
    rw [show c.isAlphanum = true from h] at halnum
    cases halnum
  | _ => exact id

theorem Token.Writable.exists_lexeme {t : Token} (ht : t.Writable) :
    ∃ l : Lexeme, l.Accepted ∧ l.text = t.text ∧ l.Spells t := by
  cases ht with
  | number hx hs =>
    have hread := Number.read?_text hx hs
    exact ⟨_, Lexeme.accepted_digits (Number.read?_eq_some_iff.mp hread).1, rfl, .number hread⟩
  | name hc hcs => exact ⟨_, .name hc hcs, rfl, .name⟩
  | @symbol c hc =>
    have hcomma : c ≠ ',' := by
      rintro rfl
      exact absurd hc (by decide)
    exact ⟨.mark c, .mark (List.mem_append_left [','] hc), rfl, .symbol hcomma⟩
  | comma => exact ⟨.mark ',', .mark (by decide), rfl, .comma⟩

namespace Lexes
variable {cs : List Char} {ts : List Token}

theorem nil : Lexes [] [] := ⟨[], .nil, .nil⟩

theorem blanks (h : Lexes cs ts) {gap : List Char} (hgap : ∀ c ∈ gap, Text.isBlank c = true) :
    Lexes (gap ++ cs) ts := by
  induction gap with
  | nil => exact h
  | cons c gap ih =>
    obtain ⟨ls, hcut, hspells⟩ := ih fun d hd => hgap d (List.mem_cons_of_mem c hd)
    exact ⟨.blank c :: ls, .cons (.blank (hgap c List.mem_cons_self)) (fun _ _ => id) hcut, hspells⟩

/-- Numbers and names have to be ended by what stands behind them. -/
theorem token (h : Lexes cs ts) {t : Token} (ht : t.Writable)
    (hcs : t.kind = .number ∨ t.kind = .name → ∀ c ∈ cs.head?, EndsRuns c) :
    Lexes (t.text ++ cs) (t :: ts) := by
  obtain ⟨ls, hcut, hspells⟩ := h
  obtain ⟨l, haccepted, htext, hl⟩ := ht.exists_lexeme
  have hblank : l.isBlank = false := by
    cases hl <;> rfl
  have hlongest : ∀ c ∈ cs.head?, ¬ l.ContinuedBy c := by
    intro c hc
    cases hl with
    | comma => exact id
    | symbol => exact id
    | number => exact Lexeme.not_continuedBy (hcs (.inl rfl) c hc) _
    | name => exact Lexeme.not_continuedBy (hcs (.inr rfl) c hc) _
  refine ⟨l :: ls, ?_, ?_⟩
  · rw [← htext]
    exact .cons haccepted hlongest hcut
  · rw [List.filter_cons_of_pos (by rw [hblank]; rfl)]
    exact .cons hl hspells

theorem symbol (h : Lexes cs ts) {c : Char}
    (hc : c ∈ ['+', '-', '*', '/', '%', '^', '(', ')']) : Lexes (c :: cs) (.symbol c :: ts) :=
  h.token (.symbol hc) (by simp [Token.kind])

theorem tokenize (h : Lexes cs ts) : Calculator.tokenize cs = .ok (ts ++ [.eof]) := by
  obtain ⟨ls, hcut, hspells⟩ := h
  exact tokenize_of_cutting hcut hspells

end Lexes

theorem lexes_written {ps : List (Token × List Char)}
    (hps : ∀ p ∈ ps, p.1.Writable ∧ ∀ c ∈ p.2, Text.isBlank c = true)
    (hgaps : ∀ p ∈ ps.dropLast, p.2 ≠ []) : Lexes (written ps) (ps.map Prod.fst) := by
  induction ps with
  | nil => exact .nil
  | cons p ps ih =>
    obtain ⟨ht, hblank⟩ := hps p List.mem_cons_self
    have hrest := ih (fun q hq => hps q (List.mem_cons_of_mem p hq)) (by
      cases ps with
      | nil => simp
      | cons q qs => exact fun r hr => hgaps r (List.mem_cons_of_mem p hr))
    have hends : ∀ c ∈ (p.2 ++ written ps).head?, EndsRuns c := by
      cases hp : p.2 with
      | cons c gap =>
        rintro _ ⟨⟩
        exact endsRuns_of_isBlank (hblank c (by simp [hp]))
      | nil =>
        cases ps with
        | nil => simp [written]
        | cons q qs => exact absurd hp (hgaps p List.mem_cons_self)
    have h := (hrest.blanks hblank).token ht fun _ => hends
    rwa [← List.append_assoc] at h

/-- Writing tokens out and reading the text gives the tokens again, whatever blanks stand between
them, before and behind them. -/
theorem tokenize_written {lead : List Char} {ps : List (Token × List Char)}
    (hlead : ∀ c ∈ lead, Text.isBlank c = true)
    (hps : ∀ p ∈ ps, p.1.Writable ∧ ∀ c ∈ p.2, Text.isBlank c = true)
    (hgaps : ∀ p ∈ ps.dropLast, p.2 ≠ []) :
    tokenize (lead ++ written ps) = .ok (ps.map Prod.fst ++ [.eof]) :=
  ((lexes_written hps hgaps).blanks hlead).tokenize

theorem tokenize_written_call :
    tokenize ([' '] ++ written [(.name ['s', 'i', 'n'], ['\t', '\u00a0']), (.symbol '(', [' ']),
      (.number 2.5, ['\n']), (.symbol ')', [])]) =
    .ok [.name ['s', 'i', 'n'], .symbol '(', .number 2.5, .symbol ')', .eof] := by
  refine tokenize_written ?_ ?_ ?_
  · exact List.all_eq_true.mp rfl
  · have hname : Token.Writable (.name ['s', 'i', 'n']) := .name rfl (List.all_eq_true.mp rfl)
    have hnumber : Token.Writable (.number 2.5) := .number (by decide) (by decide)
    have hsymbol (c : Char) (hc : c ∈ ['(', ')']) : Token.Writable (.symbol c) :=
      .symbol (List.mem_append_right ['+', '-', '*', '/', '%', '^'] hc)
    simp [hname, hnumber, hsymbol, Text.isBlank]
  · simp

end Calculator
