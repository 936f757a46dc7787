import Calculator.Lexeme
import Calculator.Proofs.Number.Literal

/-! # Cutting a line

A line is read if and only if it can be cut, from left to right and with longest runs, into blanks,
operators, commas, names and numbers.  There is only one such cutting, and the tokens of the line
are those of its pieces.
-/
namespace Calculator

section Classes

/-- What holds of the characters of ASCII is checked on each of them. -/
theorem of_ascii {p : Char → Prop} (hp : ∀ n < 128, p (Char.ofNat n)) {c : Char}
    (hc : c.toNat < 128) : p c := by
  have h := hp c.toNat hc
  rwa [Char.ofNat_toNat] at h

variable {c : Char}

theorem ascii_of_isAlphanum (h : c.isAlphanum = true) : c.toNat < 128 := by
  simp only [Char.isAlphanum, Char.isAlpha, Char.isUpper, Char.isLower, Char.isDigit,
    Bool.or_eq_true, Bool.and_eq_true, decide_eq_true_eq, ge_iff_le, UInt32.le_iff_toNat_le] at h
  change c.val.toNat < 128
  have h1 : 'Z'.val.toNat = 90 := rfl
  have h2 : 'z'.val.toNat = 122 := rfl
  have h3 : '9'.val.toNat = 57 := rfl
  omega

theorem ascii_of_isLiteralChar (h : Number.isLiteralChar c = true) : c.toNat < 128 := by
  rcases Bool.or_eq_true _ _ |>.mp h with h | h
  · exact ascii_of_isAlphanum (by simp [Char.isAlphanum, h])
  · rw [beq_iff_eq.mp h]
    decide

theorem classes_of_isAlphanum (h : c.isAlphanum = true) :
    Text.isBlank c = false ∧ Lexeme.isMark c = false :=
  of_ascii (p := fun c => c.isAlphanum = true → Text.isBlank c = false ∧ Lexeme.isMark c = false)
    (by decide) (ascii_of_isAlphanum h) h

theorem classes_of_isLiteralChar (h : Number.isLiteralChar c = true) :
    Text.isBlank c = false ∧ Lexeme.isMark c = false ∧ c.isAlpha = false :=
  of_ascii (p := fun c => Number.isLiteralChar c = true →
      Text.isBlank c = false ∧ Lexeme.isMark c = false ∧ c.isAlpha = false)
    (by decide) (ascii_of_isLiteralChar h) h

theorem not_isLiteralChar_of_isAlpha (h : c.isAlpha = true) : Number.isLiteralChar c = false := by
  by_contra hliteral
  have hfalse := (classes_of_isLiteralChar (Bool.eq_true_of_not_eq_false hliteral)).2.2
  rw [h] at hfalse
  cases hfalse

theorem not_isLiteralChar_of_isMark (h : Lexeme.isMark c = true) :
    Number.isLiteralChar c = false := by
  by_contra hliteral
  have hfalse := (classes_of_isLiteralChar (Bool.eq_true_of_not_eq_false hliteral)).2.1
  rw [h] at hfalse
  cases hfalse

end Classes

namespace Lexeme

inductive Accepted : Lexeme → Prop
  | blank {c : Char} (hc : Text.isBlank c = true) : Accepted (.blank c)
  | mark {c : Char} (hc : c ∈ ['+', '-', '*', '/', '%', '^', '(', ')', ',']) : Accepted (.mark c)
  | number {cs : List Char} (hall : ∀ c ∈ cs, c.isDigit = true ∨ c = '.')
      (hdigit : ∃ c ∈ cs, c.isDigit = true) (hdot : cs.count '.' ≤ 1) : Accepted (.digits cs)
  | name {c : Char} {cs : List Char} (hc : c.isAlpha = true)
      (hcs : ∀ d ∈ cs, d.isAlphanum = true) : Accepted (.word (c :: cs))

def ContinuedBy : Lexeme → Char → Prop
  | .digits _, c => c.isDigit = true ∨ c = '.'
  | .word _, c => c.isAlphanum = true
  | _, _ => False

inductive Spells : Lexeme → Token → Prop
  | comma : Spells (.mark ',') .comma
  | symbol {c : Char} (hc : c ≠ ',') : Spells (.mark c) (.symbol c)
  | number {cs : List Char} {x : Float} (hx : Number.read? cs = some x) :
      Spells (.digits cs) (.number x)
  | name {cs : List Char} : Spells (.word cs) (.name cs)

def isBlank : Lexeme → Bool
  | .blank _ => true
  | _ => false

end Lexeme

/-- A line cut from left to right, each run as long as it can be. -/
inductive Cutting : List Lexeme → List Char → Prop
  | nil : Cutting [] []
  | cons {l : Lexeme} {ls : List Lexeme} {cs : List Char} (hl : l.Accepted)
      (hlongest : ∀ c ∈ cs.head?, ¬ l.ContinuedBy c) (h : Cutting ls cs) :
      Cutting (l :: ls) (l.text ++ cs)

namespace Lexeme

theorem run_append {p : Char → Bool} {xs ys : List Char} (hxs : ∀ c ∈ xs, p c = true)
    (hys : ∀ c ∈ ys.head?, p c = false) :
    (xs ++ ys).takeWhile p = xs ∧ (xs ++ ys).dropWhile p = ys := by
  rw [List.takeWhile_append_of_pos hxs, List.dropWhile_append_of_pos hxs]
  cases ys with
  | nil => simp
  | cons y ys => simp [hys y rfl]

theorem isLiteralChar_iff {c : Char} :
    Number.isLiteralChar c = true ↔ c.isDigit = true ∨ c = '.' := by
  simp [Number.isLiteralChar]

theorem isLiteral_iff {cs : List Char} : Number.isLiteral cs = true ↔
    (∀ c ∈ cs, c.isDigit = true ∨ c = '.') ∧ (∃ c ∈ cs, c.isDigit = true) ∧ cs.count '.' ≤ 1 := by
  simp only [Number.isLiteral, Bool.and_eq_true, List.all_eq_true, List.any_eq_true,
    isLiteralChar_iff, decide_eq_true_eq, and_assoc]

theorem accepted_digits {cs : List Char} (h : Number.isLiteral cs = true) :
    (Lexeme.digits cs).Accepted := by
  obtain ⟨hall, hdigit, hdot⟩ := isLiteral_iff.mp h
  exact .number hall hdigit hdot

theorem isMark_iff {c : Char} :
    isMark c = true ↔ c ∈ ['+', '-', '*', '/', '%', '^', '(', ')', ','] := List.contains_iff_mem

theorem isBlank_of_isMark {c : Char} (h : isMark c = true) : Text.isBlank c = false := by
  have hall : ∀ c ∈ ['+', '-', '*', '/', '%', '^', '(', ')', ','], Text.isBlank c = false := by
    simp [Text.isBlank]
  exact hall c (isMark_iff.mp h)

theorem Accepted.exists_digits {cs : List Char} (h : (Lexeme.digits cs).Accepted) :
    ∃ d ds, cs = d :: ds ∧ ∀ c ∈ cs, Number.isLiteralChar c = true := by
  cases h with
  | number hall hdigit _ =>
    obtain ⟨d, ds, hcons⟩ := List.exists_cons_of_ne_nil (List.ne_nil_of_mem hdigit.choose_spec.1)
    exact ⟨d, ds, hcons, fun c hc => isLiteralChar_iff.mpr (hall c hc)⟩

theorem Accepted.exists_head {l : Lexeme} (hl : l.Accepted) : ∃ c cs, l.text = c :: cs := by
  cases l with
  | digits ds =>
    obtain ⟨c, cs, hcons, -⟩ := hl.exists_digits
    exact ⟨c, cs, hcons⟩
  | word =>
    cases hl
    exact ⟨_, _, rfl⟩
  | _ => exact ⟨_, _, rfl⟩

/-- An accepted piece is what is cut off when no character behind it continues it. -/
theorem next_eq {l : Lexeme} {rest : List Char} (hl : l.Accepted)
    (hlongest : ∀ c ∈ rest.head?, ¬ l.ContinuedBy c) :
    ∃ c cs, l.text ++ rest = c :: cs ∧ next c cs = (l, rest) := by
  cases hl with
  | blank hc => exact ⟨_, _, rfl, if_pos hc⟩
  | @mark c hc =>
    have hmark := isMark_iff.mpr hc
    have hblank := isBlank_of_isMark hmark
    exact ⟨_, _, rfl, by simp [next, hmark, hblank]⟩
  | number hall hdigit hdot =>
    obtain ⟨c, cs, rfl, hrun⟩ := Accepted.exists_digits (.number hall hdigit hdot)
    have hc := hrun c List.mem_cons_self
    obtain ⟨hblank, hmark, -⟩ := classes_of_isLiteralChar hc
    have hends (d : Char) (hd : d ∈ rest.head?) : Number.isLiteralChar d = false :=
      Bool.eq_false_iff.mpr fun h => hlongest d hd (isLiteralChar_iff.mp h)
    obtain ⟨htake, hdrop⟩ := run_append (fun d hd => hrun d (List.mem_cons_of_mem c hd)) hends
    refine ⟨c, cs ++ rest, rfl, ?_⟩
    simp only [next, hblank, hmark, hc, htake, hdrop, Bool.false_eq_true, if_false, if_true]
  | @name c cs hc hcs =>
    have halnum : c.isAlphanum = true := by simp [Char.isAlphanum, hc]
    obtain ⟨hblank, hmark⟩ := classes_of_isAlphanum halnum
    have hliteral := not_isLiteralChar_of_isAlpha hc
    have hends (d : Char) (hd : d ∈ rest.head?) : d.isAlphanum = false :=
      Bool.eq_false_iff.mpr (hlongest d hd)
    obtain ⟨htake, hdrop⟩ := run_append hcs hends
    refine ⟨c, cs ++ rest, rfl, ?_⟩
    simp only [next, hblank, hmark, hliteral, hc, htake, hdrop, Bool.false_eq_true, if_false,
      if_true]

theorem dropWhile_longest (p : Char → Bool) (cs : List Char) :
    ∀ c ∈ (cs.dropWhile p).head?, p c = false := by
  intro c hc
  have h := List.head?_dropWhile_not p cs
  rwa [Option.mem_def.mp hc] at h

theorem next_longest (c : Char) (cs : List Char) :
    ∀ d ∈ (next c cs).2.head?, ¬ (next c cs).1.ContinuedBy d := by
  intro d
  unfold next
  split_ifs
  · exact fun _ => id
  · exact fun _ => id
  · intro hd h
    have hfalse := dropWhile_longest _ _ d hd
    rw [isLiteralChar_iff.mpr h] at hfalse
    cases hfalse
  · intro hd h
    have hfalse := dropWhile_longest _ _ d hd
    rw [show d.isAlphanum = true from h] at hfalse
    cases hfalse
  · exact fun _ => id

/-- Only accepted pieces have tokens. -/
theorem accepted_next {c : Char} {cs : List Char} {position : ℕ} {o : Option Token}
    (h : (next c cs).1.token? position = .ok o) : (next c cs).1.Accepted := by
  unfold next at *
  split_ifs at * with hblank hmark hliteral halpha
  · exact .blank hblank
  · exact .mark (isMark_iff.mp hmark)
  · simp only [token?] at h
    cases hx : Number.read? (c :: cs.takeWhile Number.isLiteralChar) with
    | none =>
      rw [hx] at h
      cases h
    | some x => exact accepted_digits (Number.read?_eq_some_iff.mp hx).1
  · exact .name halpha fun d hd => List.mem_takeWhile_imp hd
  · cases h

theorem exists_spells {l : Lexeme} (hl : l.Accepted) (hblank : l.isBlank = false) :
    ∃ t, l.Spells t := by
  cases hl with
  | blank => cases hblank
  | @mark c hc =>
    by_cases hcomma : c = ','
    · subst hcomma
      exact ⟨_, .comma⟩
    · exact ⟨_, .symbol hcomma⟩
  | number hall hdigit hdot =>
    have hliteral := isLiteral_iff.mpr ⟨hall, hdigit, hdot⟩
    exact ⟨_, .number (Number.read?_eq_some_iff.mpr ⟨hliteral, rfl⟩)⟩
  | name => exact ⟨_, .name⟩

theorem token?_of_spells {l : Lexeme} {t : Token} (h : l.Spells t) (position : ℕ) :
    l.token? position = .ok (some t) := by
  cases h with
  | comma => rfl
  | symbol hc => simp only [token?, if_neg hc]
  | number hx => simp only [token?, hx]
  | name => rfl

theorem cut_eq {ls : List Lexeme} {cs : List Char} (h : Cutting ls cs) : cut cs = ls := by
  induction h with
  | nil => simp only [cut]
  | cons hl hlongest _ ih =>
    obtain ⟨c, cs, htext, hnext⟩ := next_eq hl hlongest
    rw [htext, cut, hnext, ih]

end Lexeme

open Lexeme

theorem Cutting.accepted {ls : List Lexeme} {cs : List Char} (h : Cutting ls cs) :
    ∀ l ∈ ls, l.Accepted := by
  induction h with
  | nil => simp
  | cons hl _ _ ih =>
    intro l hmem
    rcases List.mem_cons.mp hmem with rfl | hmem
    · exact hl
    · exact ih l hmem

theorem Cutting.flatten {ls : List Lexeme} {cs : List Char} (h : Cutting ls cs) :
    (ls.map Lexeme.text).flatten = cs := by
  induction h with
  | nil => rfl
  | cons _ _ _ ih => rw [List.map_cons, List.flatten_cons, ih]

/-- The tokens of a line are those of its pieces that are not blank. -/
theorem ofLexemes_eq {ls : List Lexeme} {us : List Token}
    (h : List.Forall₂ Spells (ls.filter (!·.isBlank)) us) (position : ℕ) :
    (Scan.ofLexemes position ls).failure = none ∧
      (Scan.ofLexemes position ls).tokens.map Prod.fst = us := by
  induction ls generalizing us position with
  | nil =>
    cases h
    exact ⟨rfl, rfl⟩
  | cons l ls ih =>
    cases hl : l.isBlank with
    | true =>
      cases l with
      | blank c => exact ih h _
      | _ => cases hl
    | false =>
      rw [List.filter_cons_of_pos (by rw [hl]; rfl)] at h
      cases h with
      | cons ht hus =>
        obtain ⟨hfailure, htokens⟩ := ih hus (position + l.text.length)
        simp only [Scan.ofLexemes, token?_of_spells ht, List.map_cons, htokens]
        exact ⟨hfailure, trivial⟩

theorem tokenize_of_cutting {ls : List Lexeme} {us : List Token} {cs : List Char}
    (hcut : Cutting ls cs) (h : List.Forall₂ Spells (ls.filter (!·.isBlank)) us) :
    tokenize cs = .ok (us ++ [.eof]) := by
  obtain ⟨hfailure, htokens⟩ := ofLexemes_eq h 0
  simp only [tokenize, Scan.ofText, cut_eq hcut, hfailure, htokens]

theorem exists_spelled {ls : List Lexeme} (h : ∀ l ∈ ls, l.Accepted) :
    ∃ us, List.Forall₂ Spells (ls.filter (!·.isBlank)) us := by
  induction ls with
  | nil => exact ⟨[], .nil⟩
  | cons l ls ih =>
    obtain ⟨us, hus⟩ := ih fun k hk => h k (List.mem_cons_of_mem l hk)
    cases hl : l.isBlank with
    | true => exact ⟨us, by rwa [List.filter_cons_of_neg (by simp [hl])]⟩
    | false =>
      obtain ⟨t, ht⟩ := exists_spells (h l List.mem_cons_self) hl
      exact ⟨t :: us, by rw [List.filter_cons_of_pos (by simp [hl])]; exact .cons ht hus⟩

theorem exists_spells_of_mem {ls : List Lexeme} {us : List Token} (h : List.Forall₂ Spells ls us)
    {u : Token} (hu : u ∈ us) : ∃ l : Lexeme, l.Spells u := by
  induction h with
  | nil => cases hu
  | cons hl _ ih =>
    rcases List.mem_cons.mp hu with rfl | hu
    · exact ⟨_, hl⟩
    · exact ih hu

theorem cutting_of_ofLexemes {cs : List Char} {position : ℕ}
    (h : (Scan.ofLexemes position (cut cs)).failure = none) : Cutting (cut cs) cs := by
  induction cs using cut.induct generalizing position with
  | case1 =>
    rw [cut]
    exact .nil
  | case2 c cs ih =>
    rw [cut] at h ⊢
    -- The scan did not fail at the first lexeme, and so it went on behind it.
    have haccepted : (next c cs).1.Accepted ∧ ∃ position',
        (Scan.ofLexemes position' (cut (next c cs).2)).failure = none := by
      simp only [Scan.ofLexemes] at h
      cases htoken : (next c cs).1.token? position with
      | error e =>
        rw [htoken] at h
        cases h
      | ok o =>
        rw [htoken] at h
        refine ⟨accepted_next htoken, position + (next c cs).1.text.length, ?_⟩
        cases o with
        | none => exact h
        | some t => exact h
    obtain ⟨hl, position', hrest⟩ := haccepted
    have hcons := Cutting.cons hl (next_longest c cs) (ih hrest)
    rwa [next_text] at hcons

theorem cutting_of_tokenize {cs : List Char} {ts : List Token} (h : tokenize cs = .ok ts) :
    Cutting (cut cs) cs := by
  simp only [tokenize] at h
  split at h
  · cases h
  · next hfailure => exact cutting_of_ofLexemes hfailure

/-- The numbers of a line are decoded from runs of digits and dots. -/
theorem exists_read_of_tokenize {cs : List Char} {ts : List Token} (h : tokenize cs = .ok ts)
    {x : Float} (hx : .number x ∈ ts) : ∃ ds, Number.read? ds = some x := by
  have hcut := cutting_of_tokenize h
  obtain ⟨us, hus⟩ := exists_spelled hcut.accepted
  rw [tokenize_of_cutting hcut hus] at h
  cases h
  have hmem : Token.number x ∈ us := by simpa using hx
  obtain ⟨l, hl⟩ := exists_spells_of_mem hus hmem
  cases hl with
  | number hread => exact ⟨_, hread⟩

/-- A line is read if and only if it can be cut into blanks, operators, commas, names and numbers;
then its tokens are those of the pieces that are not blank, and one end token.  The pieces make up
the line, and no other cutting does. -/
theorem tokenize_iff_cutting (cs : List Char) :
    ((∃ ts, tokenize cs = .ok ts) ↔ ∃ ls, Cutting ls cs) ∧
    ∀ ls, Cutting ls cs →
      (ls.map Lexeme.text).flatten = cs ∧ (∀ ks, Cutting ks cs → ks = ls) ∧
      ∃ us, tokenize cs = .ok (us ++ [.eof]) ∧
        List.Forall₂ Spells (ls.filter (!·.isBlank)) us ∧ Token.eof ∉ us := by
  have htokens {ls : List Lexeme} (hcut : Cutting ls cs) : ∃ us,
      tokenize cs = .ok (us ++ [.eof]) ∧ List.Forall₂ Spells (ls.filter (!·.isBlank)) us := by
    obtain ⟨us, hus⟩ := exists_spelled hcut.accepted
    exact ⟨us, tokenize_of_cutting hcut hus, hus⟩
  constructor
  · constructor
    · rintro ⟨ts, h⟩
      exact ⟨cut cs, cutting_of_tokenize h⟩
    · rintro ⟨ls, hcut⟩
      obtain ⟨us, h, -⟩ := htokens hcut
      exact ⟨us ++ [.eof], h⟩
  · intro ls hcut
    refine ⟨hcut.flatten, fun ks hks => ?_, ?_⟩
    · rw [← cut_eq hks, cut_eq hcut]
    · obtain ⟨us, h, hus⟩ := htokens hcut
      refine ⟨us, h, hus, fun heof => ?_⟩
      obtain ⟨l, hl⟩ := exists_spells_of_mem hus heof
      cases hl

end Calculator
