import Calculator.Proofs.Joining

/-! # Unreadable lines

The failure of a line that cannot be read names the first piece that has no token: everything before
it can be read, and the piece is a problem whatever stands behind it.
-/
namespace Calculator

structure StrayAt (cs : List Char) (position : Nat) (c : Char) : Prop where
  here : cs[position]? = some c
  blank : Text.isBlank c = false
  mark : c ∉ ['+', '-', '*', '/', '%', '^', '(', ')', ',']
  digit : c.isDigit = false ∧ c ≠ '.'
  letter : c.isAlpha = false

/-- The longest run of digits and dots from a position of the line on, which is no number. -/
structure MalformedAt (cs : List Char) (position : Nat) (run : List Char) : Prop where
  longest : run = (cs.drop position).takeWhile Number.isLiteralChar
  malformed : (∀ c ∈ run, c.isDigit = false) ∨ 1 < run.count '.'

namespace Scan

/-- A scan that has stopped, stopped at its first piece without a token. -/
theorem exists_stop {position : Nat} {ls : List Lexeme} {e : Failure}
    (h : (ofLexemes position ls).result = .error e) :
    ∃ before l after us, ls = before ++ l :: after ∧
      (ofLexemes position before).result = .ok us ∧
      l.token? (position + (before.flatMap Lexeme.text).length) = .error e := by
  induction ls generalizing position with
  | nil => cases h
  | cons l ls ih =>
    rw [result_cons] at h
    cases hl : l.token? position with
    | error e' =>
      rw [hl] at h
      cases h
      exact ⟨[], l, ls, [], rfl, rfl, hl⟩
    | ok t =>
      rw [hl] at h
      cases hls : (ofLexemes (position + l.text.length) ls).result with
      | ok us =>
        rw [hls] at h
        cases h
      | error e' =>
        rw [hls] at h
        cases h
        obtain ⟨before, k, after, us, rfl, hbefore, hk⟩ := ih hls
        refine ⟨l :: before, k, after, t.toList ++ us, rfl, ?_, ?_⟩
        · rw [result_cons, hl, hbefore]
          rfl
        · rwa [List.flatMap_cons, List.length_append, ← Nat.add_assoc]

end Scan

namespace Lexeme
variable {c : Char} {cs : List Char} {e : Failure}

theorem malformed_of_read? {run : List Char} (h : Number.read? run = none)
    (hrun : ∀ c ∈ run, Number.isLiteralChar c = true) :
    (∀ c ∈ run, c.isDigit = false) ∨ 1 < run.count '.' := by
  by_contra hwell
  rw [not_or, not_lt] at hwell
  obtain ⟨hdigit, hdot⟩ := hwell
  have hliteral : Number.isLiteral run = true := by
    refine isLiteral_iff.mpr ⟨fun c hc => isLiteralChar_iff.mp (hrun c hc), ?_, hdot⟩
    by_contra hnone
    exact hdigit fun c hc => Bool.eq_false_iff.mpr fun hc' => hnone ⟨c, hc, hc'⟩
  rw [Number.read?_eq_some_iff.mpr ⟨hliteral, rfl⟩] at h
  cases h

/-- The two kinds of pieces that have no token. -/
theorem next_error {position : Nat} (h : (next c cs).1.token? position = .error e) :
    (next c cs).1 = .stray c ∧ e = .strayCharacter c position ∧ StrayAt (c :: cs) 0 c ∨
      ∃ run, (next c cs).1 = .digits run ∧ e = .malformedNumber run position ∧
        MalformedAt (c :: cs) 0 run := by
  unfold next at h ⊢
  split_ifs at h ⊢ with hblank hmark hliteral halpha
  · cases h
  · cases h
  · right
    have hrun : ∀ d ∈ c :: cs.takeWhile Number.isLiteralChar, Number.isLiteralChar d = true := by
      rintro d hd
      rcases List.mem_cons.mp hd with rfl | hd
      · exact hliteral
      · exact List.mem_takeWhile_imp hd
    simp only [token?] at h
    split at h
    · cases h
    · next hread =>
      cases h
      refine ⟨_, rfl, rfl, ?_, malformed_of_read? hread hrun⟩
      rw [List.drop_zero, List.takeWhile_cons_of_pos hliteral]
  · cases h
  · left
    cases h
    have hdigit : c.isDigit = false ∧ c ≠ '.' := by
      rw [Bool.not_eq_true, Number.isLiteralChar, Bool.or_eq_false_iff] at hliteral
      exact ⟨hliteral.1, by simpa using hliteral.2⟩
    refine ⟨rfl, rfl, rfl, Bool.eq_false_iff.mpr hblank, ?_, hdigit, Bool.eq_false_iff.mpr halpha⟩
    rwa [← isMark_iff]

end Lexeme

/-- An unreadable line has a piece without a token, behind a part that can be read.  The failure is
the same whatever stands behind that piece and does not belong to it. -/
theorem exists_unreadable {cs : List Char} {e : Failure} (h : tokenize cs = .error e) :
    ∃ a c ds, cs = a ++ c :: ds ∧ (∃ ts, tokenize a = .ok ts) ∧
      (Lexeme.next c ds).1.token? a.length = .error e ∧
      ∀ rest, (∀ d ∈ rest.head?, ¬ (Lexeme.next c ds).1.ContinuedBy d) →
        tokenize (a ++ ((Lexeme.next c ds).1.text ++ rest)) = .error e := by
  obtain ⟨before, l, after, us, hcut, hbefore, herror⟩ :=
    Scan.exists_stop (tokenize_eq_error_iff.mp h)
  obtain ⟨hrest, hapart⟩ := Lexeme.cut_rest hcut
  obtain ⟨c, ds, htext, rfl, -⟩ := Lexeme.cut_eq_cons hrest
  rw [htext] at hapart
  rw [Nat.zero_add] at herror
  refine ⟨before.flatMap Lexeme.text, c, ds, ?_, ⟨us ++ [.eof], ?_⟩, herror, ?_⟩
  · rw [← htext, ← List.flatMap_append, ← hcut, Lexeme.flatMap_cut]
  · have halone : Lexeme.Apart before [] := by simp [Lexeme.Apart]
    have hprefix := Lexeme.cut_resume hcut halone
    rw [List.append_nil, Lexeme.cut, List.append_nil] at hprefix
    rw [tokenize_eq, Scan.ofText, hprefix, hbefore]
    rfl
  · intro rest hlongest
    obtain ⟨es, hpiece, hnext⟩ := Lexeme.next_resume hlongest
    -- The first character behind the readable part is the same as before.
    have hsame : Lexeme.Apart before (c :: es) := hapart
    rw [hpiece, tokenize_eq_error_iff, Scan.ofText, Lexeme.cut_resume hcut hsame, Lexeme.cut, hnext,
      Scan.result_append, hbefore, Scan.result_cons, Nat.zero_add]
    simp only [Except.bind, herror, Except.map]

/-- The failure of an unreadable line names the leftmost problem.  Its position is one of the line,
and all characters before it can be read.  It is either a character outside every class, and then
no line that begins in the same way up to and with that character can be read; or it is the longest
run of digits and dots from that position on, and then it is the failure of every line that has
this run there. -/
theorem failure_leftmost {cs : List Char} {e : Failure} (h : tokenize cs = .error e) :
    ∃ position < cs.length, (∃ ts, tokenize (cs.take position) = .ok ts) ∧
      ((∃ c, e = .strayCharacter c position ∧ StrayAt cs position c ∧
          ∀ ds, ds.take (position + 1) = cs.take (position + 1) → tokenize ds = .error e) ∨
        ∃ run, e = .malformedNumber run position ∧ MalformedAt cs position run ∧
          ∀ rest, (∀ c ∈ rest.head?, ¬ (c.isDigit = true ∨ c = '.')) →
            tokenize (cs.take (position + run.length) ++ rest) = .error e) := by
  obtain ⟨a, c, ds, rfl, hreads, herror, hsame⟩ := exists_unreadable h
  refine ⟨a.length, by simp, by rwa [List.take_left], ?_⟩
  rcases Lexeme.next_error herror with ⟨hnext, he, hstray⟩ | ⟨run, hnext, he, hrun⟩
  · left
    rw [hnext] at hsame
    refine ⟨c, he, ⟨by simp, hstray.blank, hstray.mark, hstray.digit, hstray.letter⟩, ?_⟩
    intro es hes
    rw [List.take_length_add_append, List.take_succ_cons, List.take_zero] at hes
    have hline : es = a ++ ([c] ++ es.drop (a.length + 1)) := by
      rw [← List.append_assoc, ← hes, List.take_append_drop]
    rw [hline]
    exact hsame _ fun d _ => id
  · right
    rw [hnext] at hsame
    refine ⟨run, he, ⟨by simpa using hrun.longest, hrun.malformed⟩, ?_⟩
    intro rest hrest
    have hprefix : run <+: c :: ds := by
      rw [hrun.longest, List.drop_zero]
      exact List.takeWhile_prefix _
    have htake : (a ++ c :: ds).take (a.length + run.length) = a ++ run := by
      rw [List.take_length_add_append, ← List.prefix_iff_eq_take.mp hprefix]
    rw [htake, List.append_assoc]
    exact hsame rest hrest

/-- A digit behind a name belongs to it, so the run that is no number begins behind the digit. -/
theorem nameWithDigit_unreadable :
    let line := ['x', '1', '.', '2', '.', '3', '+']
    tokenize line = .error (.malformedNumber ['.', '2', '.', '3'] 2) ∧
      (∃ ts, tokenize (line.take 2) = .ok ts) ∧
      tokenize (line.take 6 ++ ['#']) = .error (.malformedNumber ['.', '2', '.', '3'] 2) := by
  intro line
  have hname : Lexeme.next 'x' line.tail = (.word ['x', '1'], line.drop 2) := rfl
  have hrun : Lexeme.next '.' (line.drop 3) = (.digits ['.', '2', '.', '3'], ['+']) := rfl
  have hline : tokenize line = .error (.malformedNumber ['.', '2', '.', '3'] 2) := by
    rw [tokenize_eq_error_iff, Scan.ofText, show line = 'x' :: line.tail from rfl, Lexeme.cut,
      hname, show line.drop 2 = '.' :: line.drop 3 from rfl, Lexeme.cut, hrun, Scan.result_cons,
      Scan.result_cons]
    rfl
  obtain ⟨position, -, hreads, ⟨c, he, -⟩ | ⟨run, he, -, hsame⟩⟩ := failure_leftmost hline
  · cases he
  · cases he
    exact ⟨hline, hreads, hsame ['#'] (by simp)⟩

end Calculator
