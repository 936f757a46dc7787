import Calculator.Proofs.LineHistory

/-! # Recalled lines

Every line of the history was entered, and has been answered and stored then.  The keys that move
the index bring it back into the buffer; entering it again answers and stores it once more.
-/
namespace Calculator

def KeyPress.arrows : List KeyPress := [{ key := .up }, { key := .down }]

namespace LineEditor

/-- The keys recall a line: they edit nothing, and lead from elsewhere to its index. -/
structure Recalls (e : LineEditor) (keys : List KeyPress) (index : Nat) : Prop where
  unedited : ∀ p ∈ keys, p.edits = false
  moved : ∃ n, (e.presses (keys.take n)).index ≠ index
  arrived : (e.presses keys).index = index

def Shown (e : LineEditor) : Prop := e.buffer.text = e.history[e.index]?.getD []

/-- With the key of the given index the line is entered.  It is evaluated as a request under the
configuration, which is what is written behind the line, and stored. -/
structure Answered [Text.Metric] (config : Config) (keys : List KeyPress) (n : Nat)
    (line : List Char) : Prop where
  key : keys[n]? = some .enter
  entered : (presses { config } (keys.take n)).line = line
  written : ∀ row, (run config row keys)[n + 1]? = some
    ((presses { config } (keys.take n)).redraw row ++
      (answer config (Request.ofLine line) ++ newPrompt))
  stored : (presses { config } (keys.take (n + 1))).history =
    (presses { config } (keys.take n)).history ++ [line]

variable {e : LineEditor} {line : List Char} {p : KeyPress} {keys : List KeyPress}
  {result : LineEditor × List Char}

/-! ## Keys that edit nothing -/

theorem Keeps.refl (e : LineEditor) : e.Keeps e := ⟨rfl, rfl, rfl⟩

theorem Keeps.trans {e₁ e₂ e₃ : LineEditor} (h : e₁.Keeps e₂) (h' : e₂.Keeps e₃) : e₁.Keeps e₃ where
  config := h'.config.trans h.config
  history := h'.history.trans h.history
  ended := h'.ended.trans h.ended

theorem Pressed.keeps (h : e.Pressed p result) (hp : p.edits = false) : e.Keeps result.1 := by
  cases h with
  | entered henter _ =>
    rw [henter] at hp
    cases hp
  | stopped hedits => exact absurd (hp.symm.trans hedits) Bool.false_ne_true
  | edited hedits _ _ => exact absurd (hp.symm.trans hedits) Bool.false_ne_true
  | moved => exact ⟨rfl, rfl, rfl⟩
  | older => exact e.keeps_older
  | newer => exact e.keeps_newer

theorem shown_restore {index : Nat} (h : index < e.history.length) : (e.restore index).Shown := by
  have hline : e.history[index]? = some e.history[index] := List.getElem?_eq_getElem h
  rw [restore_eq hline, Shown, hline]
  rfl

theorem shown_newer (e : LineEditor) : e.newer.Shown := by
  unfold newer
  split_ifs with hlast
  · exact shown_restore (by omega)
  · simp [Shown]

/-- A key that moves the index shows the line there. -/
theorem Pressed.shown (h : e.Pressed p result) (hp : p.edits = false) (he : e.WellFormed)
    (hmoved : result.1.index ≠ e.index ∨ e.Shown) : result.1.Shown := by
  cases h with
  | entered henter _ =>
    rw [henter] at hp
    cases hp
  | stopped hedits => exact absurd (hp.symm.trans hedits) Bool.false_ne_true
  | edited hedits _ _ => exact absurd (hp.symm.trans hedits) Bool.false_ne_true
  | moved b _ htext => exact htext.trans (hmoved.resolve_left fun h => h rfl)
  | older =>
    have hindex := he.index
    by_cases hpos : 0 < e.index
    · rw [LineEditor.older, if_pos hpos]
      exact shown_restore (by omega)
    · have hsame : e.older = e := if_neg hpos
      rw [hsame] at hmoved ⊢
      exact hmoved.resolve_left fun h => h rfl
  | newer => exact e.shown_newer

/-- Once the index was elsewhere, the line where it has arrived is shown. -/
theorem browsed_presses (he : e.WellFormed) (hkeys : ∀ p ∈ keys, p.edits = false) :
    e.Keeps (e.presses keys) ∧
      ((∃ n, (e.presses (keys.take n)).index ≠ (e.presses keys).index) ∨ e.Shown →
        (e.presses keys).Shown) := by
  induction keys generalizing e with
  | nil =>
    refine ⟨.refl e, ?_⟩
    rintro (⟨n, hn⟩ | hshown)
    · rw [List.take_nil] at hn
      exact absurd rfl hn
    · exact hshown
  | cons p keys ih =>
    have hp := hkeys p List.mem_cons_self
    have hpressed := e.pressed p
    obtain ⟨hkeeps, hrest⟩ :=
      ih (hpressed.wellFormed he) fun q hq => hkeys q (List.mem_cons_of_mem p hq)
    rw [presses_cons]
    refine ⟨(hpressed.keeps hp).trans hkeeps, fun hmoved => hrest ?_⟩
    by_cases hnext : (e.press p).1.index ≠ e.index ∨ e.Shown
    · exact .inr (hpressed.shown hp he hnext)
    · -- Nothing is shown yet, so that the index has still to move.
      obtain ⟨hindex, hnot⟩ := not_or.mp hnext
      obtain ⟨n, hn⟩ := hmoved.resolve_right hnot
      cases n with
      | zero =>
        refine .inl ⟨0, ?_⟩
        rwa [List.take_zero, presses, List.foldl_nil, not_ne_iff.mp hindex]
      | succ n =>
        rw [List.take_succ_cons, presses_cons] at hn
        exact .inl ⟨n, hn⟩

theorem Recalls.browsed {index : Nat} (h : e.Recalls keys index) (he : e.WellFormed) :
    e.Keeps (e.presses keys) ∧ (e.presses keys).buffer.text = e.history[index]?.getD [] := by
  obtain ⟨hkeeps, hshown⟩ := browsed_presses he h.unedited
  refine ⟨hkeeps, ?_⟩
  obtain ⟨n, hn⟩ := h.moved
  rw [← h.arrived] at hn
  have htext := hshown (.inl ⟨n, hn⟩)
  rwa [Shown, hkeeps.history, h.arrived] at htext

/-! ## Every line can be recalled -/

theorem index_older (e : LineEditor) : e.older.index = e.index - 1 := by
  unfold older
  split_ifs with hpos
  · rfl
  · omega

theorem index_newer (he : e.WellFormed) :
    e.newer.index = min (e.index + 1) e.history.length := by
  have hindex := he.index
  unfold newer
  split_ifs with hlast
  · rw [min_eq_left (by omega)]
    rfl
  · rw [min_eq_right (by omega)]

theorem index_ups (e : LineEditor) (n : Nat) :
    (e.presses (List.replicate n { key := .up })).index = e.index - n := by
  induction n generalizing e with
  | zero => rfl
  | succ n ih =>
    rw [List.replicate_succ, presses_cons]
    refine (ih e.older).trans ?_
    rw [e.index_older]
    omega

theorem index_downs (he : e.WellFormed) (n : Nat) :
    (e.presses (List.replicate n { key := .down })).index = min (e.index + n) e.history.length := by
  induction n generalizing e with
  | zero => exact (min_eq_left he.index).symm
  | succ n ih =>
    rw [List.replicate_succ, presses_cons]
    refine (ih e.wellFormed_newer.1).trans ?_
    rw [index_newer he, e.keeps_newer.history]
    omega

/-- Down to the end of the history, and up from there. -/
theorem exists_recalls (he : e.WellFormed) {index : Nat} (hindex : index < e.history.length) :
    ∃ keys : List KeyPress, (∀ p ∈ keys, p ∈ KeyPress.arrows) ∧ e.Recalls keys index := by
  let downs : List KeyPress := List.replicate e.history.length { key := .down }
  let ups : List KeyPress := List.replicate (e.history.length - index) { key := .up }
  have hdowns : (e.presses downs).index = e.history.length := by
    rw [index_downs he]
    omega
  have hmem : ∀ p ∈ downs ++ ups, p ∈ KeyPress.arrows := by
    intro p hp
    rcases List.mem_append.mp hp with hp | hp <;> rw [List.eq_of_mem_replicate hp]
    · exact List.mem_cons_of_mem _ List.mem_cons_self
    · exact List.mem_cons_self
  have hunedited : ∀ p ∈ KeyPress.arrows, p.edits = false :=
    List.forall_mem_cons.mpr ⟨rfl, List.forall_mem_singleton.mpr rfl⟩
  refine ⟨downs ++ ups, hmem, fun p hp => hunedited p (hmem p hp), ⟨downs.length, ?_⟩, ?_⟩
  · rw [List.take_left, hdowns]
    exact hindex.ne'
  · rw [presses_append, index_ups, hdowns]
    omega

/-! ## Entering a line -/

theorem press_enter (h : Storable e.line) :
    e.press .enter =
      ({ e with buffer := {}, history := e.history ++ [e.line], index := e.history.length + 1 },
        answer e.config (Request.ofLine e.line) ++ newPrompt) := submit_storable h

/-- What is written for a key that is reached before the end. -/
theorem transcript_getElem? [Text.Metric] (row : Nat) {rest : List KeyPress}
    (h : (e.presses keys).ended = false) :
    (transcript row e (keys ++ p :: rest))[keys.length]? =
      some ((e.presses keys).redraw row ++ ((e.presses keys).press p).2) := by
  induction keys generalizing e with
  | nil => rfl
  | cons q keys ih =>
    have hnext : (e.press q).1.ended = false := by
      by_contra hended
      rw [presses_cons, ended_presses (eq_true_of_ne_false hended)] at h
      cases h
    rw [List.cons_append, transcript, List.length_cons, List.getElem?_cons_succ, hnext]
    exact ih h

theorem answered [Text.Metric] (config : Config) {before after : List KeyPress}
    (hended : (presses { config } before).ended = false)
    (hline : Storable (presses { config } before).line) :
    Answered config (before ++ .enter :: after) before.length
      (presses { config } before).line where
  key := by simp
  entered := by rw [List.take_left]
  written row := by
    rw [run, List.getElem?_cons_succ, transcript_getElem? row hended, List.take_left,
      press_enter hline, config_presses]
  stored := by
    rw [List.take_left, List.append_cons, List.take_left' (by simp), presses_append, presses_cons,
      press_enter hline]
    rfl

/-! ## Every line was entered -/

/-- A line that is in the history was entered, and has stayed there since. -/
theorem exists_entered {config : Config} {i : Nat}
    (h : (presses { config } keys).history[i]? = some line) :
    ∃ before after, keys = before ++ .enter :: after ∧
      (presses { config } before).line = line ∧ (presses { config } before).history.length = i ∧
      ∀ n, before.length < n → (presses { config } (keys.take n)).history[i]? = some line := by
  induction keys using List.reverseRecOn with
  | nil => cases h
  | append_singleton keys p ih =>
    by_cases hold : (presses { config } keys).history[i]? = some line
    · obtain ⟨before, after, rfl, hline, hlength, hstays⟩ := ih hold
      refine ⟨before, after ++ [p], by simp, hline, hlength, fun n hn => ?_⟩
      by_cases hle : n ≤ (before ++ .enter :: after).length
      · rw [List.take_append_of_le_length hle]
        exact hstays n hn
      · have hall : (before ++ .enter :: after ++ [p]).length ≤ n := by
          rw [List.length_append]
          exact not_le.mp hle
        rwa [List.take_of_length_le hall]
    · -- The last key has stored the line at the end.
      have hrevises := ((presses { config } keys).pressed p).revises
      have hlast : ((presses { config } keys).press p).1.history[i]? = some line := by
        rwa [presses_append] at h
      generalize ((presses { config } keys).press p).1.history = history at hrevises hlast
      cases hrevises with
      | kept => exact absurd hlast hold
      | cleared => cases hlast
      | stored hp _ =>
        rcases lt_trichotomy i (presses { config } keys).history.length with hlt | heq | hgt
        · rw [List.getElem?_append_left hlt] at hlast
          exact absurd hlast hold
        · rw [heq, List.getElem?_concat_length, Option.some_inj] at hlast
          refine ⟨keys, [], by rw [hp], hlast, heq.symm, fun n hn => ?_⟩
          have hall : (keys ++ [p]).length ≤ n := by
            rw [List.length_append]
            exact hn
          rwa [List.take_of_length_le hall]
        · have hnone : ((presses { config } keys).history ++
              [(presses { config } keys).line])[i]? = none := by
            rw [List.getElem?_eq_none_iff, List.length_append]
            exact hgt
          rw [hnone] at hlast
          cases hlast

end LineEditor

/-- The history of the line editor is safe and repeats exactly.  After any keys the index and the
cursor are in their ranges, no access to the history or to the line has failed, and every stored line
is one that is evaluated.  While the program runs, each of them can be recalled, and there is a key
with which it was entered and since which it is stored; however it is recalled without an edit, the
enter key then evaluates the same request, stores an equal line and writes the same text. -/
theorem line_history_repeats [Text.Metric] (config : Config) (keys : List KeyPress) :
    let e := LineEditor.presses { config } keys
    (e.index ≤ e.history.length ∧ e.buffer.cursor ≤ e.buffer.text.length) ∧
    LineEditor.handles? { config } keys = some e ∧
    (∀ line ∈ e.history, LineEditor.Storable line) ∧
    (e.ended = false → ∀ i line, e.history[i]? = some line →
      (∃ arrows : List KeyPress, (∀ p ∈ arrows, p ∈ KeyPress.arrows) ∧ e.Recalls arrows i) ∧
      (∃ n, LineEditor.Answered config keys n line ∧
        (LineEditor.presses { config } (keys.take n)).history.length = i ∧
        ∀ m, n < m → (LineEditor.presses { config } (keys.take m)).history[i]? = some line) ∧
      ∀ browsing, e.Recalls browsing i →
        LineEditor.Answered config (keys ++ browsing ++ [.enter]) (keys ++ browsing).length
          line) := by
  intro e
  obtain ⟨hwell, hhandles⟩ := (LineEditor.wellFormed_initial config).presses keys
  have hnone : ∀ line ∈ ({ config } : LineEditor).history, LineEditor.Storable line :=
    fun _ h => nomatch h
  have hstorable := LineEditor.storable_presses hnone keys
  refine ⟨⟨hwell.index, hwell.cursor⟩, hhandles, hstorable, ?_⟩
  intro hended i line hline
  have hi := (List.getElem?_eq_some_iff.mp hline).1
  have hlineStorable := hstorable line (List.mem_of_getElem? hline)
  refine ⟨LineEditor.exists_recalls hwell hi, ?_, ?_⟩
  · obtain ⟨before, after, rfl, rfl, hlength, hstays⟩ := LineEditor.exists_entered hline
    have hbefore : (LineEditor.presses { config } before).ended = false := by
      by_contra h
      have hend := LineEditor.ended_presses (eq_true_of_ne_false h) (.enter :: after)
      rw [← LineEditor.presses_append] at hend
      exact Bool.false_ne_true (hended.symm.trans hend)
    refine ⟨before.length, LineEditor.answered config hbefore hlineStorable, ?_, hstays⟩
    rwa [List.take_left]
  · intro browsing hrecalls
    obtain ⟨hkeeps, htext⟩ := hrecalls.browsed hwell
    rw [← LineEditor.presses_append] at hkeeps htext
    have hagain : (LineEditor.presses { config } (keys ++ browsing)).line = line := by
      rw [LineEditor.line, htext, hline]
      exact hlineStorable.trimmed
    have hanswered : LineEditor.Answered config (keys ++ browsing ++ [.enter])
        (keys ++ browsing).length (LineEditor.presses { config } (keys ++ browsing)).line :=
      LineEditor.answered config (hkeeps.ended.trans hended) (hagain ▸ hlineStorable)
    rwa [hagain] at hanswered

/-- Trimmed when it is entered, the line is stored again as it was. -/
example :
    (LineEditor.presses {} [{ key := .char '2' }, { key := .char ' ' }, .enter, { key := .up },
      .enter]).history = [['2'], ['2']] := rfl

end Calculator
