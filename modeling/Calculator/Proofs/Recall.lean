import Calculator.Proofs.History

/-! # Recalled entries

The keys that move the selection bring the input of an entry back into the line.  Entering it again
repeats the entry, provided that its input is neither a command nor carries the keyword; only an
entry that was entered with the keyword can have such an input.
-/
namespace Calculator

def Key.selects : Key → Bool
  | .up | .down | .pageUp | .pageDown => true
  | _ => false

structure Request.Plain (line : List Char) : Prop where
  command : Command.ofLine? line = none
  request : Request.ofLine line = ⟨false, line⟩

namespace Action

def Selects : Action → Prop
  | .event (.key press) => press.key.selects = true
  | _ => False

def Browses : Action → Prop
  | .event (.key press) => press.key.selects = true
  | _ => True

end Action

namespace Session

def Recalled (s : Session) : Prop :=
  ∃ entry, s.history[s.selected]? = some entry ∧ s.buffer = .ofText entry.input

structure Browsed (s t : Session) : Prop extends s.Keeps t where
  quitting : t.quitting = s.quitting
  helpShown : t.helpShown = s.helpShown

/-- From one session to the other the entry was repeated, and nothing else was done: its input has
given the same outcome again, at the end of the same history. -/
structure Repeats (s t : Session) (entry : Entry) : Prop where
  again : ∃ again, t.history = s.history ++ [again] ∧
    again.input = entry.input ∧ again.outcome = entry.outcome
  quitting : t.quitting = s.quitting
  helpShown : t.helpShown = s.helpShown

end Session

/-! ## Inputs that are evaluated as they stand -/

namespace Entry

variable {config : Config} {entry : Entry}

theorem exists_result (h : entry.outcome ≠ .missingExpression) :
    ∃ result, entry.outcome = .ofResult result := by
  cases houtcome : entry.outcome with
  | value x => exact ⟨.ok x, rfl⟩
  | failed e => exact ⟨.error e, rfl⟩
  | missingExpression => exact absurd houtcome h

/-- What was entered without the keyword can be entered again. -/
theorem Entered.plain (h : entry.Entered config) (hresult : entry.outcome ≠ .missingExpression)
    (hdetailed : entry.detailed = false) : Request.Plain entry.input := by
  obtain @⟨line, htrim, hne, hnone⟩ := h
  cases hkeyword : Text.sameLetters line Request.keyword with
  | true =>
    rw [ofLine_keyword hkeyword] at hresult
    exact absurd rfl hresult
  | false =>
    rw [ofLine_request htrim hne hkeyword] at hdetailed ⊢
    rcases (Request.asks line).length_lt_or hne with ⟨hmarked, -⟩ | hplain
    · exact absurd (hdetailed.symm.trans hmarked) Bool.false_ne_true
    · have hinput : (Entry.ofRequest config (Request.ofLine line)).input = line :=
        congrArg Request.expression hplain
      rw [hinput]
      exact ⟨hnone, hplain⟩

end Entry

/-! ## Looking through the history -/

namespace Session

variable {s t u : Session} {a : Action}

theorem Browsed.refl (s : Session) : s.Browsed s := ⟨.refl s, rfl, rfl⟩

theorem Browsed.trans (h : s.Browsed t) (h' : t.Browsed u) : s.Browsed u where
  config := h'.config.trans h.config
  history := h'.history.trans h.history
  quitting := h'.quitting.trans h.quitting
  helpShown := h'.helpShown.trans h.helpShown

theorem browsed_select (s : Session) (index : Nat) : s.Browsed (s.select index) :=
  ⟨⟨rfl, rfl⟩, rfl, rfl⟩

theorem recalled_select {index : Nat} (h : index < s.history.length) :
    (s.select index).Recalled := by
  have hentry := List.getElem?_eq_getElem h
  refine ⟨s.history[index], hentry, ?_⟩
  simp only [select, restore, hentry]

theorem navigate_up (hne : s.history ≠ []) : s.navigate (-1) = s.select (s.selected - 1) := by
  rw [navigate, if_neg (List.isEmpty_iff.not.mpr hne)]
  by_cases hfirst : 0 < s.selected
  · rw [if_pos ⟨by decide, hfirst⟩]
  · have hsame : s.selected - 1 = s.selected := by omega
    rw [if_neg (fun h => hfirst h.2), if_neg (fun h => absurd h.1 (by decide)), hsame]
    rfl

theorem navigate_down (h : s.selected < s.history.length) :
    s.navigate 1 = s.select (min (s.selected + 1) (s.history.length - 1)) := by
  have hne := List.length_pos_iff.mp (Nat.zero_lt_of_lt h)
  have hdown : ¬ ((1 : Int) < 0 ∧ 0 < s.selected) := fun h => absurd h.1 (by decide)
  rw [navigate, if_neg (List.isEmpty_iff.not.mpr hne), if_neg hdown]
  by_cases hlast : s.selected < s.history.length - 1
  · rw [if_pos ⟨by decide, hlast⟩, min_eq_left hlast]
  · have hsame : min (s.selected + 1) (s.history.length - 1) = s.selected := by omega
    rw [if_neg (fun h => hlast h.2), hsame]
    rfl

theorem exists_page (h : s.selected < s.history.length) (direction : Int) :
    ∃ index < s.history.length, s.page direction = s.select index := by
  have hne := List.length_pos_iff.mp (Nat.zero_lt_of_lt h)
  rw [page, if_neg (List.isEmpty_iff.not.mpr hne)]
  dsimp only
  split_ifs
  · exact ⟨s.selected - max (s.listHeight - 1) 1, by omega, rfl⟩
  · exact ⟨min (s.selected + max (s.listHeight - 1) 1) (s.history.length - 1), by omega, rfl⟩

section
variable [Text.Metric]

/-- A key that moves the selection selects an entry. -/
theorem exists_select (hmain : s.helpShown = false) (hselected : s.selected < s.history.length)
    (h : a.Selects) : ∃ index < s.history.length, s.act a = s.select index := by
  cases a with
  | event e =>
    cases e with
    | key press =>
      have hne := List.length_pos_iff.mp (Nat.zero_lt_of_lt hselected)
      obtain ⟨key, ctrl, alt⟩ := press
      simp only [act, handle, press_main hmain]
      cases key with
      | up => exact ⟨s.selected - 1, by omega, navigate_up hne⟩
      | down =>
        exact ⟨min (s.selected + 1) (s.history.length - 1), by omega, navigate_down hselected⟩
      | pageUp => exact exists_page hselected (-1)
      | pageDown => exact exists_page hselected 1
      | _ => exact absurd h Bool.false_ne_true
    | _ => exact h.elim
  | frame width height => exact h.elim

/-- Whatever else happens while looking through the history leaves the line and the selection. -/
theorem browsed_act (hmain : s.helpShown = false) (h : a.Browses) (hselects : ¬ a.Selects) :
    s.Browsed (s.act a) ∧ (s.act a).buffer = s.buffer ∧ (s.act a).selected = s.selected := by
  have hwheel (distance : Int) : s.wheel distance = s.scrollHistory distance := by
    simp only [wheel, hmain, Bool.false_eq_true, if_false]
  cases a with
  | event e =>
    cases e with
    | key press => exact absurd h hselects
    | wheelUp =>
      simp only [act, handle, hwheel]
      exact ⟨⟨⟨rfl, rfl⟩, rfl, rfl⟩, rfl, rfl⟩
    | wheelDown =>
      simp only [act, handle, hwheel]
      exact ⟨⟨⟨rfl, rfl⟩, rfl, rfl⟩, rfl, rfl⟩
    | other => exact ⟨.refl s, rfl, rfl⟩
  | frame width height =>
    have halike := Screen.drawSession_alike s width height
    exact ⟨⟨halike.keeps, halike.quitting, halike.helpShown⟩, halike.buffer, halike.selected⟩

/-- Looking through the history keeps it, and once the selection was moved the line holds the
input of the selected entry. -/
theorem browsed_acts (hmain : s.helpShown = false) (hselected : s.selected < s.history.length)
    {browsing : List Action} (h : ∀ a ∈ browsing, a.Browses) :
    s.Browsed (s.acts browsing) ∧
      (s.Recalled ∨ (∃ a ∈ browsing, a.Selects) → (s.acts browsing).Recalled) := by
  induction browsing generalizing s with
  | nil =>
    refine ⟨.refl s, ?_⟩
    rintro (hrecalled | ⟨a, ha, -⟩)
    · exact hrecalled
    · nomatch ha
  | cons a browsing ih =>
    have hrest := fun b hb => h b (List.mem_cons_of_mem a hb)
    by_cases hselects : a.Selects
    · obtain ⟨index, hlt, hindex⟩ := exists_select hmain hselected hselects
      obtain ⟨hbrowsed, hrecalled⟩ := ih (s := s.select index) hmain hlt hrest
      rw [acts, List.foldl_cons, hindex]
      exact ⟨(browsed_select s index).trans hbrowsed,
        fun _ => hrecalled (.inl (recalled_select hlt))⟩
    · obtain ⟨hact, hbuffer, hsame⟩ := browsed_act hmain (h a List.mem_cons_self) hselects
      obtain ⟨hbrowsed, hrecalled⟩ := ih (s := s.act a) (hact.helpShown.trans hmain)
        (by rwa [hact.history, hsame]) hrest
      refine ⟨hact.trans hbrowsed, ?_⟩
      rintro (⟨entry, hentry, hline⟩ | ⟨b, hb, hbselects⟩)
      · refine hrecalled (.inl ⟨entry, ?_, hbuffer.trans hline⟩)
        rwa [hact.history, hsame]
      · rcases List.mem_cons.mp hb with rfl | hb
        · exact absurd hbselects hselects
        · exact hrecalled (.inr ⟨b, hb, hbselects⟩)

/-! ## Every entry can be selected -/

theorem act_up (hmain : s.helpShown = false) (hne : s.history ≠ []) :
    s.act (.press .up) = s.select (s.selected - 1) :=
  (press_main hmain _).trans (navigate_up hne)

theorem act_down (hmain : s.helpShown = false) (h : s.selected < s.history.length) :
    s.act (.press .down) = s.select (min (s.selected + 1) (s.history.length - 1)) :=
  (press_main hmain _).trans (navigate_down h)

theorem selected_ups (hmain : s.helpShown = false) (hne : s.history ≠ []) (n : Nat) :
    s.Browsed (s.acts (List.replicate n (.press .up))) ∧
      (s.acts (List.replicate n (.press .up))).selected = s.selected - n := by
  induction n generalizing s with
  | zero => exact ⟨.refl s, rfl⟩
  | succ n ih =>
    obtain ⟨hbrowsed, hselected⟩ := ih (s := s.select (s.selected - 1)) hmain hne
    rw [acts, List.replicate_succ, List.foldl_cons, act_up hmain hne]
    refine ⟨(browsed_select s _).trans hbrowsed, hselected.trans ?_⟩
    simp only [select, restore]
    omega

theorem selected_downs (hmain : s.helpShown = false) (h : s.selected < s.history.length) (n : Nat) :
    (s.acts (List.replicate n (.press .down))).selected =
      min (s.selected + n) (s.history.length - 1) := by
  induction n generalizing s with
  | zero => exact (min_eq_left (Nat.le_sub_one_of_lt h)).symm
  | succ n ih =>
    have hlt : min (s.selected + 1) (s.history.length - 1) < s.history.length := by omega
    have hselected := ih (s := s.select _) hmain hlt
    rw [acts, List.replicate_succ, List.foldl_cons, act_down hmain h]
    refine hselected.trans ?_
    simp only [select, restore]
    omega

/-- Up to the first entry, and down from there. -/
theorem exists_keys (hmain : s.helpShown = false) {i : Nat} (hi : i < s.history.length) :
    ∃ keys : List Action, keys ≠ [] ∧ (∀ a ∈ keys, a.Selects) ∧ (s.acts keys).selected = i := by
  have hpos := Nat.zero_lt_of_lt hi
  obtain ⟨hbrowsed, hselected⟩ :=
    selected_ups hmain (List.length_pos_iff.mp hpos) (s.selected + 1)
  rw [Nat.sub_eq_zero_of_le (Nat.le_succ _)] at hselected
  refine ⟨List.replicate (s.selected + 1) (.press .up) ++ List.replicate i (.press .down),
    by simp, ?_, ?_⟩
  · intro a ha
    rcases List.mem_append.mp ha with ha | ha <;> rw [List.eq_of_mem_replicate ha] <;> rfl
  · have hdowns := selected_downs (s := s.acts (List.replicate (s.selected + 1) (.press .up)))
      (hbrowsed.helpShown.trans hmain) (by rwa [hbrowsed.history, hselected]) i
    rw [acts, List.foldl_append]
    refine hdowns.trans ?_
    rw [hselected, hbrowsed.history]
    omega

end

/-! ## Entering what was recalled -/

theorem Repeats.grown {entry : Entry} (h : s.Repeats t entry) :
    s.history.length < t.history.length := by
  obtain ⟨again, hhistory, -⟩ := h.again
  rw [hhistory, List.length_append]
  exact Nat.lt_succ_self _

theorem repeats_submit_iff {entry : Entry} (hentered : entry.Entered s.config)
    (hresult : entry.outcome ≠ .missingExpression) (hline : s.line = entry.input) :
    s.Repeats s.submit entry ↔ Request.Plain entry.input := by
  have hfaithful := hentered.faithful
  have hne : s.line ≠ [] := by
    obtain ⟨c, hc, -⟩ := hfaithful.visible
    rw [hline]
    exact List.ne_nil_of_mem hc
  rw [← hline]
  constructor
  · intro h
    obtain ⟨again, hhistory, hinput, houtcome⟩ := h.again
    obtain ⟨-, hnone, hgrown, -⟩ := s.enters.grown h.grown
    obtain rfl : again = Entry.ofLine s.config s.line := by
      rw [hhistory, List.append_cancel_left_eq] at hgrown
      exact List.singleton_inj.mp hgrown
    cases hkeyword : Text.sameLetters s.line Request.keyword with
    | true =>
      rw [Entry.ofLine_keyword hkeyword] at houtcome
      exact absurd houtcome.symm hresult
    | false =>
      rw [Entry.ofLine_request s.trimmed_line hne hkeyword, ← hline] at hinput
      rcases (Request.asks s.line).length_lt_or hne with ⟨-, hlt⟩ | hplain
      · rw [show (Request.ofLine s.line).expression = s.line from hinput] at hlt
        exact absurd hlt (lt_irrefl _)
      · exact ⟨hnone, hplain⟩
  · intro hplain
    have hkeyword : Text.sameLetters s.line Request.keyword = false := by
      by_contra h
      have hnil := (Request.expression_eq_nil_iff s.trimmed_line hne).mpr
        (Bool.eq_true_of_not_eq_false h)
      rw [hplain.request] at hnil
      exact hne hnil
    obtain ⟨result, hentry⟩ := Entry.exists_result hresult
    rw [submit_request hne hplain.command hkeyword,
      Entry.ofLine_request s.trimmed_line hne hkeyword, hplain.request]
    refine ⟨⟨_, rfl, hline, ?_⟩, rfl, rfl⟩
    rw [hentry, ← (hfaithful.evaluated result hentry).1, ← hline]
    rfl

end Session

/-- On the main screen every entry with a result can be selected with the history keys.  However
that is done, entering the recalled line repeats the entry, leaves the others as they are and does
nothing else, if and only if the input of the entry is evaluated as it stands; and it is, if the entry
was entered without the keyword. -/
theorem recalled_repeats [Text.Metric] (config : Config) (actions : List Action) :
    let s := Session.acts { config } actions
    s.helpShown = false → ∀ i entry, s.history[i]? = some entry →
      entry.outcome ≠ .missingExpression →
      (∃ keys : List Action, keys ≠ [] ∧ (∀ a ∈ keys, a.Selects) ∧ (s.acts keys).selected = i) ∧
      (∀ browsing : List Action, (∀ a ∈ browsing, a.Browses) → (∃ a ∈ browsing, a.Selects) →
        (s.acts browsing).selected = i →
        (s.Repeats ((s.acts browsing).act (.press .enter)) entry ↔
          Request.Plain entry.input)) ∧
      (entry.detailed = false → Request.Plain entry.input) := by
  intro s hmain i entry hentry hresult
  have hwell : s.WellFormed := ((Session.wellFormed_initial config).acts actions).1
  have hrecorded : s.Recorded := ((Session.recorded_initial config).acts actions).1
  have hi := (List.getElem?_eq_some_iff.mp hentry).1
  have hentered := hrecorded entry (List.mem_of_getElem? hentry)
  refine ⟨Session.exists_keys hmain hi, ?_, hentered.plain hresult⟩
  intro browsing hbrowses hselects hselected
  have hlt : s.selected < s.history.length := hwell.selected_lt (Nat.zero_lt_of_lt hi)
  obtain ⟨hbrowsed, hrecalled⟩ := Session.browsed_acts hmain hlt hbrowses
  obtain ⟨entry', hentry', hbuffer⟩ := hrecalled (.inr hselects)
  generalize s.acts browsing = t at *
  obtain rfl : entry' = entry := by
    rw [hbrowsed.history, hselected, hentry] at hentry'
    exact (Option.some.inj hentry').symm
  have hline : t.line = entry'.input := by
    rw [Session.line, hbuffer]
    exact hentered.faithful.trimmed
  have henter : t.act (.press .enter) = t.submit :=
    Session.act_eq_submit ⟨hbrowsed.helpShown.trans hmain, rfl⟩
  rw [henter, ← Session.repeats_submit_iff (hbrowsed.config ▸ hentered) hresult hline]
  constructor
  · rintro ⟨hagain, hquitting, hhelp⟩
    exact ⟨hbrowsed.history ▸ hagain, hquitting.trans hbrowsed.quitting.symm,
      hhelp.trans hbrowsed.helpShown.symm⟩
  · rintro ⟨hagain, hquitting, hhelp⟩
    exact ⟨hbrowsed.history ▸ hagain, hquitting.trans hbrowsed.quitting,
      hhelp.trans hbrowsed.helpShown⟩

/-- A sum that was entered with the keyword is repeated without it. -/
theorem detailed_sum_repeats :
    let s := Session.acts {} (Action.typing "details 2+3".toList ++ [.press .enter])
    let entry := Entry.ofLine {} "details 2+3".toList
    s.helpShown = false ∧ s.history[0]? = some entry ∧ entry.outcome ≠ .missingExpression ∧
      s.Repeats ((s.acts [.press .pageUp, .frame 50 10]).act (.press .enter)) entry := by
  intro s entry
  have hmain : s.helpShown = false := rfl
  have hentry : s.history[0]? = some entry := rfl
  have hresult : entry.outcome ≠ .missingExpression := Entry.ofResult_ne_missing _
  have hselected : (s.acts [.press .pageUp, .frame 50 10]).selected = 0 := by decide
  have hplain : Request.Plain entry.input := ⟨by decide, rfl⟩
  have hbrowses : ∀ a ∈ [Action.press .pageUp, .frame 50 10], a.Browses :=
    List.forall_mem_cons.mpr ⟨rfl, List.forall_mem_singleton.mpr trivial⟩
  have hselects : ∃ a ∈ [Action.press .pageUp, .frame 50 10], a.Selects :=
    ⟨.press .pageUp, List.mem_cons_self, rfl⟩
  have hall := recalled_repeats {} (Action.typing "details 2+3".toList ++ [.press .enter])
  obtain ⟨-, hrepeats, -⟩ := hall hmain 0 entry hentry hresult
  exact ⟨hmain, hentry, hresult, (hrepeats _ hbrowses hselects hselected).mpr hplain⟩

/-- The word that quits, entered with the keyword, is evaluated.  When it is recalled and entered
again, it quits. -/
theorem quit_not_repeated :
    let s := Session.acts {} (Action.typing "details quit".toList ++ [.press .enter])
    let entry := Entry.ofLine {} "details quit".toList
    s.helpShown = false ∧ s.history = [entry] ∧ entry.outcome ≠ .missingExpression ∧
      (s.acts [.press .up]).selected = 0 ∧ s.quitting = false ∧
      ((s.acts [.press .up]).act (.press .enter)).quitting = true ∧
      ¬ s.Repeats ((s.acts [.press .up]).act (.press .enter)) entry := by
  intro s entry
  refine ⟨rfl, rfl, Entry.ofResult_ne_missing _, rfl, rfl, rfl, ?_⟩
  intro h
  exact Bool.false_ne_true h.quitting.symm

end Calculator
