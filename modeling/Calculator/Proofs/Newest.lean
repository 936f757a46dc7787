import Calculator.Proofs.History
import Calculator.Proofs.Listing

/-! # The newest entry

An entry with a result is selected as soon as it is in the history, and the list is moved to it.
The entry of the bare keyword is not.
-/
namespace Calculator

namespace Session

variable {s : Session}

/-- What becomes of the selection when the history grows. -/
theorem submit_selection (hgrown : s.history.length < s.submit.history.length) :
    ∃ entry, s.submit.history = s.history ++ [entry] ∧ entry.Entered s.config ∧
      (entry.outcome = .missingExpression ∧
          s.submit.selected = s.selected ∧ s.submit.followNewest = s.followNewest ∨
        entry.outcome ≠ .missingExpression ∧
          s.submit.selected = s.history.length ∧ s.submit.followNewest = true) := by
  obtain ⟨hne, hnone, hhistory, -⟩ := s.enters.grown hgrown
  refine ⟨_, hhistory, .ofLine s.trimmed_line hne hnone, ?_⟩
  cases hkeyword : Text.sameLetters s.line Request.keyword with
  | true =>
    rw [submit_keyword hnone hkeyword, Entry.ofLine_keyword hkeyword]
    exact .inl ⟨rfl, rfl, rfl⟩
  | false =>
    rw [submit_request hne hnone hkeyword, Entry.ofLine_request s.trimmed_line hne hkeyword]
    exact .inr ⟨Entry.ofResult_ne_missing _, rfl, rfl⟩

/-- The selection is an entry of the history, so it is not the one that is yet to come. -/
theorem WellFormed.selected_eq_length_iff (h : s.WellFormed) :
    s.selected = s.history.length ↔ s.history = [] := by
  have hselected := h.selected
  by_cases hnil : s.history = []
  · rw [if_pos hnil] at hselected
    simp [hnil, hselected]
  · rw [if_neg hnil] at hselected
    simp only [hnil, iff_false]
    omega

end Session

open Screen in
/-- A line that makes the history longer adds one entry.  It is selected and the list is told to
move to it if and only if it has a result, or if it is the first entry and the list was still told
to move; the bare keyword leaves the selection and the list as they are.  Where the entry is selected
and the list moves, the next frame highlights it and shows it from its first row on. -/
theorem newest_selected [Text.Metric] (config : Config) (actions : List Action) :
    let s := Session.acts { config } actions
    s.history.length < s.submit.history.length →
    ∃ entry, s.submit.history = s.history ++ [entry] ∧
      (s.submit.selected = s.history.length ∧ s.submit.followNewest = true ↔
        entry.outcome ≠ .missingExpression ∨ s.history = [] ∧ s.followNewest = true) ∧
      (entry.outcome = .missingExpression →
        s.submit.selected = s.selected ∧ s.submit.followNewest = s.followNewest) ∧
      (s.submit.selected = s.history.length → s.submit.followNewest = true →
        s.helpShown = false → ∀ width height, minWidth ≤ width → minHeight ≤ height →
          (drawSession s.submit width height).2.Presents width height entry) := by
  intro s hgrown
  have hwell : s.WellFormed := ((Session.wellFormed_initial config).acts actions).1
  obtain ⟨-, -, -, -, hhelp⟩ := s.enters.grown hgrown
  obtain ⟨entry, hhistory, hentered, hselection⟩ := Session.submit_selection hgrown
  refine ⟨entry, hhistory, ?_, ?_, ?_⟩
  · rcases hselection with ⟨hmissing, hselected, hfollow⟩ | ⟨hresult, hselected, hfollow⟩
    · rw [hselected, hfollow, hwell.selected_eq_length_iff]
      simp [hmissing]
    · simp [hselected, hfollow, hresult]
  · intro hmissing
    rcases hselection with ⟨-, hselection⟩ | ⟨hresult, -⟩
    · exact hselection
    · exact absurd hmissing hresult
  · intro hselected hfollow hmain width height hwidth hheight
    obtain ⟨c, hc, hvisible⟩ := hentered.faithful.visible
    exact drawSession_presents hhistory hselected hfollow (hhelp.trans hmain) hc hvisible hwidth
      hheight

open Screen in
theorem sum_selected :
    let s := Session.acts {} (Action.typing "2+3".toList)
    s.submit.selected = 0 ∧ s.submit.followNewest = true ∧
      ∃ entry, s.submit.history = [entry] ∧
        (drawSession s.submit 50 10).2.Presents 50 10 entry := by
  intro s
  obtain ⟨entry, hhistory, -, -, hpresents⟩ :=
    newest_selected {} (Action.typing "2+3".toList) (by decide)
  exact ⟨by decide, by decide, entry, hhistory,
    hpresents (by decide) (by decide) (by decide) 50 10 le_rfl le_rfl⟩

/-- The bare keyword behind another entry: the list shows the older one as selected and does not
move. -/
theorem keyword_not_selected :
    let typed := Action.typing "details".toList
    let s := Session.acts {}
      (Action.typing "2+3".toList ++ .press .enter :: .frame 50 10 :: typed)
    s.history.length < s.submit.history.length ∧
      s.submit.selected < s.history.length ∧ s.submit.followNewest = false := by
  decide

end Calculator
