import Calculator.Proofs.History
import Calculator.Proofs.Listing

/-! # What can be seen of the history

Wherever the list is scrolled, its window stays with the first row of the selected entry.  So a row
can be brought on the screen if and only if an entry begins less than the height of the box away
from it, and what lies deeper in a long entry is never seen.
-/
namespace Calculator
open Screen

namespace Session

def timed (s : Session) (clock : Nat → Nat) : Session :=
  { s with history := s.history.mapIdx fun i entry => { entry with elapsed := clock i } }

def aimed (s : Session) (selected offset : Nat) : Session :=
  { s with selected, historyScroll := offset, followNewest := false }

def Visible (s : Session) : Prop :=
  ∀ entry ∈ s.history, ∃ c ∈ entry.input, Text.isBlank c = false

variable {s : Session}

theorem Recorded.visible (h : s.Recorded) : s.Visible :=
  fun entry hentry => (h entry hentry).faithful.visible

theorem Visible.timed (h : s.Visible) (clock : Nat → Nat) : (s.timed clock).Visible := by
  intro entry hentry
  obtain ⟨i, hi, rfl⟩ := List.mem_mapIdx.mp hentry
  exact h s.history[i] (List.getElem_mem hi)

theorem visible_reached [Text.Metric] (config : Config) (actions : List Action)
    (clock : Nat → Nat) : ((Session.acts { config } actions).timed clock).Visible :=
  ((recorded_initial config).acts actions).1.visible.timed clock

theorem selected_lt_reached [Text.Metric] (config : Config) (actions : List Action)
    (clock : Nat → Nat) (hne : ((Session.acts { config } actions).timed clock).history ≠ []) :
    ((Session.acts { config } actions).timed clock).selected <
      ((Session.acts { config } actions).timed clock).history.length := by
  have hwell := ((wellFormed_initial config).acts actions).1
  have hlength : ((Session.acts { config } actions).timed clock).history.length =
      (Session.acts { config } actions).history.length := List.length_mapIdx
  have hpos := List.length_pos_iff.mpr hne
  rw [hlength] at hpos ⊢
  exact hwell.selected_lt hpos

theorem Visible.exists_selects [Text.Metric] (h : s.Visible)
    (hselected : s.selected < s.history.length) (width : Nat) : ∃ start, Selects s width start := by
  obtain ⟨c, hc, hvisible⟩ := h _ (List.getElem_mem hselected)
  exact Screen.exists_selects width (List.getElem?_eq_getElem hselected) hc hvisible

end Session

namespace Screen
variable [Text.Metric] {s : Session} {width height r : Nat}

omit [Text.Metric] in
/-- A window that is scrolled to the row, or to the selected one if that comes first, contains
both. -/
theorem window_reaches {count selected : Nat} (hr : r < count) (hselected : selected < count)
    (habove : selected < r + height) (hbelow : r < selected + height) :
    (window count height (min r selected) selected).1 ≤ r ∧
      r < (window count height (min r selected) selected).2 := by
  unfold window
  dsimp only
  split_ifs <;> dsimp only <;> omega

/-- The window has no room for a row that is further away from the selected one. -/
theorem ShowsAt.near {y start : Nat} (h : ShowsAt s width height r y)
    (hstart : Selects s (width - 2) start) (hheight : minHeight ≤ height) :
    start < r + (height - 6) ∧ r < start + (height - 6) := by
  have hroom := listHeight_pos hheight
  obtain ⟨hfirst, hlast, -, hle⟩ := hstart.shownPart_contains hroom
  have hr := h.first
  have hr' := h.last
  omega

theorem exists_near_of_showsAt (h : s.Visible) (hheight : minHeight ≤ height)
    {selected offset y : Nat} (hselected : selected < s.history.length)
    (hshows : ShowsAt (s.aimed selected offset) width height r y) :
    ∃ start ∈ (HistoryList.ofEntries (width - 2) s.history).starts,
      start < r + (height - 6) ∧ r < start + (height - 6) := by
  have haimed : (s.aimed selected offset).Visible := h
  obtain ⟨start, hstart⟩ := haimed.exists_selects hselected (width - 2)
  exact ⟨start, List.mem_of_getElem? hstart.begins, hshows.near hstart hheight⟩

theorem exists_showsAt (h : s.Visible) (hmain : s.helpShown = false) (hwidth : minWidth ≤ width)
    (hheight : minHeight ≤ height) {start : Nat}
    (hr : r < (HistoryList.ofEntries (width - 2) s.history).items.length)
    (hstart : start ∈ (HistoryList.ofEntries (width - 2) s.history).starts)
    (habove : start < r + (height - 6)) (hbelow : r < start + (height - 6)) :
    ∃ selected offset y, selected < s.history.length ∧
      ShowsAt (s.aimed selected offset) width height r y := by
  obtain ⟨i, hi⟩ := List.mem_iff_getElem?.mp hstart
  have hlength := (List.getElem?_eq_some_iff.mp hi).1
  simp only [HistoryList.ofEntries, length_starts, List.length_map] at hlength
  have haimed : (s.aimed i (min r start)).Visible := h
  obtain ⟨start', hselects⟩ := haimed.exists_selects hlength (width - 2)
  obtain rfl : start = start' := Option.some.inj (hi.symm.trans hselects.begins)
  have hpart : shownPart (s.aimed i (min r start)) (width - 2) (height - 6) =
      window (HistoryList.ofEntries (width - 2) s.history).items.length (height - 6)
        (min r start) start := by
    simp only [shownPart, hselects.begins, Option.getD_some]
    rfl
  obtain ⟨hfirst, hlast⟩ := window_reaches hr hselects.lt habove hbelow
  rw [← hpart] at hfirst hlast
  exact ⟨i, min r start, _, hlength, hselects.showsAt hmain hwidth hheight hfirst hlast⟩

end Screen

/-- A row of the history list is shown for some selected entry and some offset of the list if and
only if an entry begins less than the height of the box away from it, above or below. -/
theorem row_shown_iff [Text.Metric] (config : Config) (actions : List Action) (clock : Nat → Nat) :
    let s := (Session.acts { config } actions).timed clock
    s.helpShown = false →
    ∀ width height, minWidth ≤ width → minHeight ≤ height →
      ∀ r < (HistoryList.ofEntries (width - 2) s.history).items.length,
        ((∃ selected offset y, selected < s.history.length ∧
            ShowsAt (s.aimed selected offset) width height r y) ↔
          ∃ start ∈ (HistoryList.ofEntries (width - 2) s.history).starts,
            start < r + (height - 6) ∧ r < start + (height - 6)) := by
  intro s hmain width height hwidth hheight r hr
  have hvisible : s.Visible := Session.visible_reached config actions clock
  constructor
  · rintro ⟨selected, offset, y, hselected, hshows⟩
    exact exists_near_of_showsAt hvisible hheight hselected hshows
  · rintro ⟨start, hstart, habove, hbelow⟩
    exact exists_showsAt hvisible hmain hwidth hheight hr hstart habove hbelow

/-- Six rows of a detailed sum fit into a screen of twelve. -/
theorem time_shown :
    let s := Session.timed
      (Session.acts {} (Action.typing "details 1+2+3+4+5".toList ++ [.press .enter]))
      (fun _ => 1500000)
    s.helpShown = false ∧ minWidth ≤ 50 ∧ minHeight ≤ 12 ∧
      (HistoryList.ofEntries 48 s.history).items[5]? =
        some ["    - Time: 1.500000 ms".toList] ∧
      ∃ selected offset y, selected < s.history.length ∧
        ShowsAt (s.aimed selected offset) 50 12 5 y := by
  have hshown := row_shown_iff {} (Action.typing "details 1+2+3+4+5".toList ++ [.press .enter])
    (fun _ => 1500000) rfl 50 12 (by decide) (by decide) 5 (by decide +kernel)
  refine ⟨rfl, by decide, by decide, by decide +kernel, ?_⟩
  exact hshown.mpr ⟨0, by decide +kernel, by decide, by decide⟩

/-- On a screen of ten rows the time of the same sum cannot be reached. -/
theorem time_never_shown :
    let s := Session.acts {} (Action.typing "details 1+2+3+4+5".toList ++ [.press .enter])
    s.history.length = 1 ∧ s.helpShown = false ∧
      (HistoryList.ofEntries 48 s.history).items[5]? =
        some ["    - Time: 0.000000 ms".toList] ∧
      ∀ selected offset y, selected < s.history.length →
        ¬ ShowsAt (s.aimed selected offset) 50 10 5 y := by
  intro s
  have hstarts : (HistoryList.ofEntries 48 s.history).starts = [0] := by decide +kernel
  have hvisible : s.Visible := ((Session.recorded_initial {}).acts _).1.visible
  refine ⟨by decide, rfl, by decide +kernel, ?_⟩
  intro selected offset y hselected hshows
  obtain ⟨start, hstart, -, hbelow⟩ :=
    exists_near_of_showsAt hvisible (by decide) hselected hshows
  change start ∈ (HistoryList.ofEntries 48 s.history).starts at hstart
  rw [hstarts, List.mem_singleton] at hstart
  omega

end Calculator
