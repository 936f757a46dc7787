import Calculator.Proofs.Window

/-! # Frames without events

A frame moves the windows of a session to where they belong, and the next frame of the same size
finds them there.  So it leaves the session alone and looks the same.
-/
namespace Calculator
open Screen

namespace Session
variable {s : Session} {width : Nat}

/-- The window of the input line is where adjusting it would leave it. -/
theorem adjustInputScroll_idem (hcursor : s.buffer.cursor ≤ s.buffer.text.length)
    (hwidth : 1 ≤ width) :
    (s.adjustInputScroll width).adjustInputScroll width = s.adjustInputScroll width := by
  have hscroll : ((s.adjustInputScroll width).adjustInputScroll width).inputScroll =
      (s.adjustInputScroll width).inputScroll := by
    unfold adjustInputScroll
    dsimp only
    split_ifs <;> omega
  exact congrArg (fun scroll => { s with inputScroll := scroll }) hscroll

end Session

namespace Screen
variable [Text.Metric] {s : Session} {width height : Nat}

/-- Only what concerns the list is changed where it is drawn. -/
theorem drawHistory_fst (s : Session) (width height : Nat) :
    ∃ rowStarts historyScroll followNewest,
      (drawHistory s width height).1 = { s with rowStarts, historyScroll, followNewest } := by
  unfold drawHistory
  split
  · exact ⟨_, _, _, rfl⟩
  · exact ⟨_, _, _, rfl⟩

/-- The list is scrolled to where it was drawn, and it does not follow the newest entry any more. -/
theorem drawHistory_idem (s : Session) (width height listHeight : Nat) :
    drawHistory { (drawHistory s width height).1 with listHeight } width height =
      ({ (drawHistory s width height).1 with listHeight }, (drawHistory s width height).2) := by
  cases hempty : s.history.isEmpty with
  | true => simp only [drawHistory, hempty, if_true]
  | false => simp only [drawHistory, hempty, Bool.false_eq_true, if_false]

/-- What the frame shows beside the list depends on the input line and its window alone. -/
theorem drawMain_idem (hcursor : s.buffer.cursor ≤ s.buffer.text.length)
    (hwidth : minWidth ≤ width) (height : Nat) :
    drawMain (drawMain s width height).1 width height = drawMain s width height := by
  have hroom : 1 ≤ width - 2 - 2 := by
    have hlarge : 50 ≤ width := hwidth
    omega
  have hadjusted := Session.adjustInputScroll_idem hcursor hroom
  have hleft : (drawMain s width height).1 =
      { (drawHistory (s.adjustInputScroll (width - 2 - 2)) (width - 2) (height - 6)).1 with
        listHeight := height - 4 } := rfl
  generalize hs : s.adjustInputScroll (width - 2 - 2) = t at hadjusted hleft
  have hagain := drawHistory_idem t (width - 2) (height - 6) (height - 4)
  obtain ⟨rowStarts, historyScroll, followNewest, hdrawn⟩ :=
    drawHistory_fst t (width - 2) (height - 6)
  have hscroll : (t.adjustInputScroll (width - 2 - 2)).inputScroll = t.inputScroll := by
    rw [hadjusted]
  rw [hleft]
  simp only [drawMain, hs]
  rw [hdrawn] at hagain ⊢
  have hfixed : Session.adjustInputScroll { t with
      rowStarts, historyScroll, followNewest, listHeight := height - 4 } (width - 2 - 2) =
        { t with rowStarts, historyScroll, followNewest, listHeight := height - 4 } :=
    congrArg (fun inputScroll => { t with
      inputScroll, rowStarts, historyScroll, followNewest, listHeight := height - 4 }) hscroll
  rw [hfixed, hagain]
  rfl

theorem drawMain_fst (s : Session) (width height : Nat) :
    (drawMain s width height).1.helpShown = s.helpShown ∧
      (drawMain s width height).1.tooSmall = s.tooSmall := by
  obtain ⟨_, _, _, hdrawn⟩ :=
    drawHistory_fst (s.adjustInputScroll (width - 2 - 2)) (width - 2) (height - 6)
  simp only [drawMain, hdrawn]
  exact ⟨rfl, rfl⟩

theorem drawSession_idem (hcursor : s.buffer.cursor ≤ s.buffer.text.length) (width height : Nat) :
    drawSession (drawSession s width height).1 width height = drawSession s width height := by
  cases hhelp : s.helpShown with
  | true => simp only [drawSession, hhelp, if_true]
  | false =>
    by_cases hlarge : minWidth ≤ width ∧ minHeight ≤ height
    · obtain ⟨hwidth, hheight⟩ := hlarge
      rw [drawSession_main hhelp hwidth hheight]
      obtain ⟨hmain, hsmall⟩ := drawMain_fst { s with tooSmall := false } width height
      have hagain := drawMain_idem (s := { s with tooSmall := false }) hcursor hwidth height
      generalize drawMain { s with tooSmall := false } width height = drawn at *
      have hsame : { drawn.1 with tooSmall := false } = drawn.1 :=
        congrArg (fun tooSmall => { drawn.1 with tooSmall }) hsmall.symm
      rw [drawSession_main (hmain.trans hhelp) hwidth hheight, hsame, hagain]
    · have hsmall : (width < minWidth || height < minHeight) = true := by
        simp only [Bool.or_eq_true, decide_eq_true_eq]
        omega
      simp only [drawSession, hhelp, hsmall, if_true, Bool.false_eq_true, if_false]

end Screen

/-- Two frames of the same size without an event between them are the same, whatever has happened
before, on the main screen, on the help screen and on a screen that is too small: the second one
leaves the session as the first one did, and shows the same rows, highlighted rows and cursor. -/
theorem redraw_unchanged [Text.Metric] (config : Config) (actions : List Action) (clock : Nat → Nat)
    (width height : Nat) :
    let s := (Session.acts { config } actions).timed clock
    let first := drawSession s width height
    let second := drawSession first.1 width height
    second.1 = first.1 ∧ second.2.rows = first.2.rows ∧
      second.2.highlighted = first.2.highlighted ∧ second.2.cursor = first.2.cursor := by
  intro s first second
  have hcursor : s.buffer.cursor ≤ s.buffer.text.length :=
    ((Session.wellFormed_initial config).acts actions).1.cursor
  have hsame : second = first := drawSession_idem hcursor width height
  rw [hsame]
  exact ⟨rfl, rfl, rfl, rfl⟩

end Calculator
