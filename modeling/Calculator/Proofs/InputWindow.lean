import Calculator.Proofs.Drawing
import Calculator.Proofs.History
import Calculator.Proofs.Listing

/-! # The window of the input line

The window of the input line is moved to the cursor, and then back to the text if it reaches beyond
it.  So the cursor is in the window unless it stands behind the last character of a line that is as
long as the window or longer: then it is one column to the right of it.
-/
namespace Calculator
open Screen

namespace Session

/-- The cursor stands behind the last character of a line that fills a window of this width. -/
def BehindFullLine (s : Session) (width : Nat) : Prop :=
  s.buffer.cursor = s.buffer.text.length ∧ width ≤ s.buffer.text.length

variable {s : Session} {width : Nat}

theorem inputScroll_adjusted (hcursor : s.buffer.cursor ≤ s.buffer.text.length)
    (hwidth : 1 ≤ width) :
    (s.adjustInputScroll width).inputScroll ≤ s.buffer.cursor ∧
      s.buffer.cursor ≤ (s.adjustInputScroll width).inputScroll + width ∧
      (s.buffer.cursor < (s.adjustInputScroll width).inputScroll + width ↔
        ¬ s.BehindFullLine width) := by
  unfold BehindFullLine adjustInputScroll
  dsimp only
  split_ifs <;> omega

theorem acts_typing [Text.Metric] {text : List Char} (hmain : s.helpShown = false)
    (hbuffer : s.buffer = .ofText text) (cs : List Char) :
    s.acts (Action.typing cs) = { s with buffer := .ofText (text ++ cs) } := by
  induction cs generalizing s text with
  | nil =>
    rw [List.append_nil, ← hbuffer]
    rfl
  | cons c cs ih =>
    have hbehind : s.buffer.insert c = .ofText (text ++ [c]) := by
      simp [hbuffer, LineBuffer.insert, LineBuffer.ofText]
    have hinsert : s.act (.press (.char c)) = { s with buffer := .ofText (text ++ [c]) } :=
      (press_main hmain _).trans (congrArg (fun buffer => { s with buffer }) hbehind)
    change (s.act (.press (.char c))).acts (Action.typing cs) = _
    rw [hinsert, ih (s := { s with buffer := .ofText (text ++ [c]) }) hmain rfl, List.append_assoc,
      List.singleton_append]

end Session

namespace Screen
variable [Text.Metric] {s : Session} {width : Nat}

/-- Before the cursor there is one column for each character. -/
theorem cursorColumn_ascii (hascii : ∀ c ∈ s.buffer.text, c.toNat < 128)
    (hcursor : s.buffer.cursor ≤ s.buffer.text.length)
    (hwindow : s.buffer.cursor ≤ s.inputScroll + (width - 2)) :
    cursorColumn s width = 3 + (s.buffer.cursor - s.inputScroll) := by
  have hbefore : ∀ c ∈ (visibleInput s (width - 2)).take (s.buffer.cursor - s.inputScroll),
      c.toNat < 128 := by
    intro c hc
    exact hascii c (List.mem_of_mem_drop (List.mem_of_mem_take (List.mem_of_mem_take hc)))
  simp only [cursorColumn, Text.width_ascii hbefore]
  simp only [visibleInput, List.length_take, List.length_drop]
  omega

theorem cursor_drawSession {height : Nat} (hmain : s.helpShown = false)
    (hwidth : minWidth ≤ width) (hheight : minHeight ≤ height) :
    (drawSession s width height).2.cursor =
      some (cursorColumn (s.adjustInputScroll (width - 4)) (width - 2), 1) := by
  rw [drawSession_main hmain hwidth hheight]
  rfl

end Screen

/-- After the window of the input line is adjusted the cursor is in it, or it stands one column to
the right of it: behind the last character of a line that fills the window, and nowhere else.  On
the screen the cursor of an ASCII line is then drawn on the right border of the box, and else inside
it. -/
theorem cursor_in_window [Text.Metric] (s : Session) :
    (s.buffer.cursor ≤ s.buffer.text.length → ∀ width, 1 ≤ width →
      let scroll := (s.adjustInputScroll width).inputScroll
      scroll ≤ s.buffer.cursor ∧ s.buffer.cursor ≤ scroll + width ∧
        (s.buffer.cursor < scroll + width ↔ ¬ s.BehindFullLine width)) ∧
    ∀ (config : Config) (actions : List Action), s = Session.acts { config } actions →
      s.helpShown = false → (∀ c ∈ s.buffer.text, c.toNat < 128) →
      ∀ width height, minWidth ≤ width → minHeight ≤ height →
        ∃ column, (drawSession s width height).2.cursor = some (column, 1) ∧
          1 ≤ column ∧ column ≤ width - 1 ∧
          (column ≤ width - 2 ↔ ¬ s.BehindFullLine (width - 4)) := by
  refine ⟨fun hcursor width => Session.inputScroll_adjusted hcursor, ?_⟩
  intro config actions hs hmain hascii width height hwidth hheight
  have hcursor : s.buffer.cursor ≤ s.buffer.text.length := by
    rw [hs]
    exact ((Session.wellFormed_initial config).acts actions).1.cursor
  have hlarge : 50 ≤ width := hwidth
  have hroom : 1 ≤ width - 4 := by omega
  have hinner : width - 4 = width - 2 - 2 := by omega
  obtain ⟨hlow, hhigh, hinside⟩ := Session.inputScroll_adjusted hcursor hroom
  have hcolumn : cursorColumn (s.adjustInputScroll (width - 4)) (width - 2) =
      3 + (s.buffer.cursor - (s.adjustInputScroll (width - 4)).inputScroll) :=
    cursorColumn_ascii hascii hcursor (hinner ▸ hhigh)
  refine ⟨_, cursor_drawSession hmain hwidth hheight, ?_⟩
  rw [hcolumn, ← hinside]
  omega

/-- In a line of sixty characters, before the last one. -/
theorem cursor_in_long_line :
    let s := Session.acts {} (Action.typing (List.replicate 60 '1') ++ [.press .left])
    s.buffer.cursor ≤ s.buffer.text.length ∧ 1 ≤ 46 ∧ s.helpShown = false ∧
      (∀ c ∈ s.buffer.text, c.toNat < 128) ∧ minWidth ≤ 50 ∧ minHeight ≤ 10 ∧
      ¬ s.BehindFullLine 46 ∧
      s.buffer.cursor < (s.adjustInputScroll 46).inputScroll + 46 ∧
      ∃ column, (drawSession s 50 10).2.cursor = some (column, 1) ∧ 1 ≤ column ∧ column ≤ 48 := by
  have hs : Session.acts {} (Action.typing (List.replicate 60 '1') ++ [.press .left]) =
      { buffer := ⟨List.replicate 60 '1', 59⟩ } := by
    rw [Session.acts, List.foldl_append]
    change (Session.acts _ _).acts _ = _
    rw [Session.acts_typing rfl rfl]
    rfl
  rw [hs]
  have hascii : ∀ c ∈ List.replicate 60 '1', c.toNat < 128 :=
    List.forall_mem_replicate.mpr (.inr (by decide))
  have hbefore : ¬ Session.BehindFullLine { buffer := ⟨List.replicate 60 '1', 59⟩ } 46 :=
    fun h => absurd h.1 (by decide)
  obtain ⟨hadjusted, hdrawn⟩ := cursor_in_window { buffer := ⟨List.replicate 60 '1', 59⟩ }
  obtain ⟨-, -, hwindow⟩ := hadjusted (by decide) 46 (by decide)
  obtain ⟨column, hcolumn, hlow, -, hhigh⟩ :=
    hdrawn {} _ hs.symm rfl hascii 50 10 (by decide) (by decide)
  refine ⟨by decide, by decide, rfl, hascii, by decide, by decide, hbefore,
    hwindow.mpr hbefore, ?_⟩
  exact ⟨column, hcolumn, hlow, hhigh.mpr hbefore⟩

/-- Behind a line that fills the window the cursor is drawn on the border. -/
theorem cursor_on_border :
    let s := Session.acts {} (Action.typing (List.replicate 46 '1'))
    s.buffer.cursor ≤ s.buffer.text.length ∧ s.helpShown = false ∧
      (∀ c ∈ s.buffer.text, c.toNat < 128) ∧
      ¬ s.buffer.cursor < (s.adjustInputScroll 46).inputScroll + 46 ∧
      (drawSession s 50 10).2.cursor = some (49, 1) := by
  rw [Session.acts_typing rfl rfl]
  have hascii : ∀ c ∈ List.replicate 46 '1', c.toNat < 128 :=
    List.forall_mem_replicate.mpr (.inr (by decide))
  refine ⟨by decide, rfl, hascii, by decide, ?_⟩
  rw [cursor_drawSession rfl (by decide) (by decide)]
  rw [cursorColumn_ascii hascii (by decide) (by decide)]
  rfl

end Calculator
