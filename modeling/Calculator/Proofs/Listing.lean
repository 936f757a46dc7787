import Calculator.Proofs.Echo
import Calculator.Proofs.Request
import Calculator.Proofs.Wrap
import Calculator.Screen.Frame

/-! # Entries on the screen

Every entry with a visible input has rows in the list of the history.  A frame shows a window of
the list, which contains the first row of the selected entry; a window at the end of the list shows
the last entry from its first row on, as far as it fits.
-/
namespace Calculator

namespace Screen
variable [Text.Metric]

/-! ## No entry is without rows -/

theorem entryItems_ne_nil {entry : Entry} {c : Char} (hc : c ∈ entry.input)
    (hvisible : Text.isBlank c = false) (limit : Nat) : entryItems limit entry ≠ [] := by
  have hlines := Wrap.lines_ne_nil (Echo.mem_format hc hvisible) hvisible limit
  obtain ⟨first, others, hlines⟩ := List.exists_cons_of_ne_nil hlines
  simp [entryItems, echoItems, hlines]

/-! ## Where an entry is listed -/

omit [Text.Metric] in
theorem intercalate_append (separator : Item) (before : List (List Item)) (block : List Item)
    (behind : List (List Item)) :
    [separator].intercalate (before ++ block :: behind) =
      before.flatMap (· ++ [separator]) ++ [separator].intercalate (block :: behind) := by
  induction before with
  | nil => rfl
  | cons first before ih =>
    obtain ⟨next, others, hnext⟩ : ∃ next others, before ++ block :: behind = next :: others :=
      List.exists_cons_of_ne_nil (by simp)
    rw [List.cons_append, hnext, List.intercalate_cons_cons, ← hnext, ih, List.flatMap_cons,
      List.append_assoc (first ++ [separator])]

omit [Text.Metric] in
theorem getElem?_starts (separator : Item) (first : Nat) (before : List (List Item))
    (block : List Item) (behind : List (List Item)) :
    (starts first (before ++ block :: behind))[before.length]? =
      some (first + (before.flatMap (· ++ [separator])).length) := by
  induction before generalizing first with
  | nil => rfl
  | cons b before ih =>
    rw [List.cons_append, starts, List.length_cons, List.getElem?_cons_succ, ih, List.flatMap_cons,
      List.length_append, List.length_append, List.length_singleton]
    congr 1
    omega

omit [Text.Metric] in
theorem length_starts (first : Nat) (blocks : List (List Item)) :
    (starts first blocks).length = blocks.length := by
  induction blocks generalizing first with
  | nil => rfl
  | cons block blocks ih =>
    simp only [starts, List.length_cons, ih]

/-- The rows of an entry part the list where it starts; below those of the last entry there is
nothing. -/
theorem HistoryList.exists_parts (width : Nat) {entries : List Entry} {i : Nat} {entry : Entry}
    (h : entries[i]? = some entry) :
    ∃ above below,
      (ofEntries width entries).items = above ++ (entryItems (width - 6) entry ++ below) ∧
        (ofEntries width entries).starts[i]? = some above.length ∧
        (i + 1 = entries.length → below = []) := by
  obtain ⟨hi, rfl⟩ := List.getElem?_eq_some_iff.mp h
  let block (entry : Entry) : List Item := entryItems (width - 6) entry
  let separator : Item := [List.replicate width '-']
  let above := ((entries.take i).map block).flatMap (· ++ [separator])
  have hsplit : entries.map block = (entries.take i).map block ++
      block entries[i] :: (entries.drop (i + 1)).map block := by
    rw [← List.map_cons, List.cons_getElem_drop_succ, ← List.map_append, List.take_append_drop]
  have hlength : ((entries.take i).map block).length = i := by
    rw [List.length_map, List.length_take, min_eq_left (Nat.le_of_lt hi)]
  have hstart : (ofEntries width entries).starts[i]? = some above.length := by
    have hstarts := getElem?_starts separator 0 ((entries.take i).map block) (block entries[i])
      ((entries.drop (i + 1)).map block)
    rw [hlength, Nat.zero_add, ← hsplit] at hstarts
    exact hstarts
  have hjoined : (ofEntries width entries).items = above ++
      [separator].intercalate (block entries[i] :: (entries.drop (i + 1)).map block) := by
    rw [← intercalate_append, ← hsplit]
    rfl
  cases hbehind : (entries.drop (i + 1)).map block with
  | nil =>
    rw [hbehind, List.intercalate_singleton] at hjoined
    exact ⟨above, [], by rw [hjoined, List.append_nil], hstart, fun _ => rfl⟩
  | cons next others =>
    rw [hbehind, List.intercalate_cons_cons, List.append_assoc] at hjoined
    refine ⟨above, _, hjoined, hstart, fun hend => ?_⟩
    rw [hend, List.drop_length] at hbehind
    nomatch hbehind

/-- The rows of an entry stand together in the list, from its start on; those of the last entry end
the list. -/
theorem HistoryList.listed (width : Nat) {entries : List Entry} {i : Nat} {entry : Entry}
    (h : entries[i]? = some entry) :
    ∃ start, (ofEntries width entries).starts[i]? = some start ∧
      start + (entryItems (width - 6) entry).length ≤ (ofEntries width entries).items.length ∧
      (∀ j item, (entryItems (width - 6) entry)[j]? = some item →
        (ofEntries width entries).items[start + j]? = some item) ∧
      (i + 1 = entries.length →
        (ofEntries width entries).items.length =
          start + (entryItems (width - 6) entry).length) := by
  obtain ⟨above, below, hitems, hstart, hlast⟩ := exists_parts width h
  refine ⟨above.length, hstart, ?_, ?_, ?_⟩
  · rw [hitems, List.length_append, List.length_append]
    omega
  · intro j item hitem
    have hj := (List.getElem?_eq_some_iff.mp hitem).1
    rw [hitems, List.getElem?_append_right (Nat.le_add_right _ _), Nat.add_sub_cancel_left,
      List.getElem?_append_left hj]
    exact hitem
  · intro hend
    rw [hitems, hlast hend, List.append_nil, List.length_append]

/-! ## The window -/

variable {count height selected : Nat}

omit [Text.Metric] in
/-- The window lies in the list, is not higher than the box and contains the selected row. -/
theorem window_contains (hselected : selected < count) (hheight : 0 < height) (offset : Nat) :
    (window count height offset selected).1 ≤ selected ∧
      selected < (window count height offset selected).2 ∧
      (window count height offset selected).2 ≤ count ∧
      (window count height offset selected).2 ≤
        (window count height offset selected).1 + height := by
  unfold window
  dsimp only
  split_ifs <;> dsimp only <;> omega

omit [Text.Metric] in
/-- At the end of the list the window reaches down from the selected row as far as it can. -/
theorem window_follows (hselected : selected < count) (hheight : 0 < height) :
    min count (selected + height) ≤ (window count height (count - height) selected).2 := by
  unfold window
  dsimp only
  split_ifs <;> dsimp only <;> omega

/-! ## What a frame shows of the list -/

omit [Text.Metric] in
/-- On no screen that is large enough the list is without a row. -/
theorem listHeight_pos (hheight : minHeight ≤ height) : 0 < height - 6 :=
  Nat.sub_pos_of_lt (Nat.lt_of_lt_of_le (by decide) hheight)

/-- The rows of the list that are shown in a box of the given inner size: the first of them, and
the one behind the last. -/
def shownPart (s : Session) (width height : Nat) : Nat × Nat :=
  let list := HistoryList.ofEntries width s.history
  let offset := if s.followNewest then list.items.length - height else s.historyScroll
  window list.items.length height offset (list.starts[s.selected]?.getD 0)

/-- A frame of the session shows the row `r` of the list in its own row `y`. -/
structure ShowsAt (s : Session) (width height r y : Nat) : Prop where
  first : (shownPart s (width - 2) (height - 6)).1 ≤ r
  last : r < (shownPart s (width - 2) (height - 6)).2
  place : y = 5 + (r - (shownPart s (width - 2) (height - 6)).1)
  drawn : ∀ item, (HistoryList.ofEntries (width - 2) s.history).items[r]? = some item →
    (drawSession s width height).2.rows[y]? =
      some (bordered '│' '│' width (drawAll (width - 2) item))

theorem drawHistory_eq {s : Session} (hne : s.history ≠ []) (width height : Nat) :
    (drawHistory s width height).2 =
      let list := HistoryList.ofEntries width s.history
      let part := shownPart s width height
      (((list.items.drop part.1).take (part.2 - part.1)).map (drawAll width),
        (list.starts[s.selected]?.map (· - part.1)).toList) := by
  have hempty : s.history.isEmpty = false := List.isEmpty_eq_false_iff.mpr hne
  simp only [drawHistory, hempty, Bool.false_eq_true, if_false, shownPart]

theorem getElem?_drawHistory {s : Session} (hne : s.history ≠ []) {width height r : Nat}
    {item : Item} (hfirst : (shownPart s width height).1 ≤ r)
    (hlast : r < (shownPart s width height).2)
    (hitem : (HistoryList.ofEntries width s.history).items[r]? = some item) :
    (drawHistory s width height).2.1[r - (shownPart s width height).1]? =
      some (drawAll width item) := by
  have hindex : (shownPart s width height).1 + (r - (shownPart s width height).1) = r := by omega
  rw [drawHistory_eq hne]
  dsimp only
  rw [List.getElem?_map, List.getElem?_take_of_lt (by omega), List.getElem?_drop, hindex, hitem]
  rfl

theorem getElem?_box (border : Border) (title : List Char) (width : Nat) {height : Nat}
    {inner : List Row} {i : Nat} {row : Row} (hlength : inner.length ≤ height - 2)
    (hrow : inner[i]? = some row) :
    (box border title width height inner)[i + 1]? =
      some (bordered border.vertical border.vertical width row) := by
  have hi := (List.getElem?_eq_some_iff.mp hrow).1
  simp only [box]
  rw [List.getElem?_take_of_lt (by omega), List.cons_append, List.getElem?_cons_succ,
    List.getElem?_append_left (by simp; omega), List.getElem?_map,
    List.getElem?_take_of_lt (by omega), List.getElem?_append_left hi, hrow]
  rfl

theorem length_box (border : Border) (title : List Char) (width height : Nat)
    (inner : List Row) : (box border title width (height + 2) inner).length = height + 2 := by
  simp [box]

theorem drawSession_main {s : Session} {width height : Nat} (hmain : s.helpShown = false)
    (hwidth : minWidth ≤ width) (hheight : minHeight ≤ height) :
    drawSession s width height = drawMain { s with tooSmall := false } width height := by
  have hlarge : ¬ (width < minWidth || height < minHeight) = true := by
    simp only [Bool.or_eq_true, decide_eq_true_eq]
    omega
  rw [drawSession, if_neg (Bool.eq_false_iff.mp hmain), if_neg hlarge]

theorem drawHistory_congr (s : Session) (width height scroll : Nat) (small : Bool) :
    (drawHistory { s with inputScroll := scroll, tooSmall := small } width height).2 =
      (drawHistory s width height).2 := by
  unfold drawHistory
  dsimp only
  split <;> rfl

theorem highlighted_main {s : Session} {width height : Nat} (hmain : s.helpShown = false)
    (hwidth : minWidth ≤ width) (hheight : minHeight ≤ height) :
    (drawSession s width height).2.highlighted =
      (drawHistory s (width - 2) (height - 6)).2.2.map (· + 5) := by
  rw [drawSession_main hmain hwidth hheight, ← drawHistory_congr]
  rfl

/-- The box of the history stands below the three rows of the input and the status line. -/
theorem getElem?_rows {s : Session} {width height i : Nat} {row : Row}
    (hmain : s.helpShown = false) (hwidth : minWidth ≤ width) (hheight : minHeight ≤ height)
    (hlength : (drawHistory s (width - 2) (height - 6)).2.1.length ≤ height - 6)
    (hrow : (drawHistory s (width - 2) (height - 6)).2.1[i]? = some row) :
    (drawSession s width height).2.rows[5 + i]? = some (bordered '│' '│' width row) := by
  have hindex : 5 + i = 3 + (i + 1 + 1) := by omega
  rw [drawSession_main hmain hwidth hheight]
  rw [← drawHistory_congr s _ _ (s.adjustInputScroll (width - 2 - 2)).inputScroll false]
    at hlength hrow
  simp only [drawMain]
  rw [hindex, List.getElem?_append_right (by rw [length_box]; omega), length_box,
    Nat.add_sub_cancel_left, List.getElem?_cons_succ]
  exact getElem?_box .single _ width hlength hrow

structure Selects (s : Session) (width start : Nat) : Prop where
  begins : (HistoryList.ofEntries width s.history).starts[s.selected]? = some start
  lt : start < (HistoryList.ofEntries width s.history).items.length

theorem exists_selects {s : Session} {entry : Entry} {c : Char} (width : Nat)
    (hentry : s.history[s.selected]? = some entry) (hc : c ∈ entry.input)
    (hvisible : Text.isBlank c = false) : ∃ start, Selects s width start := by
  have hrows := List.length_pos_iff.mpr (entryItems_ne_nil hc hvisible (width - 6))
  obtain ⟨start, hstart, hle, -⟩ := HistoryList.listed width hentry
  exact ⟨start, hstart, by omega⟩

namespace Selects
variable {s : Session} {width start : Nat}

theorem ne_nil (h : Selects s width start) : s.history ≠ [] := by
  intro hnil
  have hstart := h.begins
  rw [hnil] at hstart
  nomatch hstart

theorem shownPart_contains (h : Selects s width start) {height : Nat} (hheight : 0 < height) :
    (shownPart s width height).1 ≤ start ∧ start < (shownPart s width height).2 ∧
      (shownPart s width height).2 ≤ (HistoryList.ofEntries width s.history).items.length ∧
      (shownPart s width height).2 ≤ (shownPart s width height).1 + height := by
  simp only [shownPart, h.begins, Option.getD_some]
  exact window_contains h.lt hheight _

theorem length_drawHistory_le (h : Selects s width start) {height : Nat} (hheight : 0 < height) :
    (drawHistory s width height).2.1.length ≤ height := by
  obtain ⟨-, -, -, hle⟩ := h.shownPart_contains hheight
  rw [drawHistory_eq h.ne_nil]
  dsimp only
  rw [List.length_map, List.length_take]
  omega

theorem showsAt {height r : Nat} (h : Selects s (width - 2) start) (hmain : s.helpShown = false)
    (hwidth : minWidth ≤ width) (hheight : minHeight ≤ height)
    (hfirst : (shownPart s (width - 2) (height - 6)).1 ≤ r)
    (hlast : r < (shownPart s (width - 2) (height - 6)).2) :
    ShowsAt s width height r (5 + (r - (shownPart s (width - 2) (height - 6)).1)) := by
  have hroom := listHeight_pos hheight
  refine ⟨hfirst, hlast, rfl, fun item hitem => ?_⟩
  exact getElem?_rows hmain hwidth hheight (h.length_drawHistory_le hroom)
    (getElem?_drawHistory h.ne_nil hfirst hlast hitem)

/-- The first row of the selected entry is shown and is the only one that is highlighted. -/
theorem highlighted {height : Nat} (h : Selects s (width - 2) start) (hmain : s.helpShown = false)
    (hwidth : minWidth ≤ width) (hheight : minHeight ≤ height) :
    ∃ y, (drawSession s width height).2.highlighted = [y] ∧ ShowsAt s width height start y := by
  obtain ⟨hfirst, hlast, -⟩ := h.shownPart_contains (listHeight_pos hheight)
  refine ⟨_, ?_, h.showsAt hmain hwidth hheight hfirst hlast⟩
  rw [highlighted_main hmain hwidth hheight, drawHistory_eq h.ne_nil]
  dsimp only
  rw [h.begins, Nat.add_comm 5]
  rfl

end Selects

/-! ## The newest entry in a frame -/

/-- The only highlighted row of the frame is the first one of the entry, and as many of its rows
are shown from there on as the box of the history can hold. -/
def Frame.Presents (frame : Frame) (width height : Nat) (entry : Entry) : Prop :=
  entryItems (width - 8) entry ≠ [] ∧
  ∃ top, frame.highlighted = [top] ∧
    ∀ i item, (entryItems (width - 8) entry)[i]? = some item → i < height - 6 →
      frame.rows[top + i]? = some (bordered '│' '│' width (drawAll (width - 2) item))

/-- When the newest entry is selected and the list is to follow it, the next frame of the main
screen presents it. -/
theorem drawSession_presents {s : Session} {before : List Entry} {entry : Entry}
    {width height : Nat} (hhistory : s.history = before ++ [entry])
    (hselected : s.selected = before.length) (hfollow : s.followNewest = true)
    (hmain : s.helpShown = false) {c : Char} (hc : c ∈ entry.input)
    (hvisible : Text.isBlank c = false) (hwidth : minWidth ≤ width)
    (hheight : minHeight ≤ height) :
    (drawSession s width height).2.Presents width height entry := by
  have hroom := listHeight_pos hheight
  have hentry : s.history[s.selected]? = some entry := by
    rw [hhistory, hselected]
    exact List.getElem?_concat_length
  have hnewest : s.selected + 1 = s.history.length := by
    rw [hhistory, hselected, List.length_append, List.length_singleton]
  obtain ⟨start, hselects⟩ := exists_selects (width - 2) hentry hc hvisible
  obtain ⟨start', hstart', -, hitems, hend⟩ := HistoryList.listed (width - 2) hentry
  obtain rfl : start = start' := Option.some.inj (hselects.begins.symm.trans hstart')
  obtain ⟨hfirst, -⟩ := hselects.shownPart_contains hroom
  have hfollows : min (HistoryList.ofEntries (width - 2) s.history).items.length
      (start + (height - 6)) ≤ (shownPart s (width - 2) (height - 6)).2 := by
    simp only [shownPart, hfollow, if_true, hselects.begins, Option.getD_some]
    exact window_follows hselects.lt hroom
  rw [hend hnewest] at hfollows
  obtain ⟨y, hhighlighted, hshows⟩ := hselects.highlighted hmain hwidth hheight
  refine ⟨entryItems_ne_nil hc hvisible _, y, hhighlighted, ?_⟩
  intro i item hitem hi
  have hlt : i < (entryItems (width - 2 - 6) entry).length :=
    (List.getElem?_eq_some_iff.mp hitem).1
  have hshown := hselects.showsAt hmain hwidth hheight (r := start + i) (by omega) (by omega)
  have hplace := hshows.place
  have hindex : y + i =
      5 + (start + i - (shownPart s (width - 2) (height - 6)).1) := by omega
  rw [hindex]
  exact hshown.drawn item (hitems i item hitem)

end Screen

end Calculator
