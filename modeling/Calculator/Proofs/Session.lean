import Mathlib.Data.Nat.PSub
import Calculator.Proofs.Editing
import Calculator.Screen.Frame

/-! # Sessions stay well formed

Whatever happens to a session, its cursor stays inside the line and its selection inside the
history.  So everything that is computed from them can be: a session that checks every access and
every subtraction goes on exactly like one that does not.
-/
namespace Calculator

/-- What can happen to a session: a key, the mouse, or a frame of some size. -/
inductive Action where
  | event (e : Event)
  | frame (width height : Nat)

namespace Session

def act [Text.Metric] (s : Session) : Action → Session
  | .event e => s.handle e
  | .frame width height => (Screen.drawSession s width height).1

def acts [Text.Metric] (s : Session) (actions : List Action) : Session := actions.foldl act s

structure WellFormed (s : Session) : Prop where
  cursor : s.buffer.cursor ≤ s.buffer.text.length
  selected : if s.history = [] then s.selected = 0 else s.selected < s.history.length

structure Alike (s t : Session) : Prop where
  config : t.config = s.config
  buffer : t.buffer = s.buffer
  history : t.history = s.history
  selected : t.selected = s.selected
  quitting : t.quitting = s.quitting
  helpShown : t.helpShown = s.helpShown

/-! ## Checked operations -/

def last? (s : Session) : Option Nat := s.history.length.psub 1

def adjustInputScroll? (s : Session) (width : Nat) : Option Session := do
  let followed ←
    if s.buffer.cursor < s.inputScroll then some s.buffer.cursor
    else if s.inputScroll + width ≤ s.buffer.cursor then (s.buffer.cursor + 1).psub width
    else some s.inputScroll
  some { s with inputScroll := min followed (s.buffer.text.length - width) }

def insertChar? (s : Session) (c : Char) : Option Session := do
  let buffer ← s.buffer.insert? c
  some { s with buffer }

def deleteBefore? (s : Session) : Option Session := do
  let buffer ← s.buffer.deleteBefore?
  some { s with buffer }

def deleteAt? (s : Session) : Option Session := do
  let buffer ← s.buffer.deleteAt?
  some { s with buffer }

def moveWord? (s : Session) (direction : Int) : Option Session := do
  let buffer ← if direction < 0 then s.buffer.wordLeft? else s.buffer.wordRight?
  some { s with buffer }

def navigate? (s : Session) (direction : Int) : Option Session :=
  if s.history.isEmpty then some s
  else if direction < 0 ∧ 0 < s.selected then do
    let selected ← s.selected.psub 1
    some { s with selected }.restore
  else if 0 < direction then do
    let last ← s.last?
    some (if s.selected < last then { s with selected := s.selected + 1 } else s).restore
  else some s.restore

def page? (s : Session) (direction : Int) : Option Session :=
  if s.history.isEmpty then some s
  else
    let distance := max (s.listHeight - 1) 1
    if direction < 0 then some { s with selected := s.selected - distance }.restore
    else do
      let last ← s.last?
      some { s with selected := min (s.selected + distance) last }.restore

def mainKey? (s : Session) (press : KeyPress) : Option Session :=
  match press.key with
  | .char c => if press.ctrl || press.alt then some (s.mainKey press) else s.insertChar? c
  | .backspace => s.deleteBefore?
  | .delete => s.deleteAt?
  | .left => if press.ctrl then s.moveWord? (-1) else some (s.mainKey press)
  | .right => if press.ctrl then s.moveWord? 1 else some (s.mainKey press)
  | .up => s.navigate? (-1)
  | .down => s.navigate? 1
  | .pageUp => s.page? (-1)
  | .pageDown => s.page? 1
  | _ => some (s.mainKey press)

def handle? (s : Session) : Event → Option Session
  | .key press => if s.helpShown then some (s.press press) else s.mainKey? press
  | e => some (s.handle e)

end Session

namespace Screen
variable [Text.Metric]

def rows? (separator : Item) (count : Nat) : Nat → List (List Item) → Option (List Item)
  | _, [] => some []
  | i, block :: blocks => do
    let last ← count.psub 1
    let rest ← rows? separator count (i + 1) blocks
    some (block ++ (if i < last then [separator] else []) ++ rest)

def drawHistory? (s : Session) (width height : Nat) :
    Option (Session × List Row × List Nat) :=
  if s.history.isEmpty then some (drawHistory s width height)
  else do
    let blocks := s.history.map (entryItems (width - 6))
    let items ← rows? [List.replicate width '-'] s.history.length 0 blocks
    let offset := if s.followNewest then items.length - height else s.historyScroll
    let selected := (starts 0 blocks)[s.selected]?
    let (start, stop) := window items.length height offset (selected.getD 0)
    let shown := (items.drop start).take (stop - start)
    some ({ s with rowStarts := starts 0 blocks, historyScroll := offset, followNewest := false },
      shown.map (drawAll width), (selected.map (· - start)).toList)

def drawMain? (s : Session) (width height : Nat) : Option (Session × Frame) := do
  let inner := width - 2
  let s ← s.adjustInputScroll? (inner - 2)
  let (s', history, highlighted) ← drawHistory? s inner (height - 6)
  some ({ s' with listHeight := height - 4 },
    { rows :=
        box .single " Expression ".toList width 3 [inputRow s inner] ++
        Row.pad width (draw width statusText) ::
        box .single " History ".toList width (height - 4) history
      highlighted := highlighted.map (· + 5)
      cursor := some (cursorColumn s inner, 1) })

def drawSession? (s : Session) (width height : Nat) : Option (Session × Frame) :=
  if s.helpShown || width < minWidth || height < minHeight then some (drawSession s width height)
  else drawMain? { s with tooSmall := false } width height

end Screen

namespace Session
variable [Text.Metric]

def act? (s : Session) : Action → Option Session
  | .event e => s.handle? e
  | .frame width height => (Screen.drawSession? s width height).map Prod.fst

def acts? (s : Session) (actions : List Action) : Option Session := actions.foldlM act? s

end Session

theorem psub_of_le {m n : Nat} (h : n ≤ m) : m.psub n = some (m - n) := by
  rw [Nat.psub_eq_some]
  omega

namespace Screen

theorem rows?_eq (separator : Item) {count i : Nat} {blocks : List (List Item)}
    (h : i + blocks.length = count) :
    rows? separator count i blocks = some ([separator].intercalate blocks) := by
  induction blocks generalizing i with
  | nil => rfl
  | cons block blocks ih =>
    rw [List.length_cons] at h
    have hlast : count.psub 1 = some (count - 1) := psub_of_le (by omega)
    rw [rows?, hlast, Option.bind_eq_bind, Option.bind_some, ih (by omega), Option.bind_eq_bind,
      Option.bind_some]
    cases blocks with
    | nil =>
      rw [List.length_nil] at h
      rw [if_neg (by omega)]
      simp
    | cons block' blocks =>
      rw [List.length_cons] at h
      rw [if_pos (by omega), List.intercalate_cons_cons]

theorem drawHistory?_eq [Text.Metric] (s : Session) (width height : Nat) :
    drawHistory? s width height = some (drawHistory s width height) := by
  unfold drawHistory?
  split
  · rfl
  · next h =>
    have hlen : 0 + (s.history.map (entryItems (width - 6))).length = s.history.length := by
      rw [List.length_map, Nat.zero_add]
    simp [rows?_eq _ hlen, drawHistory, h, HistoryList.ofEntries]

end Screen

namespace Session

theorem adjustInputScroll?_eq (s : Session) (width : Nat) :
    s.adjustInputScroll? width = some (s.adjustInputScroll width) := by
  unfold adjustInputScroll? adjustInputScroll
  by_cases hleft : s.buffer.cursor < s.inputScroll
  · simp [hleft]
  · by_cases hright : s.inputScroll + width ≤ s.buffer.cursor
    · have hsub : (s.buffer.cursor + 1).psub width = some (s.buffer.cursor + 1 - width) :=
        psub_of_le (by omega)
      simp [hleft, hright, hsub]
    · simp [hleft, hright]

end Session

namespace Screen

theorem drawSession?_eq [Text.Metric] (s : Session) (width height : Nat) :
    drawSession? s width height = some (drawSession s width height) := by
  unfold drawSession? drawSession
  by_cases hhelp : s.helpShown = true
  · simp [hhelp]
  · by_cases hsmall : (width < minWidth || height < minHeight) = true
    · simp [hhelp, hsmall]
    · simp [hhelp, hsmall, drawMain?, drawMain, Session.adjustInputScroll?_eq, drawHistory?_eq]

/-- A frame only moves windows. -/
theorem drawSession_alike [Text.Metric] (s : Session) (width height : Nat) :
    s.Alike (drawSession s width height).1 := by
  unfold drawSession drawMain drawHistory Session.adjustInputScroll
  split
  · constructor <;> rfl
  · split
    · constructor <;> rfl
    · dsimp only
      split <;> constructor <;> rfl

end Screen

namespace Session

variable {s : Session}

theorem wellFormed_initial (config : Config) : WellFormed { config } := ⟨le_rfl, rfl⟩

theorem WellFormed.selected_le (h : s.WellFormed) : s.selected ≤ s.history.length - 1 := by
  have hsel := h.selected
  split at hsel
  · omega
  · omega

theorem WellFormed.selected_lt (h : s.WellFormed) (hpos : 0 < s.history.length) :
    s.selected < s.history.length := Nat.lt_of_le_pred hpos h.selected_le

theorem wellFormed_of_le (hc : s.buffer.Inside) (hs : s.selected ≤ s.history.length - 1) :
    s.WellFormed := by
  refine ⟨hc, ?_⟩
  split
  · next hnil =>
    rw [hnil, List.length_nil] at hs
    omega
  · next hne =>
    have hpos := List.length_pos_iff.mpr hne
    omega

/-- The same selection in the same history, with another line. -/
theorem WellFormed.edit (h : s.WellFormed) {b : LineBuffer} (hb : b.Inside) :
    { s with buffer := b }.WellFormed := ⟨hb, h.selected⟩

theorem wellFormed_restore (hs : s.selected ≤ s.history.length - 1) : s.restore.WellFormed := by
  apply wellFormed_of_le
  · exact LineBuffer.inside_ofText _
  · exact hs

theorem wellFormed_select {i : Nat} (hi : i ≤ s.history.length - 1) : (s.select i).WellFormed :=
  wellFormed_restore hi

theorem WellFormed.navigate (h : s.WellFormed) (direction : Int) :
    (s.navigate direction).WellFormed := by
  have hsel := h.selected_le
  unfold Session.navigate
  split_ifs with _ _ hdown
  · exact h
  · exact wellFormed_select ((Nat.sub_le _ _).trans hsel)
  · exact wellFormed_select hdown.2
  · exact wellFormed_restore hsel

theorem WellFormed.page (h : s.WellFormed) (direction : Int) :
    (s.page direction).WellFormed := by
  unfold Session.page
  split_ifs
  · exact h
  · exact wellFormed_select ((Nat.sub_le _ _).trans h.selected_le)
  · exact wellFormed_select (min_le_right _ _)

theorem wellFormed_clearInput (hs : s.selected ≤ s.history.length - 1) :
    s.clearInput.WellFormed := wellFormed_of_le le_rfl hs

theorem WellFormed.submit (h : s.WellFormed) : s.submit.WellFormed := by
  have hsel := h.selected_le
  unfold Session.submit
  dsimp only
  split
  · exact h
  · split
    · exact ⟨h.cursor, h.selected⟩
    · exact wellFormed_clearInput le_rfl
    · exact wellFormed_clearInput hsel
    · split
      · apply wellFormed_clearInput
        rw [List.length_append, List.length_singleton]
        exact hsel.trans (Nat.sub_le _ _)
      · apply wellFormed_clearInput
        rw [List.length_append, List.length_singleton]
        exact le_rfl

theorem WellFormed.moveCursor (h : s.WellFormed) (distance : Int) :
    (s.moveCursor distance).WellFormed := by
  have hb : s.buffer.Inside := h.cursor
  unfold Session.moveCursor
  split_ifs
  · exact h.edit hb.left
  · exact h.edit (LineBuffer.inside_right _)
  · exact h

theorem WellFormed.moveWord (h : s.WellFormed) (direction : Int) :
    (s.moveWord direction).WellFormed := by
  apply h.edit
  split
  · exact LineBuffer.inside_wordLeft _
  · exact LineBuffer.inside_wordRight _

theorem WellFormed.charKey (h : s.WellFormed) (c : Char) (ctrl alt : Bool) :
    (s.charKey c ctrl alt).WellFormed := by
  have hb : s.buffer.Inside := h.cursor
  unfold Session.charKey
  split_ifs
  · exact ⟨h.cursor, h.selected⟩
  · exact wellFormed_clearInput h.selected_le
  · exact h
  · exact h.edit (hb.insert c)

theorem WellFormed.mainKey (h : s.WellFormed) (press : KeyPress) :
    (s.mainKey press).WellFormed := by
  have hb : s.buffer.Inside := h.cursor
  unfold Session.mainKey
  split
  · exact h.charKey _ _ _
  · exact h.edit hb.deleteBefore
  · exact h.edit hb.deleteAt
  · split_ifs
    · exact h.moveWord _
    · exact h.moveCursor _
  · split_ifs
    · exact h.moveWord _
    · exact h.moveCursor _
  · exact ⟨LineBuffer.inside_toStart _, h.selected⟩
  · exact h.edit (LineBuffer.inside_toEnd _)
  · exact h.navigate _
  · exact h.navigate _
  · exact h.page _
  · exact h.page _
  · exact h.submit
  · exact ⟨h.cursor, h.selected⟩
  · exact h

theorem WellFormed.helpKey (h : s.WellFormed) (key : Key) : (s.helpKey key).WellFormed := by
  unfold Session.helpKey
  split
  all_goals exact ⟨h.cursor, h.selected⟩

theorem WellFormed.wheel (h : s.WellFormed) (distance : Int) : (s.wheel distance).WellFormed := by
  unfold Session.wheel
  split_ifs
  all_goals exact ⟨h.cursor, h.selected⟩

theorem WellFormed.act [Text.Metric] (h : s.WellFormed) (a : Action) : (s.act a).WellFormed := by
  cases a with
  | event e =>
    cases e with
    | key press =>
      simp only [Session.act, handle, Session.press]
      split_ifs
      · exact h.helpKey press.key
      · exact h.mainKey press
    | wheelUp => exact h.wheel (-3)
    | wheelDown => exact h.wheel 3
    | other => exact h
  | frame width height =>
    have halike := Screen.drawSession_alike s width height
    constructor
    · simp only [Session.act, halike.buffer]
      exact h.cursor
    · simp only [Session.act, halike.history, halike.selected]
      exact h.selected

/-! ## The checks never fail -/

theorem last?_eq (h : ¬ s.history.isEmpty = true) : s.last? = some (s.history.length - 1) := by
  apply psub_of_le
  rw [List.isEmpty_iff] at h
  exact List.length_pos_iff.mpr h

theorem navigate?_eq (s : Session) (direction : Int) :
    s.navigate? direction = some (s.navigate direction) := by
  unfold navigate? Session.navigate
  by_cases hempty : s.history.isEmpty = true
  · rw [if_pos hempty, if_pos hempty]
  rw [if_neg hempty, if_neg hempty]
  by_cases hup : direction < 0 ∧ 0 < s.selected
  · rw [if_pos hup, if_pos hup, psub_of_le hup.2]
    rfl
  rw [if_neg hup, if_neg hup]
  by_cases hdown : 0 < direction
  · rw [if_pos hdown, last?_eq hempty, Option.bind_eq_bind, Option.bind_some]
    by_cases hlast : s.selected < s.history.length - 1
    · rw [if_pos hlast, if_pos ⟨hdown, hlast⟩]
      rfl
    · rw [if_neg hlast, if_neg (fun h => hlast h.2)]
  · rw [if_neg hdown, if_neg (fun h => hdown h.1)]

theorem page?_eq (s : Session) (direction : Int) :
    s.page? direction = some (s.page direction) := by
  unfold page? Session.page
  by_cases hempty : s.history.isEmpty = true
  · rw [if_pos hempty, if_pos hempty]
  rw [if_neg hempty, if_neg hempty]
  dsimp only
  by_cases hup : direction < 0
  · rw [if_pos hup, if_pos hup]
    rfl
  · rw [if_neg hup, if_neg hup, last?_eq hempty]
    rfl

theorem WellFormed.moveWord?_eq (h : s.WellFormed) (direction : Int) :
    s.moveWord? direction = some (s.moveWord direction) := by
  have hb : s.buffer.Inside := h.cursor
  unfold moveWord? Session.moveWord
  by_cases hneg : direction < 0
  · rw [if_pos hneg, if_pos hneg, hb.wordLeft?_eq]
    rfl
  · rw [if_neg hneg, if_neg hneg, hb.wordRight?_eq]
    rfl

theorem insertChar?_eq (s : Session) (c : Char) : s.insertChar? c = some (s.insertChar c) := by
  rw [insertChar?, LineBuffer.insert?_eq]
  rfl

theorem deleteBefore?_eq (s : Session) : s.deleteBefore? = some s.deleteBefore := by
  rw [deleteBefore?, LineBuffer.deleteBefore?_eq]
  rfl

theorem deleteAt?_eq (s : Session) : s.deleteAt? = some s.deleteAt := by
  rw [deleteAt?, LineBuffer.deleteAt?_eq]
  rfl

theorem WellFormed.mainKey?_eq (h : s.WellFormed) (press : KeyPress) :
    s.mainKey? press = some (s.mainKey press) := by
  rcases press with ⟨key, ctrl, alt⟩
  cases key with
  | char c =>
    cases ctrl
    · cases alt
      · exact insertChar?_eq s c
      · rfl
    · rfl
  | backspace => exact deleteBefore?_eq s
  | delete => exact deleteAt?_eq s
  | left =>
    cases ctrl
    · rfl
    · exact h.moveWord?_eq (-1)
  | right =>
    cases ctrl
    · rfl
    · exact h.moveWord?_eq 1
  | up => exact navigate?_eq s (-1)
  | down => exact navigate?_eq s 1
  | pageUp => exact page?_eq s (-1)
  | pageDown => exact page?_eq s 1
  | _ => rfl

theorem WellFormed.act?_eq [Text.Metric] (h : s.WellFormed) (a : Action) :
    s.act? a = some (s.act a) := by
  cases a with
  | event e =>
    cases e with
    | key press =>
      simp only [Session.act?, Session.act, handle?, handle, Session.press]
      split
      · rfl
      · exact h.mainKey?_eq press
    | _ => rfl
  | frame width height =>
    rw [act?, Screen.drawSession?_eq]
    rfl

theorem WellFormed.acts [Text.Metric] (h : s.WellFormed) (actions : List Action) :
    (s.acts actions).WellFormed ∧ s.acts? actions = some (s.acts actions) := by
  induction actions generalizing s with
  | nil => exact ⟨h, rfl⟩
  | cons a actions ih =>
    obtain ⟨hw, hrun⟩ := ih (h.act a)
    refine ⟨hw, ?_⟩
    rw [acts?, List.foldlM_cons, h.act?_eq, Option.bind_eq_bind, Option.bind_some]
    exact hrun

end Session

/-- After any keys, mouse events and frames in any order the cursor is inside the line and the
selection in the history.  Therefore nothing on the way there fails that is computed from them: no
index into the line, no byte offset at which it is edited, and no difference of sizes. -/
theorem session_well_formed [Text.Metric] (config : Config) (actions : List Action) :
    let s := Session.acts { config } actions
    s.buffer.cursor ≤ s.buffer.text.length ∧
    (if s.history = [] then s.selected = 0 else s.selected < s.history.length) ∧
    Session.acts? { config } actions = some s := by
  intro s
  obtain ⟨hw, hrun⟩ := (Session.wellFormed_initial config).acts actions
  exact ⟨hw.cursor, hw.selected, hrun⟩

end Calculator
