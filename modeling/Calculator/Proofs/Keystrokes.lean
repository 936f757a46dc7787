import Calculator.LineEditor
import Calculator.Proofs.Session

/-! # Editing keys

Both front ends edit the same line: its text as bytes, with the characters before the cursor
counted.  Under the editing keys it is always that of an editor which keeps the characters before
and behind the cursor in two lists and knows of no positions at all.
-/
namespace Calculator

/-- A line break is not typed, it enters the line. -/
abbrev TypedChar := { c : Char // c ≠ '\n' }

inductive EditKey where
  | type (c : TypedChar)
  | backspace
  | delete
  | left
  | right
  | home
  | toEnd

namespace EditKey

def key : EditKey → Key
  | type c => .char c
  | backspace => .backspace
  | delete => .delete
  | left => .left
  | right => .right
  | home => .home
  | toEnd => .toEnd

/-- The key as the line editor receives it, where the tabulator is a character. -/
def lineKey : EditKey → Key
  | type c => if c.val = '\t' then .tab else .char c
  | k => k.key

def action (k : EditKey) : Action := .event (.key { key := k.key })

def linePress (k : EditKey) : KeyPress := { key := k.lineKey }

end EditKey

/-- A line as the characters before the cursor, the nearest first, and those behind it. -/
structure TwoLists where
  before : List Char := []
  behind : List Char := []

namespace TwoLists

def press (t : TwoLists) : EditKey → TwoLists
  | .type c => { t with before := c :: t.before }
  | .backspace => { t with before := t.before.tail }
  | .delete => { t with behind := t.behind.tail }
  | .left =>
    match t.before with
    | [] => t
    | c :: cs => ⟨cs, c :: t.behind⟩
  | .right =>
    match t.behind with
    | [] => t
    | c :: cs => ⟨c :: t.before, cs⟩
  | .home => ⟨[], t.before.reverse ++ t.behind⟩
  | .toEnd => ⟨t.behind.reverse ++ t.before, []⟩

def buffer (t : TwoLists) : LineBuffer := ⟨t.before.reverse ++ t.behind, t.before.length⟩

end TwoLists

/-! ## The line editor, checked -/

def LineBuffer.erase? (b : LineBuffer) : Option LineBuffer := do
  let text ← removeAtByte? b.text (byteOffset b.text b.cursor)
  some { b with text }

namespace LineEditor

def edit? (b : LineBuffer) : Key → Option LineBuffer
  | .char c => b.insert? c
  | .tab => b.insert? '\t'
  | .backspace => if 0 < b.cursor then { b with cursor := b.cursor - 1 }.erase? else some b
  | .delete => if b.cursor < b.text.length then b.erase? else some b
  | .left => some (if 0 < b.cursor then { b with cursor := b.cursor - 1 } else b)
  | .right =>
    some (if b.cursor < b.text.length then { b with cursor := b.cursor + 1 } else b)
  | .home => some { b with cursor := 0 }
  | .toEnd => some { b with cursor := b.text.length }
  | _ => some b

def press? (e : LineEditor) (press : KeyPress) : Option LineEditor :=
  if press.ctrl || press.alt then some (e.press press).1
  else match press.key with
    | .enter | .up | .down => some (e.press press).1
    | key => (edit? e.buffer key).map fun buffer => { e with buffer }

def presses (e : LineEditor) (keys : List KeyPress) : LineEditor :=
  keys.foldl (fun e key => (e.press key).1) e

def presses? (e : LineEditor) (keys : List KeyPress) : Option LineEditor := keys.foldlM press? e

end LineEditor

/-! ## The two lists follow the buffer -/

namespace TwoLists

variable (t : TwoLists)

theorem inside_buffer : t.buffer.Inside := by
  simp [LineBuffer.Inside, buffer]

theorem insert_buffer (c : TypedChar) : t.buffer.insert c = (t.press (.type c)).buffer := by
  have hlength : t.before.length = t.before.reverse.length := List.length_reverse.symm
  simp only [LineBuffer.insert, buffer, press]
  rw [List.take_left' hlength.symm, List.drop_left' hlength.symm]
  simp

theorem deleteAt_buffer : t.buffer.deleteAt = (t.press .delete).buffer := by
  simp only [LineBuffer.deleteAt, buffer, press]
  rw [List.eraseIdx_append_of_length_le (by simp), List.length_reverse, Nat.sub_self,
    List.eraseIdx_zero]

theorem left_buffer : t.buffer.left = (t.press .left).buffer := by
  obtain ⟨before, behind⟩ := t
  cases before with
  | nil => rfl
  | cons c cs => simp [LineBuffer.left, buffer, press]

theorem deleteBefore_buffer : t.buffer.deleteBefore = (t.press .backspace).buffer := by
  obtain ⟨before, behind⟩ := t
  cases before with
  | nil => rfl
  | cons c cs =>
    have hleft := left_buffer ⟨c :: cs, behind⟩
    have hdelete := deleteAt_buffer ⟨cs, c :: behind⟩
    exact (congrArg LineBuffer.deleteAt hleft).trans hdelete

theorem right_buffer : t.buffer.right = (t.press .right).buffer := by
  obtain ⟨before, behind⟩ := t
  cases behind with
  | nil => simp [LineBuffer.right, buffer, press]
  | cons c cs => simp [LineBuffer.right, buffer, press]

theorem toStart_buffer : t.buffer.toStart = (t.press .home).buffer := by
  simp [LineBuffer.toStart, buffer, press]

theorem toEnd_buffer : t.buffer.toEnd = (t.press .toEnd).buffer := by
  simp [LineBuffer.toEnd, buffer, press, Nat.add_comm]

theorem split_buffer :
    splitAtByte? t.buffer.text (LineBuffer.byteOffset t.buffer.text t.buffer.cursor) =
      some (t.before.reverse, t.behind) := by
  rw [splitAtByte?_byteOffset]
  simp [buffer]

end TwoLists

/-! ## One key in a session -/

namespace Session

structure Follows (s : Session) (t : TwoLists) : Prop where
  shown : s.helpShown = false
  buffer : s.buffer = t.buffer

variable [Text.Metric] {s : Session} {t : TwoLists}

theorem act_key (h : s.helpShown = false) (k : EditKey) :
    s.act k.action = s.mainKey { key := k.key } := press_main h _

theorem act?_key (h : s.helpShown = false) (k : EditKey) :
    s.act? k.action = s.mainKey? { key := k.key } := by
  simp [act?, EditKey.action, handle?, h]

theorem Follows.act (h : s.Follows t) (k : EditKey) :
    (s.act k.action).Follows (t.press k) ∧ s.act? k.action = some (s.act k.action) := by
  have hshown := h.shown
  rw [act_key hshown, act?_key hshown]
  cases k with
  | type c =>
    refine ⟨⟨hshown, ?_⟩, insertChar?_eq s c⟩
    exact (congrArg (LineBuffer.insert · c) h.buffer).trans (t.insert_buffer c)
  | backspace =>
    refine ⟨⟨hshown, ?_⟩, deleteBefore?_eq s⟩
    exact (congrArg LineBuffer.deleteBefore h.buffer).trans t.deleteBefore_buffer
  | delete =>
    refine ⟨⟨hshown, ?_⟩, deleteAt?_eq s⟩
    exact (congrArg LineBuffer.deleteAt h.buffer).trans t.deleteAt_buffer
  | left =>
    refine ⟨⟨hshown, ?_⟩, rfl⟩
    exact (congrArg LineBuffer.left h.buffer).trans t.left_buffer
  | right =>
    refine ⟨⟨hshown, ?_⟩, rfl⟩
    exact (congrArg LineBuffer.right h.buffer).trans t.right_buffer
  | home =>
    refine ⟨⟨hshown, ?_⟩, rfl⟩
    exact (congrArg LineBuffer.toStart h.buffer).trans t.toStart_buffer
  | toEnd =>
    refine ⟨⟨hshown, ?_⟩, rfl⟩
    exact (congrArg LineBuffer.toEnd h.buffer).trans t.toEnd_buffer

theorem Follows.acts (h : s.Follows t) (keys : List EditKey) :
    (s.acts (keys.map EditKey.action)).Follows (keys.foldl TwoLists.press t) ∧
      s.acts? (keys.map EditKey.action) = some (s.acts (keys.map EditKey.action)) := by
  induction keys generalizing s t with
  | nil => exact ⟨h, rfl⟩
  | cons k keys ih =>
    obtain ⟨hnext, hstep⟩ := h.act k
    obtain ⟨hlast, hrun⟩ := ih hnext
    refine ⟨hlast, ?_⟩
    rw [List.map_cons, acts?, List.foldlM_cons, hstep, Option.bind_eq_bind, Option.bind_some]
    exact hrun

theorem Follows.type_backspace (h : s.Follows t) (c : TypedChar) :
    s.acts [(EditKey.type c).action, EditKey.backspace.action] = s := by
  have hbuffer : (s.buffer.insert c).deleteBefore = s.buffer := by
    rw [h.buffer, TwoLists.insert_buffer, TwoLists.deleteBefore_buffer]
    rfl
  have htyped : s.act (EditKey.type c).action = s.insertChar c := act_key h.shown _
  have hshown : (s.insertChar c).helpShown = false := h.shown
  rw [Session.acts, List.foldl_cons, htyped, List.foldl_cons, act_key hshown]
  exact congrArg (fun buffer => { s with buffer }) hbuffer

end Session

/-! ## One key in the line editor -/

namespace LineEditor

variable {e : LineEditor} {t : TwoLists}

theorem edit?_buffer (t : TwoLists) (k : EditKey) :
    edit? t.buffer k.lineKey = some (t.press k).buffer := by
  -- The guards shut out only what would change nothing: a key that has reached an end of the line.
  cases k with
  | type c =>
    rw [← t.insert_buffer c, ← LineBuffer.insert?_eq]
    by_cases h : c.val = '\t'
    · simp [EditKey.lineKey, edit?, h]
    · simp [EditKey.lineKey, edit?, h]
  | backspace =>
    rw [← t.deleteBefore_buffer]
    by_cases h : 0 < t.buffer.cursor
    · have hinside : t.buffer.cursor - 1 < t.buffer.text.length := by
        have := t.inside_buffer
        unfold LineBuffer.Inside at this
        omega
      simp [EditKey.lineKey, EditKey.key, edit?, h, LineBuffer.erase?, LineBuffer.deleteBefore,
        LineBuffer.deleteAt, removeAtByte?_byteOffset hinside]
    · simp [EditKey.lineKey, EditKey.key, edit?, h, LineBuffer.deleteBefore]
  | delete =>
    rw [← t.deleteAt_buffer, ← LineBuffer.deleteAt?_eq]
    rfl
  | left =>
    rw [← t.left_buffer]
    by_cases h : 0 < t.buffer.cursor
    · simp [EditKey.lineKey, EditKey.key, edit?, h, LineBuffer.left]
    · have hzero : t.buffer.cursor - 1 = t.buffer.cursor := by omega
      simp [EditKey.lineKey, EditKey.key, edit?, h, LineBuffer.left, hzero]
  | right =>
    rw [← t.right_buffer]
    by_cases h : t.buffer.cursor < t.buffer.text.length
    · have hnext : min (t.buffer.cursor + 1) t.buffer.text.length = t.buffer.cursor + 1 :=
        min_eq_left h
      rw [LineBuffer.right, hnext]
      simp [EditKey.lineKey, EditKey.key, edit?, h]
    · have hend : min (t.buffer.cursor + 1) t.buffer.text.length = t.buffer.cursor := by
        have hinside : t.buffer.cursor ≤ t.buffer.text.length := t.inside_buffer
        omega
      rw [LineBuffer.right, hend]
      simp [EditKey.lineKey, EditKey.key, edit?, h]
  | home => exact congrArg some t.toStart_buffer
  | toEnd => exact congrArg some t.toEnd_buffer

theorem press_key (h : e.buffer = t.buffer) (k : EditKey) :
    (e.press k.linePress).1 = { e with buffer := (t.press k).buffer } := by
  obtain ⟨config, buffer, history, index, ended⟩ := e
  obtain rfl : buffer = t.buffer := h
  cases k with
  | type c =>
    rw [← t.insert_buffer c]
    by_cases htab : c.val = '\t'
    · simp [EditKey.linePress, EditKey.lineKey, press, edit, htab]
    · simp [EditKey.linePress, EditKey.lineKey, press, edit, htab]
  | backspace => rw [← t.deleteBefore_buffer]; rfl
  | delete => rw [← t.deleteAt_buffer]; rfl
  | left => rw [← t.left_buffer]; rfl
  | right => rw [← t.right_buffer]; rfl
  | home => rw [← t.toStart_buffer]; rfl
  | toEnd => rw [← t.toEnd_buffer]; rfl

theorem press?_key (h : e.buffer = t.buffer) (k : EditKey) :
    e.press? k.linePress = some (e.press k.linePress).1 := by
  have hedit : e.press? k.linePress =
      (edit? e.buffer k.lineKey).map fun buffer => { e with buffer } := by
    cases k with
    | type c =>
      by_cases htab : c.val = '\t'
      · simp [EditKey.linePress, EditKey.lineKey, press?, htab]
      · simp [EditKey.linePress, EditKey.lineKey, press?, htab]
    | _ => rfl
  rw [hedit, h, edit?_buffer, press_key h]
  rfl

theorem presses_keys (h : e.buffer = t.buffer) (keys : List EditKey) :
    e.presses (keys.map EditKey.linePress) =
        { e with buffer := (keys.foldl TwoLists.press t).buffer } ∧
      e.presses? (keys.map EditKey.linePress) =
        some (e.presses (keys.map EditKey.linePress)) := by
  induction keys generalizing e t with
  | nil => exact ⟨congrArg (fun buffer => { e with buffer }) h, rfl⟩
  | cons k keys ih =>
    have hpress := press_key h k
    have hnext : (e.press k.linePress).1.buffer = (t.press k).buffer := by rw [hpress]
    obtain ⟨hlast, hrun⟩ := ih hnext
    constructor
    · refine hlast.trans ?_
      rw [hpress]
      rfl
    · rw [List.map_cons, presses?, List.foldlM_cons, press?_key h, Option.bind_eq_bind,
        Option.bind_some]
      exact hrun

end LineEditor

/-- From an empty line on, both front ends have the text and the cursor of the two lists after any
keys that edit.  The byte offset of the cursor parts the text into these lists, no offset falls into
a character, and a typed character that is taken away again leaves nothing behind. -/
theorem editors_agree [Text.Metric] (s : Session) (e : LineEditor) (keys : List EditKey) :
    let actions := keys.map EditKey.action
    let presses := keys.map EditKey.linePress
    let t : TwoLists := keys.foldl TwoLists.press {}
    let s' := { s with buffer := {}, helpShown := false }.acts actions
    let e' := { e with buffer := {} }.presses presses
    (s'.buffer = t.buffer ∧ e'.buffer = t.buffer) ∧
    ({ s with buffer := {}, helpShown := false }.acts? actions = some s' ∧
      { e with buffer := {} }.presses? presses = some e') ∧
    splitAtByte? t.buffer.text (LineBuffer.byteOffset t.buffer.text t.buffer.cursor) =
      some (t.before.reverse, t.behind) ∧
    (∀ n, (⟨LineBuffer.byteOffset t.buffer.text n⟩ : String.Pos.Raw).IsValid
      (String.ofList t.buffer.text)) ∧
    ∀ c : TypedChar,
      s'.acts [(EditKey.type c).action, EditKey.backspace.action] = s' ∧
      e'.presses [(EditKey.type c).linePress, EditKey.backspace.linePress] = e' := by
  intro actions presses t s' e'
  have hempty : { s with buffer := {}, helpShown := false }.Follows {} := ⟨rfl, rfl⟩
  obtain ⟨hfollows, hsession⟩ := hempty.acts keys
  obtain ⟨hline, hpresses⟩ :=
    LineEditor.presses_keys (e := { e with buffer := {} }) (t := {}) rfl keys
  have hbuffer : e'.buffer = t.buffer := congrArg LineEditor.buffer hline
  refine ⟨⟨hfollows.buffer, hbuffer⟩, ⟨hsession, hpresses⟩, t.split_buffer,
    byteOffset_isValid t.buffer.text, fun c => ⟨hfollows.type_backspace c, ?_⟩⟩
  have hback := (LineEditor.presses_keys hbuffer [.type c, .backspace]).1
  refine hback.trans ?_
  exact congrArg (fun buffer => { e' with buffer }) hbuffer.symm

end Calculator
