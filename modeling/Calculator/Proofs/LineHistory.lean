import Calculator.Proofs.Keystrokes
import Calculator.Proofs.Request

/-! # The history of the line editor

Whatever keys come, the cursor stays inside the line and the index inside the history or right
behind it, so that the checked accesses to both never fail.  Only the enter key stores a line, and
only one that is evaluated.
-/
namespace Calculator

def KeyPress.edits (p : KeyPress) : Bool :=
  match p.key with
  | .char _ | .tab | .backspace | .delete | .enter => true
  | _ => false

def KeyPress.enter : KeyPress := { key := .enter }

namespace LineEditor

def line (e : LineEditor) : List Char := Text.trim e.buffer.text

structure WellFormed (e : LineEditor) : Prop where
  cursor : e.buffer.Inside
  index : e.index ≤ e.history.length

/-- A line that is evaluated: trimmed, not blank, no command and more than the keyword. -/
structure Storable (line : List Char) : Prop where
  trimmed : Text.trim line = line
  visible : ∃ c ∈ line, Text.isBlank c = false
  command : ∀ word ∈ ["quit", "exit", "q", "clear", "reset"],
    Text.sameLetters line word.toList = false
  keyword : Text.sameLetters line Request.keyword = false

inductive Enters (e : LineEditor) : LineEditor × List Char → Prop
  | blank (h : e.line = []) : Enters e ({ e with buffer := {} }, newline ++ newPrompt)
  | quit (h : Command.ofLine? e.line = some .quit) :
      Enters e ({ e with ended := true }, "\r\nGoodbye!\r\n".toList)
  | clear (h : Command.ofLine? e.line = some .clear) :
      Enters e ({ e with buffer := {}, history := [], index := 0 },
        "\r\nHistory cleared\r\n\n".toList ++ newPrompt)
  | missing (h : Text.sameLetters e.line Request.keyword = true) :
      Enters e ({ e with buffer := {} },
        "\r\nPlease enter a valid expression after 'details'\r\n".toList ++ newPrompt)
  | stored (h : Storable e.line) :
      Enters e
        ({ e with buffer := {}, history := e.history ++ [e.line], index := e.history.length + 1 },
          answer e.config (Request.ofLine e.line) ++ newPrompt)

inductive Pressed (e : LineEditor) (p : KeyPress) : LineEditor × List Char → Prop
  | entered {result : LineEditor × List Char} (hp : p = .enter) (h : e.Enters result) :
      Pressed e p result
  | stopped (hp : p.edits = true) : Pressed e p ({ e with ended := true }, newline)
  | edited (hp : p.edits = true) (b : LineBuffer) (h : e.buffer.Inside → b.Inside) :
      Pressed e p ({ e with buffer := b }, [])
  | moved (b : LineBuffer) (h : e.buffer.Inside → b.Inside) (htext : b.text = e.buffer.text) :
      Pressed e p ({ e with buffer := b }, [])
  | older : Pressed e p (e.older, [])
  | newer : Pressed e p (e.newer, [])

structure Keeps (e e' : LineEditor) : Prop where
  config : e'.config = e.config
  history : e'.history = e.history
  ended : e'.ended = e.ended

inductive Revises (e : LineEditor) (p : KeyPress) : List (List Char) → Prop
  | kept : Revises e p e.history
  | cleared : Revises e p []
  | stored (hp : p = .enter) (h : Storable e.line) : Revises e p (e.history ++ [e.line])

/-! ## Checked access to the history -/

def restore? (e : LineEditor) (index : Nat) : Option LineEditor := do
  let line ← e.history[index]?
  some { e with index, buffer := .ofText line }

def older? (e : LineEditor) : Option LineEditor :=
  if 0 < e.index then e.restore? (e.index - 1) else some e

def newer? (e : LineEditor) : Option LineEditor :=
  if e.index < e.history.length - 1 then e.restore? (e.index + 1)
  else some { e with index := e.history.length, buffer := {} }

/-- A key with every access checked, to the characters of the line and to the history. -/
def handle? (e : LineEditor) (p : KeyPress) : Option LineEditor :=
  if p.ctrl || p.alt then e.press? p
  else match p.key with
    | .up => e.older?
    | .down => e.newer?
    | _ => e.press? p

def handles? (e : LineEditor) (keys : List KeyPress) : Option LineEditor := keys.foldlM handle? e

end LineEditor

/-! ## Entering a line -/

/-- Commands are recognised in any letter case. -/
theorem Command.ofLine?_congr {line word : List Char} (h : Text.sameLetters line word = true) :
    ofLine? line = ofLine? word := by
  have hsame : Text.sameLetters line = Text.sameLetters word := by
    funext ys
    simp only [Text.sameLetters, Text.sameLetters_iff.mp h]
  rw [ofLine?, hsame]
  rfl

namespace LineEditor

variable {e : LineEditor} {line : List Char} {p : KeyPress} {result : LineEditor × List Char}

theorem trimmed_line (e : LineEditor) : Text.Trimmed e.line := Text.trimmed_trim _

theorem Storable.of_line (hne : e.line ≠ []) (hquit : Command.ofLine? e.line ≠ some .quit)
    (hclear : Command.ofLine? e.line ≠ some .clear)
    (hkeyword : Text.sameLetters e.line Request.keyword = false) : Storable e.line := by
  refine ⟨e.trimmed_line.trim_eq, e.trimmed_line.exists_visible hne, ?_, hkeyword⟩
  intro word hword
  by_contra h
  have hcommand := Command.ofLine?_congr (eq_true_of_ne_false h)
  have hall : ∀ word ∈ ["quit", "exit", "q", "clear", "reset"],
      Command.ofLine? word.toList = some .quit ∨ Command.ofLine? word.toList = some .clear := by
    decide
  rcases hall word hword with h | h
  · exact hquit (hcommand.trans h)
  · exact hclear (hcommand.trans h)

theorem Storable.ne_nil (h : Storable line) : line ≠ [] := by
  obtain ⟨c, hc, -⟩ := h.visible
  exact List.ne_nil_of_mem hc

theorem Storable.ofLine? (h : Storable line) :
    Command.ofLine? line ≠ some .quit ∧ Command.ofLine? line ≠ some .clear := by
  have hnot (c : Command) (words : List String) (hc : c.spellings = words.map String.toList)
      (hwords : ∀ word ∈ words, word ∈ ["quit", "exit", "q", "clear", "reset"]) :
      Command.ofLine? line ≠ some c := by
    intro hline
    obtain ⟨word, hword, hsame⟩ := Command.exists_word words hc hline
    rw [h.command word (hwords word hword)] at hsame
    cases hsame
  exact ⟨hnot .quit ["quit", "exit", "q"] rfl (by decide),
    hnot .clear ["clear", "reset"] rfl (by decide)⟩

theorem submit_storable (h : Storable e.line) :
    e.submit =
      ({ e with buffer := {}, history := e.history ++ [e.line], index := e.history.length + 1 },
        answer e.config (Request.ofLine e.line) ++ newPrompt) := by
  have hne : e.line.isEmpty = false := List.isEmpty_eq_false_iff.mpr h.ne_nil
  have hexpression : (Request.ofLine e.line).expression.isEmpty = false :=
    List.isEmpty_eq_false_iff.mpr
      ((Request.asks e.line).expression_ne_nil e.trimmed_line h.ne_nil h.keyword)
  obtain ⟨hquit, hclear⟩ := h.ofLine?
  simp only [LineEditor.line] at hne hexpression hquit hclear ⊢
  simp only [submit, hne, hexpression]
  split
  · contradiction
  · rfl

theorem enters (e : LineEditor) : e.Enters e.submit := by
  unfold submit
  dsimp only
  split
  · next hempty => exact .blank (List.isEmpty_iff.mp hempty)
  · next hempty =>
    have hne : e.line ≠ [] := fun h => hempty (List.isEmpty_iff.mpr h)
    have hmissing := Request.expression_eq_nil_iff e.trimmed_line hne
    split
    · next hquit => exact .quit hquit
    · next hclear => exact .clear hclear
    · next hquit hclear =>
      split
      · next hexpression => exact .missing (hmissing.mp (List.isEmpty_iff.mp hexpression))
      · next hexpression =>
        refine .stored (.of_line hne hquit hclear (Bool.eq_false_iff.mpr fun hkeyword => ?_))
        exact hexpression (List.isEmpty_iff.mpr (hmissing.mpr hkeyword))

/-! ## Pressing a key -/

theorem pressed (e : LineEditor) (p : KeyPress) : e.Pressed p (e.press p) := by
  have hkept : e.Pressed p (e, []) := .moved e.buffer id rfl
  obtain ⟨key, ctrl, alt⟩ := p
  cases ctrl with
  | true =>
    simp only [press, if_true]
    split
    · exact .stopped rfl
    · exact .stopped rfl
    · exact hkept
  | false =>
    cases alt with
    | true => exact hkept
    | false =>
      cases key with
      | enter => exact .entered rfl e.enters
      | char c => exact .edited rfl _ (·.insert c)
      | tab => exact .edited rfl _ (·.insert '\t')
      | backspace => exact .edited rfl _ (·.deleteBefore)
      | delete => exact .edited rfl _ (·.deleteAt)
      | left => exact .moved _ (·.left) rfl
      | right => exact .moved _ (fun _ => e.buffer.inside_right) rfl
      | home => exact .moved _ (fun _ => e.buffer.inside_toStart) rfl
      | toEnd => exact .moved _ (fun _ => e.buffer.inside_toEnd) rfl
      | up => exact .older
      | down => exact .newer
      | _ => exact hkept

/-! ## The cursor and the index -/

theorem restore_eq {index : Nat} (h : e.history[index]? = some line) :
    e.restore index = { e with index, buffer := .ofText line } := by
  rw [restore, h]

theorem wellFormed_restore {index : Nat} (h : index < e.history.length) :
    (e.restore index).WellFormed ∧ e.restore? index = some (e.restore index) := by
  have hline : e.history[index]? = some e.history[index] := List.getElem?_eq_getElem h
  rw [restore_eq hline, restore?, hline]
  exact ⟨⟨LineBuffer.inside_ofText _, h.le⟩, rfl⟩

theorem WellFormed.older (h : e.WellFormed) :
    e.older.WellFormed ∧ e.older? = some e.older := by
  have hindex := h.index
  unfold LineEditor.older older?
  split_ifs with hpos
  · exact wellFormed_restore (by omega)
  · exact ⟨h, rfl⟩

theorem wellFormed_newer (e : LineEditor) : e.newer.WellFormed ∧ e.newer? = some e.newer := by
  unfold newer newer?
  split_ifs with hlast
  · exact wellFormed_restore (by omega)
  · exact ⟨⟨Nat.zero_le _, le_rfl⟩, rfl⟩

theorem Enters.wellFormed (h : e.Enters result) (he : e.WellFormed) : result.1.WellFormed := by
  cases h with
  | blank _ => exact ⟨Nat.zero_le _, he.index⟩
  | quit _ => exact ⟨he.cursor, he.index⟩
  | clear _ => exact ⟨Nat.zero_le _, Nat.zero_le _⟩
  | missing _ => exact ⟨Nat.zero_le _, he.index⟩
  | stored _ => exact ⟨Nat.zero_le _, by simp⟩

theorem Pressed.wellFormed (h : e.Pressed p result) (he : e.WellFormed) :
    result.1.WellFormed := by
  cases h with
  | entered _ henters => exact henters.wellFormed he
  | stopped _ => exact ⟨he.cursor, he.index⟩
  | edited _ b hb => exact ⟨hb he.cursor, he.index⟩
  | moved b hb _ => exact ⟨hb he.cursor, he.index⟩
  | older => exact he.older.1
  | newer => exact e.wellFormed_newer.1

/-! The checks never fail. -/

/-- A buffer with the cursor inside has lists before and behind it. -/
theorem exists_twoLists {b : LineBuffer} (h : b.Inside) : ∃ t : TwoLists, b = t.buffer := by
  refine ⟨⟨(b.text.take b.cursor).reverse, b.text.drop b.cursor⟩, ?_⟩
  rw [TwoLists.buffer, List.reverse_reverse, List.take_append_drop, List.length_reverse,
    List.length_take_of_le h]

theorem press?_eq (h : e.buffer.Inside) (p : KeyPress) : e.press? p = some (e.press p).1 := by
  obtain ⟨t, ht⟩ := exists_twoLists h
  obtain ⟨key, ctrl, alt⟩ := p
  cases ctrl with
  | true => rfl
  | false =>
    cases alt with
    | true => rfl
    | false =>
      cases key with
      | char c => exact congrArg (Option.map _) (e.buffer.insert?_eq c)
      | tab => exact congrArg (Option.map _) (e.buffer.insert?_eq '\t')
      | backspace => exact press?_key ht .backspace
      | delete => exact press?_key ht .delete
      | left => exact press?_key ht .left
      | right => exact press?_key ht .right
      | home => exact press?_key ht .home
      | toEnd => exact press?_key ht .toEnd
      | _ => rfl

theorem WellFormed.handle?_eq (h : e.WellFormed) (p : KeyPress) :
    e.handle? p = some (e.press p).1 := by
  have hpress := press?_eq h.cursor p
  unfold handle?
  split_ifs with hmodified
  · exact hpress
  · obtain ⟨hctrl, halt⟩ := Bool.or_eq_false_iff.mp (Bool.eq_false_iff.mpr hmodified)
    split
    · next hkey => simp [h.older.2, LineEditor.press, hctrl, halt, hkey]
    · next hkey => simp [e.wellFormed_newer.2, LineEditor.press, hctrl, halt, hkey]
    · exact hpress

theorem presses_cons (e : LineEditor) (p : KeyPress) (keys : List KeyPress) :
    e.presses (p :: keys) = (e.press p).1.presses keys := rfl

theorem presses_append (e : LineEditor) (keys keys' : List KeyPress) :
    e.presses (keys ++ keys') = (e.presses keys).presses keys' := List.foldl_append

theorem WellFormed.presses (h : e.WellFormed) (keys : List KeyPress) :
    (e.presses keys).WellFormed ∧ e.handles? keys = some (e.presses keys) := by
  induction keys generalizing e with
  | nil => exact ⟨h, rfl⟩
  | cons p keys ih =>
    obtain ⟨hlast, hrun⟩ := ih ((e.pressed p).wellFormed h)
    refine ⟨hlast, ?_⟩
    rw [handles?, List.foldlM_cons, h.handle?_eq p, Option.bind_eq_bind, Option.bind_some]
    exact hrun

theorem wellFormed_initial (config : Config) : WellFormed { config } :=
  ⟨Nat.zero_le _, Nat.zero_le _⟩

/-! ## What is stored -/

theorem keeps_restore (e : LineEditor) (index : Nat) : e.Keeps (e.restore index) := ⟨rfl, rfl, rfl⟩

theorem keeps_older (e : LineEditor) : e.Keeps e.older := by
  unfold older
  split_ifs
  · exact e.keeps_restore _
  · exact ⟨rfl, rfl, rfl⟩

theorem keeps_newer (e : LineEditor) : e.Keeps e.newer := by
  unfold newer
  split_ifs
  · exact e.keeps_restore _
  · exact ⟨rfl, rfl, rfl⟩

theorem Pressed.revises (h : e.Pressed p result) : e.Revises p result.1.history := by
  cases h with
  | entered hp henters =>
    cases henters with
    | clear _ => exact .cleared
    | stored hline => exact .stored hp hline
    | _ => exact .kept
  | older =>
    rw [e.keeps_older.history]
    exact .kept
  | newer =>
    rw [e.keeps_newer.history]
    exact .kept
  | _ => exact .kept

theorem Pressed.config (h : e.Pressed p result) : result.1.config = e.config := by
  cases h with
  | entered _ henters => cases henters <;> rfl
  | older => exact e.keeps_older.config
  | newer => exact e.keeps_newer.config
  | _ => rfl

theorem Pressed.ended (h : e.Pressed p result) (he : e.ended = true) : result.1.ended = true := by
  cases h with
  | entered _ henters => cases henters <;> first | exact he | rfl
  | stopped _ => rfl
  | older => exact e.keeps_older.ended.trans he
  | newer => exact e.keeps_newer.ended.trans he
  | _ => exact he

theorem Revises.storable {history : List (List Char)} (h : e.Revises p history)
    (he : ∀ line ∈ e.history, Storable line) : ∀ line ∈ history, Storable line := by
  intro line hline
  cases h with
  | kept => exact he line hline
  | cleared => nomatch hline
  | stored _ hnew =>
    rcases List.mem_append.mp hline with hold | hlast
    · exact he line hold
    · rw [List.mem_singleton.mp hlast]
      exact hnew

/-! The same for any keys. -/

theorem config_presses (e : LineEditor) (keys : List KeyPress) :
    (e.presses keys).config = e.config := by
  induction keys generalizing e with
  | nil => rfl
  | cons p keys ih => exact (ih _).trans (e.pressed p).config

theorem ended_presses (h : e.ended = true) (keys : List KeyPress) :
    (e.presses keys).ended = true := by
  induction keys generalizing e with
  | nil => exact h
  | cons p keys ih => exact ih ((e.pressed p).ended h)

theorem storable_presses (h : ∀ line ∈ e.history, Storable line) (keys : List KeyPress) :
    ∀ line ∈ (e.presses keys).history, Storable line := by
  induction keys generalizing e with
  | nil => exact h
  | cons p keys ih => exact ih ((e.pressed p).revises.storable h)

end LineEditor

end Calculator
