import Calculator.Proofs.Observation
import Calculator.Proofs.Request
import Calculator.Proofs.Session

/-! # The history of a session

Entering a line that is no command adds one entry to the history, the command to clear it takes all
of them away, and nothing else changes it.  What an entry says is found again by evaluating its
input.
-/
namespace Calculator

namespace Entry

def ofLine (config : Config) (line : List Char) : Entry :=
  let request := Request.ofLine line
  if request.expression.isEmpty then { input := line, outcome := .missingExpression }
  else .ofRequest config request

/-- The input of an entry is a trimmed text that is not blank; a result is the one that evaluating
the input gives, with its steps if the entry is detailed, and it is missing only for the bare
keyword. -/
structure Faithful (config : Config) (entry : Entry) : Prop where
  trimmed : Text.trim entry.input = entry.input
  visible : ∃ c ∈ entry.input, Text.isBlank c = false
  evaluated : ∀ result, entry.outcome = .ofResult result →
    (config.evaluateWith entry.input { detailed := entry.detailed }).1.result = result ∧
      entry.steps = if entry.detailed then config.stepsAlone entry.input else []
  missing : entry.outcome = .missingExpression →
    Text.sameLetters entry.input Request.keyword = true ∧ entry.steps = []

inductive Entered (config : Config) : Entry → Prop
  | ofLine {line : List Char} (htrim : Text.Trimmed line) (hne : line ≠ [])
      (hnone : Command.ofLine? line = none) : Entered config (.ofLine config line)

end Entry

namespace Action

def press (key : Key) : Action := .event (.key { key })

def typing (text : List Char) : List Action := text.map fun c => press (.char c)

end Action

namespace Session

def line (s : Session) : List Char := Text.trim s.buffer.text

inductive Enters (s : Session) : Session → Prop
  | blank (h : s.line = []) : Enters s s
  | quit (h : Command.ofLine? s.line = some .quit) : Enters s { s with quitting := true }
  | clear (h : Command.ofLine? s.line = some .clear) :
      Enters s { s with history := [], selected := 0, historyScroll := 0 }.clearInput
  | help (h : Command.ofLine? s.line = some .help) :
      Enters s { s with helpShown := true, helpScroll := 0 }.clearInput
  | missing (hne : s.line ≠ []) (hnone : Command.ofLine? s.line = none)
      (hkeyword : Text.sameLetters s.line Request.keyword = true) :
      Enters s { s with history := s.history ++ [Entry.ofLine s.config s.line] }.clearInput
  | evaluated (hne : s.line ≠ []) (hnone : Command.ofLine? s.line = none)
      (hkeyword : Text.sameLetters s.line Request.keyword = false) :
      Enters s { s with history := s.history ++ [Entry.ofLine s.config s.line],
                        selected := s.history.length, followNewest := true }.clearInput

def Entering (s : Session) : Action → Prop
  | .event (.key press) => s.helpShown = false ∧ press.key = .enter
  | _ => False

inductive Revises (s : Session) (a : Action) : List Entry → Prop
  | kept (h : s.Entering a → s.line = [] ∨
      ∃ word ∈ ["quit", "exit", "q", "help"], Text.sameLetters s.line word.toList = true) :
      Revises s a s.history
  | appended (h : s.Entering a) (hne : s.line ≠ []) (hnone : Command.ofLine? s.line = none) :
      Revises s a (s.history ++ [Entry.ofLine s.config s.line])
  | cleared (h : s.Entering a)
      (hword : ∃ word ∈ ["clear", "reset"], Text.sameLetters s.line word.toList = true) :
      Revises s a []

inductive Edits (s : Session) : Session → Prop
  | edited (buffer : LineBuffer) (inputScroll selected : Nat) (followNewest quitting : Bool) :
      Edits s { s with buffer, inputScroll, selected, followNewest, quitting }
  | opened : Edits s s.showHelp

structure Keeps (s t : Session) : Prop where
  config : t.config = s.config
  history : t.history = s.history

end Session

/-! ## Entries -/

namespace Entry

variable {config : Config} {line : List Char} {entry : Entry}

theorem ofLine_keyword (h : Text.sameLetters line Request.keyword = true) :
    Entry.ofLine config line = { input := line, outcome := .missingExpression } := by
  simp only [Entry.ofLine, Request.ofLine, h, if_true, List.isEmpty_nil]

theorem ofLine_request (htrim : Text.Trimmed line) (hne : line ≠ [])
    (h : Text.sameLetters line Request.keyword = false) :
    Entry.ofLine config line = .ofRequest config (Request.ofLine line) := by
  have hexpression := (Request.asks line).expression_ne_nil htrim hne h
  rw [Entry.ofLine, if_neg (by rwa [List.isEmpty_iff])]

theorem ofRequest_steps (config : Config) (request : Request) :
    (Entry.ofRequest config request).steps =
      if request.detailed then config.stepsAlone request.expression else [] := by
  cases hd : request.detailed <;> simp [Entry.ofRequest, Config.evaluateWith, Trace.record, hd,
    stepsAlone_eq]

theorem ofResult_injective {r r' : Except Failure Float} (h : Outcome.ofResult r = .ofResult r') :
    r = r' := by
  cases r <;> cases r' <;> cases h <;> rfl

theorem ofResult_ne_missing (r : Except Failure Float) :
    Outcome.ofResult r ≠ .missingExpression := by
  cases r <;> exact nofun

theorem Entered.faithful (h : entry.Entered config) : entry.Faithful config := by
  obtain @⟨line, htrim, hne, hnone⟩ := h
  cases hkeyword : Text.sameLetters line Request.keyword with
  | true =>
    rw [ofLine_keyword hkeyword]
    refine ⟨htrim.trim_eq, htrim.exists_visible hne, ?_, fun _ => ⟨hkeyword, rfl⟩⟩
    intro result h
    exact absurd h.symm (ofResult_ne_missing result)
  | false =>
    rw [ofLine_request htrim hne hkeyword]
    have hasks := Request.asks line
    have hexpression := hasks.trimmed htrim
    refine ⟨hexpression.trim_eq,
      hexpression.exists_visible (hasks.expression_ne_nil htrim hne hkeyword), ?_, ?_⟩
    · intro result h
      exact ⟨ofResult_injective h, ofRequest_steps config _⟩
    · intro h
      exact absurd h (ofResult_ne_missing _)

end Entry

/-! ## Entering a line -/

namespace Session

variable {s t : Session} {a : Action}

theorem trimmed_line (s : Session) : Text.Trimmed s.line := Text.trimmed_trim _

theorem submit_blank (h : s.line = []) : s.submit = s := if_pos (by rwa [List.isEmpty_iff])

theorem submit_command {c : Command} (h : Command.ofLine? s.line = some c) :
    s.submit =
      match c with
      | .quit => { s with quitting := true }
      | .clear => { s with history := [], selected := 0, historyScroll := 0 }.clearInput
      | .help => { s with helpShown := true, helpScroll := 0 }.clearInput := by
  have hne : s.line.isEmpty = false := by
    rw [List.isEmpty_eq_false_iff]
    intro hnil
    rw [hnil] at h
    cases h
  simp only [line] at h hne
  simp only [submit, hne, h]
  cases c <;> rfl

theorem submit_keyword (hnone : Command.ofLine? s.line = none)
    (hkeyword : Text.sameLetters s.line Request.keyword = true) :
    s.submit =
      { s with history := s.history ++ [Entry.ofLine s.config s.line] }.clearInput := by
  have hne : s.line.isEmpty = false := by
    rw [List.isEmpty_eq_false_iff]
    intro hnil
    rw [hnil] at hkeyword
    cases hkeyword
  have hmissing : (Request.ofLine s.line).expression.isEmpty = true := by
    simp only [Request.ofLine, hkeyword, if_true, List.isEmpty_nil]
  rw [Entry.ofLine_keyword hkeyword]
  simp only [line] at hnone hne hmissing ⊢
  simp only [submit, hne, hnone, hmissing]
  rfl

theorem submit_request (hne : s.line ≠ []) (hnone : Command.ofLine? s.line = none)
    (hkeyword : Text.sameLetters s.line Request.keyword = false) :
    s.submit =
      { s with history := s.history ++ [Entry.ofLine s.config s.line],
               selected := s.history.length, followNewest := true }.clearInput := by
  have hexpression : (Request.ofLine s.line).expression.isEmpty = false :=
    List.isEmpty_eq_false_iff.mpr
      ((Request.asks s.line).expression_ne_nil s.trimmed_line hne hkeyword)
  rw [Entry.ofLine_request s.trimmed_line hne hkeyword]
  rw [← List.isEmpty_eq_false_iff] at hne
  simp only [line] at hne hnone hexpression ⊢
  simp only [submit, hne, hnone, hexpression]
  rfl

theorem enters (s : Session) : s.Enters s.submit := by
  by_cases hne : s.line = []
  · rw [submit_blank hne]
    exact .blank hne
  cases hc : Command.ofLine? s.line with
  | some c =>
    rw [submit_command hc]
    cases c with
    | quit => exact .quit hc
    | clear => exact .clear hc
    | help => exact .help hc
  | none =>
    cases hkeyword : Text.sameLetters s.line Request.keyword with
    | true =>
      rw [submit_keyword hc hkeyword]
      exact .missing hne hc hkeyword
    | false =>
      rw [submit_request hne hc hkeyword]
      exact .evaluated hne hc hkeyword

theorem Enters.config (h : s.Enters t) : t.config = s.config := by
  cases h <;> rfl

/-- The history grows only by the entry of a line that is no command. -/
theorem Enters.grown (h : s.Enters t) (hgrown : s.history.length < t.history.length) :
    s.line ≠ [] ∧ Command.ofLine? s.line = none ∧
      t.history = s.history ++ [Entry.ofLine s.config s.line] ∧
      t.quitting = s.quitting ∧ t.helpShown = s.helpShown := by
  cases h with
  | blank _ => exact absurd hgrown (lt_irrefl _)
  | quit _ => exact absurd hgrown (lt_irrefl _)
  | clear _ => exact absurd hgrown (Nat.not_lt_zero _)
  | help _ => exact absurd hgrown (lt_irrefl _)
  | missing hne hnone _ => exact ⟨hne, hnone, rfl, rfl, rfl⟩
  | evaluated hne hnone _ => exact ⟨hne, hnone, rfl, rfl, rfl⟩

theorem Enters.revises (h : s.Enters t) (ha : s.Entering a) : s.Revises a t.history := by
  cases h with
  | blank h => exact .kept fun _ => .inl h
  | quit h =>
    obtain ⟨word, hword, hline⟩ := Command.exists_word ["quit", "exit", "q"] rfl h
    refine .kept fun _ => .inr ⟨word, ?_, hline⟩
    exact List.mem_append_left ["help"] hword
  | clear h => exact .cleared ha (Command.exists_word _ rfl h)
  | help h =>
    obtain ⟨word, hword, hline⟩ := Command.exists_word ["help"] rfl h
    refine .kept fun _ => .inr ⟨word, ?_, hline⟩
    exact List.mem_append_right ["quit", "exit", "q"] hword
  | missing hne hnone _ => exact .appended ha hne hnone
  | evaluated hne hnone _ => exact .appended ha hne hnone

/-! ## Everything else keeps the history -/

theorem Keeps.refl (s : Session) : s.Keeps s := ⟨rfl, rfl⟩

theorem Edits.refl (s : Session) : s.Edits s := .edited _ _ _ _ _

theorem edits_charKey (s : Session) (c : Char) (ctrl alt : Bool) :
    s.Edits (s.charKey c ctrl alt) := by
  unfold charKey
  split_ifs <;> exact .edited _ _ _ _ _

theorem edits_moveCursor (s : Session) (distance : Int) : s.Edits (s.moveCursor distance) := by
  unfold moveCursor
  split_ifs <;> exact .edited _ _ _ _ _

theorem edits_navigate (s : Session) (direction : Int) : s.Edits (s.navigate direction) := by
  unfold navigate
  split_ifs <;> exact .edited _ _ _ _ _

theorem edits_page (s : Session) (direction : Int) : s.Edits (s.page direction) := by
  unfold page
  split_ifs <;> exact .edited _ _ _ _ _

theorem edits_mainKey {press : KeyPress} (h : press.key ≠ .enter) :
    s.Edits (s.mainKey press) := by
  unfold mainKey
  split
  · exact edits_charKey s _ _ _
  · exact .edited _ _ _ _ _
  · exact .edited _ _ _ _ _
  · split_ifs
    · exact .edited _ _ _ _ _
    · exact edits_moveCursor s _
  · split_ifs
    · exact .edited _ _ _ _ _
    · exact edits_moveCursor s _
  · exact .edited _ _ _ _ _
  · exact .edited _ _ _ _ _
  · exact edits_navigate s _
  · exact edits_navigate s _
  · exact edits_page s _
  · exact edits_page s _
  · next henter => exact absurd henter h
  · exact .opened
  · exact .refl s

theorem Edits.keeps (h : s.Edits t) : s.Keeps t := by
  cases h <;> exact ⟨rfl, rfl⟩

theorem keeps_helpKey (s : Session) (key : Key) : s.Keeps (s.helpKey key) := by
  unfold helpKey
  split <;> exact ⟨rfl, rfl⟩

theorem keeps_wheel (s : Session) (distance : Int) : s.Keeps (s.wheel distance) := by
  unfold wheel
  split_ifs <;> exact ⟨rfl, rfl⟩

theorem Alike.keeps (h : s.Alike t) : s.Keeps t := ⟨h.config, h.history⟩

theorem act_eq_submit [Text.Metric] (h : s.Entering a) : s.act a = s.submit := by
  cases a with
  | event e =>
    cases e with
    | key press =>
      obtain ⟨hmain, henter⟩ := h
      refine (press_main hmain press).trans ?_
      simp only [mainKey, henter]
    | _ => exact h.elim
  | frame width height => exact h.elim

theorem keeps_act [Text.Metric] (h : ¬ s.Entering a) : s.Keeps (s.act a) := by
  cases a with
  | event e =>
    cases e with
    | key press =>
      simp only [act, handle, Session.press]
      split_ifs with hhelp
      · exact keeps_helpKey s press.key
      · exact (edits_mainKey fun henter => h ⟨Bool.eq_false_iff.mpr hhelp, henter⟩).keeps
    | wheelUp => exact keeps_wheel s (-3)
    | wheelDown => exact keeps_wheel s 3
    | other => exact Keeps.refl s
  | frame width height => exact (Screen.drawSession_alike s width height).keeps

theorem config_act [Text.Metric] (s : Session) (a : Action) : (s.act a).config = s.config := by
  by_cases h : s.Entering a
  · rw [act_eq_submit h]
    exact s.enters.config
  · exact (keeps_act h).config

theorem revises_act [Text.Metric] (s : Session) (a : Action) : s.Revises a (s.act a).history := by
  by_cases h : s.Entering a
  · rw [act_eq_submit h]
    exact s.enters.revises h
  · rw [(keeps_act h).history]
    exact .kept fun ha => absurd ha h

/-! ## Every entry was entered -/

def Recorded (s : Session) : Prop := ∀ entry ∈ s.history, entry.Entered s.config

theorem recorded_initial (config : Config) : Recorded { config } := fun _ h => nomatch h

theorem Recorded.act [Text.Metric] (h : s.Recorded) (a : Action) : (s.act a).Recorded := by
  intro entry hentry
  rw [config_act]
  have hrevises := s.revises_act a
  generalize (s.act a).history = history at hrevises hentry
  cases hrevises with
  | kept _ => exact h entry hentry
  | appended _ hne hnone =>
    rcases List.mem_append.mp hentry with hold | hnew
    · exact h entry hold
    · rw [List.mem_singleton.mp hnew]
      exact .ofLine s.trimmed_line hne hnone
  | cleared _ _ => nomatch hentry

theorem Recorded.acts [Text.Metric] (h : s.Recorded) (actions : List Action) :
    (s.acts actions).Recorded ∧ (s.acts actions).config = s.config := by
  induction actions generalizing s with
  | nil => exact ⟨h, rfl⟩
  | cons a actions ih =>
    obtain ⟨hrecorded, hconfig⟩ := ih (h.act a)
    exact ⟨hrecorded, hconfig.trans (s.config_act a)⟩

end Session

/-- The history is append-only and faithful.  After any keys, mouse events and frames, one more of
them leaves the history as it is, or it is the enter key, which appends the entry of a line that is
no command, or clears the history for one of the words for that.  Every entry keeps a trimmed
input, and says of it what evaluating it under the same configuration does. -/
theorem history_faithful [Text.Metric] (config : Config) (actions : List Action) :
    let s := Session.acts { config } actions
    (∀ a, s.Revises a (s.act a).history) ∧
    s.config = config ∧
    ∀ entry ∈ s.history, entry.Faithful config := by
  intro s
  obtain ⟨hrecorded, hconfig⟩ := (Session.recorded_initial config).acts actions
  refine ⟨s.revises_act, hconfig, ?_⟩
  intro entry hentry
  have hentered := hrecorded entry hentry
  rw [hconfig] at hentered
  exact hentered.faithful

end Calculator
