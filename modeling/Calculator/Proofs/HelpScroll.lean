import Mathlib.Data.List.Chain
import Mathlib.Algebra.BigOperators.Group.List.Basic
import Calculator.Proofs.History

/-! # Scrolling the help screen down

Each event that scrolls the help screen down raises a counter, which stops at its largest value.
A frame skips as many lines as the counter says modulo the range of the coordinates of a screen.
So the frames go on to lines further down as long as the counter stays between two multiples of
that range, and where it passes one they jump back to the first lines.
-/
namespace Calculator
open Screen

namespace Event

def descent : Event → Nat
  | .key press =>
    match press.key with
    | .down => 1
    | .pageDown => 10
    | _ => 0
  | .wheelDown => 3
  | .wheelUp | .other => 0

def Downward (e : Event) : Prop := 0 < e.descent

instance (e : Event) : Decidable e.Downward := inferInstanceAs (Decidable (0 < e.descent))

theorem descent_le (e : Event) : e.descent ≤ 10 := by
  unfold descent
  split
  · split <;> decide
  · decide
  · decide
  · decide

end Event

def Screen.helpFrom [Text.Metric] (width height line : Nat) : List Row :=
  box .double " mathsyn Help ".toList width height
    (((wrapped (width - 2) helpLines).drop line).map (draw (width - 2)))

namespace Session

def skipped (s : Session) : Nat := helpSkip s.helpScroll

/-- The sessions of which a frame is drawn in a run: before its events and behind each of them. -/
def drawn (s : Session) (events : List Event) : List Session := events.scanl handle s

/-- So many lines can be scrolled down before the frames jump back, or the counter is among its
last values, behind which there is no multiple of the range. -/
def HasRoom (s : Session) (lines : Nat) : Prop :=
  s.skipped + lines < UInt16.size ∨ UInt64.size ≤ s.helpScroll + UInt16.size

structure ShowsHelp (s : Session) : Prop where
  shown : s.helpShown = true
  word : s.helpScroll < UInt64.size

variable {s t : Session} {e : Event} {events : List Event}

/-! ## The counter -/

theorem Enters.helpScroll (h : s.Enters t) :
    t.helpScroll = s.helpScroll ∨ t.helpScroll = 0 := by
  cases h with
  | help _ => exact .inr rfl
  | _ => exact .inl rfl

theorem Edits.helpScroll (h : s.Edits t) : t.helpScroll = s.helpScroll ∨ t.helpScroll = 0 := by
  cases h with
  | edited _ _ _ _ _ => exact .inl rfl
  | opened => exact .inr rfl

theorem helpScroll_drawSession [Text.Metric] (s : Session) (width height : Nat) :
    (drawSession s width height).1.helpScroll = s.helpScroll := by
  unfold drawSession drawMain drawHistory adjustInputScroll
  split
  · rfl
  · split
    · rfl
    · dsimp only
      split <;> rfl

theorem scrolled_lt (offset : Nat) (distance : Int) : scrolled offset distance < UInt64.size :=
  (min_le_right _ _).trans_lt (by decide)

theorem helpScroll_helpKey_lt (h : s.helpScroll < UInt64.size) (key : Key) :
    (s.helpKey key).helpScroll < UInt64.size := by
  have hzero : 0 < UInt64.size := by decide
  unfold helpKey
  split
  · exact scrolled_lt _ _
  · exact scrolled_lt _ _
  · exact scrolled_lt _ _
  · exact scrolled_lt _ _
  · exact hzero
  · exact hzero
  · exact h

theorem helpScroll_wheel_lt (h : s.helpScroll < UInt64.size) (distance : Int) :
    (s.wheel distance).helpScroll < UInt64.size := by
  unfold wheel
  split_ifs
  · exact scrolled_lt _ _
  · exact h

/-- The counter stays a machine word: the help screen scrolls it within that range, and the main
screen leaves it alone or opens the help at its first line. -/
theorem helpScroll_act_lt [Text.Metric] (h : s.helpScroll < UInt64.size) (a : Action) :
    (s.act a).helpScroll < UInt64.size := by
  have hmain {t : Session} (ht : t.helpScroll = s.helpScroll ∨ t.helpScroll = 0) :
      t.helpScroll < UInt64.size := by
    omega
  by_cases henter : s.Entering a
  · rw [act_eq_submit henter]
    exact hmain s.enters.helpScroll
  cases a with
  | event e =>
    cases e with
    | key press =>
      simp only [act, handle, Session.press]
      split_ifs with hhelp
      · exact helpScroll_helpKey_lt h press.key
      · have hkey : press.key ≠ .enter := fun hkey =>
          henter ⟨Bool.eq_false_iff.mpr hhelp, hkey⟩
        exact hmain (edits_mainKey hkey).helpScroll
    | wheelUp => exact helpScroll_wheel_lt h (-3)
    | wheelDown => exact helpScroll_wheel_lt h 3
    | other => exact h
  | frame width height =>
    rw [act, helpScroll_drawSession]
    exact h

theorem helpScroll_acts_lt [Text.Metric] (h : s.helpScroll < UInt64.size) (actions : List Action) :
    (s.acts actions).helpScroll < UInt64.size := by
  induction actions generalizing s with
  | nil => exact h
  | cons a actions ih => exact ih (helpScroll_act_lt h a)

/-! ## Runs -/

theorem helpScroll_scrollHelp (s : Session) (distance : Nat) :
    (s.scrollHelp distance).helpScroll = min (s.helpScroll + distance) (UInt64.size - 1) := by
  rw [scrollHelp, scrolled, ← Int.natCast_add, Int.toNat_natCast]

theorem ShowsHelp.scrollHelp (h : s.ShowsHelp) (distance : Int) :
    (s.scrollHelp distance).ShowsHelp := ⟨h.shown, scrolled_lt _ _⟩

/-- Below its largest value the counter is not stopped. -/
theorem scrollHelp_of_lt {distance : Nat} (h : s.helpScroll + distance < UInt64.size) :
    s.scrollHelp distance = { s with helpScroll := s.helpScroll + distance } := by
  have hscroll := s.helpScroll_scrollHelp distance
  rw [min_eq_left (Nat.le_sub_one_of_lt h)] at hscroll
  exact congrArg (fun helpScroll => { s with helpScroll }) hscroll

theorem scrollHelp_scrollHelp (s : Session) (m n : Nat) :
    (s.scrollHelp m).scrollHelp n = s.scrollHelp (m + n : Nat) := by
  have htotal : ((s.scrollHelp m).scrollHelp n).helpScroll =
      (s.scrollHelp (m + n : Nat)).helpScroll := by
    simp only [helpScroll_scrollHelp]
    omega
  exact congrArg (fun helpScroll => { s with helpScroll }) htotal

/-- An event that scrolls down does nothing else. -/
theorem ShowsHelp.handle (h : s.ShowsHelp) (he : e.Downward) :
    s.handle e = s.scrollHelp e.descent := by
  cases e with
  | key press =>
    obtain ⟨key, ctrl, alt⟩ := press
    rw [Session.handle, Session.press, if_pos h.shown]
    cases key with
    | down => rfl
    | pageDown => rfl
    | _ => exact absurd he (lt_irrefl 0)
  | wheelDown =>
    rw [Session.handle, wheel, if_pos h.shown]
    rfl
  | wheelUp => exact absurd he (lt_irrefl 0)
  | other => exact absurd he (lt_irrefl 0)

/-- A run of such events scrolls by the sum of their distances. -/
theorem ShowsHelp.foldl_handle (h : s.ShowsHelp) (hdown : ∀ e ∈ events, e.Downward) :
    events.foldl Session.handle s = s.scrollHelp (events.map Event.descent).sum := by
  induction events generalizing s with
  | nil =>
    have hnothing : s.helpScroll + 0 < UInt64.size := h.word
    exact (scrollHelp_of_lt hnothing).symm
  | cons e events ih =>
    obtain ⟨he, hevents⟩ := List.forall_mem_cons.mp hdown
    rw [List.foldl_cons, h.handle he, ih (h.scrollHelp _) hevents, scrollHelp_scrollHelp,
      List.map_cons, List.sum_cons]

theorem drawn_cons (s : Session) (e : Event) (events : List Event) :
    s.drawn (e :: events) = s :: (s.handle e).drawn events := List.scanl_cons

theorem head?_drawn (s : Session) (events : List Event) : (s.drawn events).head? = some s :=
  List.head?_scanl

theorem ShowsHelp.drawn (h : s.ShowsHelp) (hdown : ∀ e ∈ events, e.Downward) :
    ∀ t ∈ s.drawn events, t.ShowsHelp := by
  induction events generalizing s with
  | nil => exact List.forall_mem_singleton.mpr h
  | cons e events ih =>
    obtain ⟨he, hevents⟩ := List.forall_mem_cons.mp hdown
    rw [drawn_cons, h.handle he]
    exact List.forall_mem_cons.mpr ⟨h, ih (h.scrollHelp _) hevents⟩

/-! ## Jumps -/

/-- A scroll is short, so it jumps back wherever it passes a multiple of the range, and nowhere
else.  If it does not jump, it takes its own lines of the room. -/
theorem ShowsHelp.skipped_scrollHelp (h : s.ShowsHelp) {distance : Nat} (hdistance : distance ≤ 10)
    (rest : Nat) :
    s.skipped ≤ (s.scrollHelp distance).skipped ∧ (s.scrollHelp distance).HasRoom rest ↔
      s.HasRoom (distance + rest) := by
  have hword := h.word
  simp only [HasRoom, skipped, helpSkip, helpScroll_scrollHelp, UInt16.size, UInt64.size] at hword ⊢
  omega

theorem ShowsHelp.skipped_isChain_iff (h : s.ShowsHelp) (hdown : ∀ e ∈ events, e.Downward) :
    ((s.drawn events).map skipped).IsChain (· ≤ ·) ↔
      s.HasRoom (events.map Event.descent).sum := by
  induction events generalizing s with
  | nil =>
    have hroom : s.HasRoom 0 := .inl (Nat.mod_lt _ (by decide))
    simp only [Session.drawn, List.scanl_nil, List.map_cons, List.map_nil, List.isChain_singleton,
      List.sum_nil, hroom]
  | cons e events ih =>
    obtain ⟨he, hevents⟩ := List.forall_mem_cons.mp hdown
    have hfirst : (((s.scrollHelp e.descent).drawn events).map skipped).head? =
        some (s.scrollHelp e.descent).skipped := by
      rw [List.head?_map, head?_drawn, Option.map_some]
    rw [drawn_cons, h.handle he, List.map_cons, List.isChain_cons, hfirst,
      ih (h.scrollHelp _) hevents, List.map_cons, List.sum_cons,
      ← h.skipped_scrollHelp e.descent_le]
    simp only [Option.mem_some_iff, forall_eq']

/-- An action, and then only events. -/
theorem acts_cons_event [Text.Metric] (s : Session) (a : Action) (events : List Event) :
    s.acts (a :: events.map .event) = events.foldl handle (s.act a) := by
  rw [acts, List.foldl_cons, List.foldl_map]
  rfl

end Session

namespace Screen

theorem drawSession_help [Text.Metric] {s : Session} (h : s.ShowsHelp) (width height : Nat) :
    drawSession s width height = (s, { rows := helpFrom width height s.skipped }) := by
  rw [drawSession, if_pos h.shown]
  rfl

end Screen

/-- While the help screen is open, frames of any size leave the session as it is and show the help
from the first line on that is not skipped, before and behind every event of a run that only scrolls
down.  The number of skipped lines never decreases in the run if and only if it and the lines that
are scrolled are fewer than 65536 together, or the counter is among its last 65536 values, which it
does not leave. -/
theorem help_goes_on_iff [Text.Metric] (config : Config) (actions : List Action) :
    let s := Session.acts { config } actions
    s.helpShown = true → ∀ events : List Event, (∀ e ∈ events, e.Downward) →
      (∀ t ∈ s.drawn events, ∀ width height,
        drawSession t width height = (t, { rows := helpFrom width height t.skipped })) ∧
      (((s.drawn events).map Session.skipped).IsChain (· ≤ ·) ↔
        s.skipped + (events.map Event.descent).sum < UInt16.size ∨
          UInt64.size ≤ s.helpScroll + UInt16.size) := by
  intro s hshown events hdown
  have hinitial : 0 < UInt64.size := by decide
  have h : s.ShowsHelp := ⟨hshown, Session.helpScroll_acts_lt hinitial actions⟩
  exact ⟨fun t ht => drawSession_help (h.drawn hdown t ht), h.skipped_isChain_iff hdown⟩

/-- From the first line on, the longest run that does not jump. -/
theorem help_scrolled_far :
    let s := Session.acts {} [.press (.function 1)]
    let events := List.replicate 6550 (.key { key := .pageDown }) ++
      (List.replicate 10 .wheelDown ++ List.replicate 5 (.key { key := .down }))
    s.helpShown = true ∧ (∀ e ∈ events, e.Downward) ∧ (events.map Event.descent).sum = 65535 ∧
      ((s.drawn events).map Session.skipped).IsChain (· ≤ ·) := by
  intro s events
  have hdown : ∀ e ∈ events, e.Downward := by
    simp only [events, List.forall_mem_append, List.forall_mem_replicate]
    exact ⟨.inr (by decide), .inr (by decide), .inr (by decide)⟩
  have hsum : (events.map Event.descent).sum = 65535 := by
    simp only [events, List.map_append, List.map_replicate, List.sum_append, List.sum_replicate]
    rfl
  obtain ⟨-, hgoes⟩ := help_goes_on_iff {} [.press (.function 1)] rfl events hdown
  exact ⟨rfl, hdown, hsum, hgoes.mpr (.inl (by rw [hsum]; decide))⟩

/-- Behind line 65526 one more page shows what was shown when the help screen was opened. -/
theorem help_jumps_back :
    let opened := Session.acts {} [.press (.function 1)]
    let page : Event := .key { key := .pageDown }
    let events := List.replicate 6552 page ++ List.replicate 6 (.key { key := .down })
    let s := Session.acts {} (.press (.function 1) :: events.map .event)
    s.helpShown = true ∧ page.Downward ∧
      (s.drawn [page]).map Session.skipped = [65526, 0] ∧
      ¬ ((s.drawn [page]).map Session.skipped).IsChain (· ≤ ·) ∧
      ∀ width height,
        (drawSession (s.handle page) width height).2 = (drawSession opened width height).2 := by
  intro opened page events s
  have hopened : (Session.act {} (.press (.function 1))).ShowsHelp := ⟨rfl, by decide⟩
  have hdown : ∀ e ∈ events, e.Downward := by
    simp only [events, List.forall_mem_append, List.forall_mem_replicate]
    exact ⟨.inr (by decide), .inr (by decide)⟩
  have hsum : (events.map Event.descent).sum = 65526 := by
    simp only [events, List.map_append, List.map_replicate, List.sum_append, List.sum_replicate]
    rfl
  have hs : s = { helpShown := true, helpScroll := 65526 } := by
    simp only [s, Session.acts_cons_event]
    rw [hopened.foldl_handle hdown, hsum]
    exact Session.scrollHelp_of_lt (by decide)
  have hjumped : s.handle page = { helpShown := true, helpScroll := 65536 } := by
    have hreached : s.ShowsHelp := hs ▸ ⟨rfl, by decide⟩
    rw [hreached.handle (by decide), hs]
    exact Session.scrollHelp_of_lt (by decide)
  have hskipped : (s.drawn [page]).map Session.skipped = [65526, 0] := by
    rw [Session.drawn_cons, hjumped, hs]
    rfl
  refine ⟨by rw [hs], by decide, hskipped, ?_, ?_⟩
  · rw [hskipped]
    decide
  · intro width height
    rw [hjumped]
    rfl

end Calculator
