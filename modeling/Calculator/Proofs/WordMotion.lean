import Calculator.Proofs.Editing
import Calculator.Session.Event
import Mathlib.Order.Bounds.Basic

/-! # Word motion

With the control key the cursor goes to the nearest start of a word on either side of it, whether it
stands in a word or between two, and to the end of the line where there is none.
-/
namespace Calculator

namespace Text

structure WordStart (cs : List Char) (i : Nat) : Prop where
  visible : ∃ c ∈ cs[i]?, isBlank c = false
  parted : i = 0 ∨ ∃ c ∈ cs[i - 1]?, isBlank c = true

def Run (p : Char → Bool) (cs : List Char) (first last : Nat) : Prop :=
  ∀ i, first ≤ i → i < last → ∀ c ∈ cs[i]?, p c = true

variable {p : Char → Bool} {cs : List Char} {i n : Nat}

/-! ## Runs of characters -/

theorem runEnd_eq (p : Char → Bool) (hn : n ≤ cs.length) :
    runEnd p cs n = n + ((cs.drop n).takeWhile p).length := by
  have hlength := congrArg List.length (List.takeWhile_append_dropWhile (p := p) (l := cs.drop n))
  rw [List.length_append, List.length_drop] at hlength
  unfold runEnd
  omega

theorem le_runEnd (p : Char → Bool) (hn : n ≤ cs.length) : n ≤ runEnd p cs n := by
  rw [runEnd_eq p hn]
  exact Nat.le_add_right _ _

theorem run_runEnd (p : Char → Bool) (hn : n ≤ cs.length) : Run p cs n (runEnd p cs n) := by
  intro i hi hlast c hc
  rw [Option.mem_def] at hc
  have hlt : i - n < ((cs.drop n).takeWhile p).length := by
    rw [runEnd_eq p hn] at hlast
    omega
  have hget := List.prefix_iff_getElem?.mp (List.takeWhile_prefix p) (i - n) hlt
  rw [List.getElem?_drop, Nat.add_sub_cancel' hi, hc] at hget
  rw [Option.some.inj hget]
  exact List.mem_takeWhile_imp (List.getElem_mem hlt)

theorem runEnd_stops (p : Char → Bool) (cs : List Char) (n : Nat) :
    runEnd p cs n = cs.length ∨ ∃ c ∈ cs[runEnd p cs n]?, p c = false := by
  have hget : cs[runEnd p cs n]? = ((cs.drop n).dropWhile p).head? := by
    rw [← drop_runEnd, List.head?_drop]
  have hhead := List.head?_dropWhile_not p (cs.drop n)
  rw [hget]
  cases hrest : (cs.drop n).dropWhile p with
  | nil => exact .inl (by rw [runEnd, hrest, List.length_nil, Nat.sub_zero])
  | cons c rest =>
    rw [hrest] at hhead
    exact .inr ⟨c, rfl, hhead⟩

theorem runStart_eq (p : Char → Bool) (hn : n ≤ cs.length) :
    runStart p cs n + ((cs.take n).reverse.takeWhile p).length = n := by
  have hlength := congrArg List.length
    (List.takeWhile_append_dropWhile (p := p) (l := (cs.take n).reverse))
  rw [List.length_append, List.length_reverse, List.length_take_of_le hn] at hlength
  unfold runStart
  omega

theorem runStart_le (p : Char → Bool) (hn : n ≤ cs.length) : runStart p cs n ≤ n := by
  have hlength := runStart_eq p hn
  omega

theorem run_runStart (p : Char → Bool) (hn : n ≤ cs.length) : Run p cs (runStart p cs n) n := by
  intro i hfirst hi c hc
  rw [Option.mem_def] at hc
  have hlength := List.length_take_of_le hn
  have hlt : n - 1 - i < ((cs.take n).reverse.takeWhile p).length := by
    have hparts := runStart_eq p hn
    omega
  have hindex : n - 1 - (n - 1 - i) = i := by omega
  have hget := List.prefix_iff_getElem?.mp (List.takeWhile_prefix p) (n - 1 - i) hlt
  rw [List.getElem?_reverse (by omega), hlength, hindex, List.getElem?_take_of_lt hi, hc] at hget
  rw [Option.some.inj hget]
  exact List.mem_takeWhile_imp (List.getElem_mem hlt)

theorem runStart_stops (p : Char → Bool) (cs : List Char) (n : Nat) :
    runStart p cs n = 0 ∨ ∃ c ∈ cs[runStart p cs n - 1]?, p c = false := by
  have hhead := List.head?_dropWhile_not p (cs.take n).reverse
  cases hrest : (cs.take n).reverse.dropWhile p with
  | nil => exact .inl (by rw [runStart, hrest, List.length_nil])
  | cons c rest =>
    rw [hrest] at hhead
    have htake : cs.take (runStart p cs n) = rest.reverse ++ [c] := by
      rw [← List.reverse_inj, List.reverse_append, List.reverse_reverse, List.reverse_singleton,
        List.singleton_append, ← hrest, take_runStart]
    have hlength : runStart p cs n = rest.length + 1 := by rw [runStart, hrest, List.length_cons]
    refine .inr ⟨c, ?_, hhead⟩
    have hlast : runStart p cs n - 1 < runStart p cs n := by omega
    rw [Option.mem_def, ← List.getElem?_take_of_lt hlast, htake, hlength, Nat.add_sub_cancel,
      ← List.length_reverse, List.getElem?_concat_length]

/-! ## Starts of words -/

theorem WordStart.lt_length (h : WordStart cs i) : i < cs.length := by
  obtain ⟨c, hc, -⟩ := h.visible
  exact (List.getElem?_eq_some_iff.mp hc).1

/-- No word begins where it is blank. -/
theorem WordStart.not_blank {first last : Nat} (h : WordStart cs i)
    (hrun : Run isBlank cs first last) (hfirst : first ≤ i) : last ≤ i := by
  obtain ⟨c, hc, hvisible⟩ := h.visible
  by_contra hlast
  rw [hrun i hfirst (not_le.mp hlast) c hc] at hvisible
  cases hvisible

/-- No word begins behind a character that is not blank. -/
theorem WordStart.not_visible {first last : Nat} (h : WordStart cs i)
    (hrun : Run (!isBlank ·) cs first last) (hfirst : first < i) : last < i := by
  rcases h.parted with rfl | ⟨c, hc, hblank⟩
  · exact absurd hfirst (Nat.not_lt_zero _)
  · by_contra hlast
    have hvisible := hrun (i - 1) (by omega) (by omega) c hc
    simp [hblank] at hvisible

end Text

namespace LineBuffer
open Text

/-- The place is the first start of a word behind the cursor, or the end of the text if there is
none. -/
def NextStart (b : LineBuffer) (n : Nat) : Prop :=
  IsLeast {i | WordStart b.text i ∧ b.cursor < i} n ∨
    (∀ i, WordStart b.text i → i ≤ b.cursor) ∧ n = b.text.length

def PreviousStart (b : LineBuffer) (n : Nat) : Prop :=
  IsGreatest {i | WordStart b.text i ∧ i < b.cursor} n ∨
    (∀ i, WordStart b.text i → b.cursor ≤ i) ∧ n = 0

variable {b : LineBuffer}

/-- Behind the rest of a word and the blanks after it the next word begins. -/
theorem nextStart_of_runs {gap start : Nat} (hcursor : b.cursor ≤ gap) (hgap : gap ≤ start)
    (hword : Run (!isBlank ·) b.text b.cursor gap) (hblanks : Run isBlank b.text gap start)
    (hwordStops : gap = b.text.length ∨ ∃ c ∈ b.text[gap]?, isBlank c = true)
    (hblanksStop : start = b.text.length ∨ ∃ c ∈ b.text[start]?, isBlank c = false) :
    b.NextStart start := by
  have hleast : ∀ i, WordStart b.text i → b.cursor < i → start ≤ i :=
    fun i hi hbehind => hi.not_blank hblanks (Nat.le_of_lt (hi.not_visible hword hbehind))
  rcases hblanksStop with hend | ⟨c, hc, hvisible⟩
  · refine .inr ⟨fun i hi => ?_, hend⟩
    by_contra hbehind
    exact absurd hi.lt_length (not_lt.mpr (hend ▸ hleast i hi (not_le.mp hbehind)))
  · have hlength := (List.getElem?_eq_some_iff.mp hc).1
    have hlt : gap < start := by
      rcases hwordStops with hend | ⟨d, hd, hblank⟩
      · omega
      · refine lt_of_le_of_ne hgap ?_
        rintro rfl
        obtain rfl : c = d := Option.some.inj (hc.symm.trans hd)
        rw [hvisible] at hblank
        cases hblank
    have hbefore : b.text[start - 1]? = some b.text[start - 1] := List.getElem?_eq_getElem _
    refine .inl ⟨⟨⟨⟨c, hc, hvisible⟩, .inr ⟨_, hbefore, ?_⟩⟩, by omega⟩, fun i hi => ?_⟩
    · exact hblanks (start - 1) (by omega) (by omega) _ hbefore
    · exact hleast i hi.1 hi.2

/-- Before the blanks to the left and the word there that word begins. -/
theorem previousStart_of_runs {gap start : Nat} (hgap : start ≤ gap) (hcursor : gap ≤ b.cursor)
    (hinside : b.Inside) (hblanks : Run isBlank b.text gap b.cursor)
    (hword : Run (!isBlank ·) b.text start gap)
    (hblanksStop : gap = 0 ∨ ∃ c ∈ b.text[gap - 1]?, isBlank c = false)
    (hwordStops : start = 0 ∨ ∃ c ∈ b.text[start - 1]?, isBlank c = true) :
    b.PreviousStart start := by
  have hbefore : ∀ i, WordStart b.text i → i < b.cursor → i < gap := by
    intro i hi hlt
    by_contra hge
    exact absurd (hi.not_blank hblanks (not_lt.mp hge)) (not_le.mpr hlt)
  rcases Nat.eq_zero_or_pos gap with rfl | hpos
  · refine .inr ⟨fun i hi => ?_, by omega⟩
    by_contra hlt
    exact absurd (hbefore i hi (not_le.mp hlt)) (Nat.not_lt_zero i)
  · have hlt : start < gap := by
      rcases hblanksStop with hzero | ⟨c, hc, hvisible⟩
      · omega
      · refine lt_of_le_of_ne hgap ?_
        rintro rfl
        rcases hwordStops with hzero | ⟨d, hd, hblank⟩
        · omega
        · obtain rfl : c = d := Option.some.inj (hc.symm.trans hd)
          rw [hvisible] at hblank
          cases hblank
    have hlength : start < b.text.length := by
      have hcursor' : b.cursor ≤ b.text.length := hinside
      omega
    have hget : b.text[start]? = some b.text[start] := List.getElem?_eq_getElem hlength
    have hvisible := hword start le_rfl hlt _ hget
    refine .inl ⟨⟨⟨⟨_, hget, by simpa using hvisible⟩, hwordStops⟩, by omega⟩, ?_⟩
    intro i hi
    by_contra hstart
    have hgreater := hi.1.not_visible hword (not_le.mp hstart)
    exact absurd (hbefore i hi.1 hi.2) (not_lt.mpr (Nat.le_of_lt hgreater))

theorem Inside.nextStart (h : b.Inside) : b.NextStart b.wordRight.cursor := by
  have hgap : runEnd (!isBlank ·) b.text b.cursor ≤ b.text.length := runEnd_le_length _ _ _
  rw [cursor_wordRight]
  refine nextStart_of_runs (le_runEnd _ h) (le_runEnd _ hgap) (run_runEnd _ h) (run_runEnd _ hgap)
    ?_ (runEnd_stops _ _ _)
  simpa using runEnd_stops (!isBlank ·) b.text b.cursor

theorem Inside.previousStart (h : b.Inside) : b.PreviousStart b.wordLeft.cursor := by
  have hgap : runStart isBlank b.text b.cursor ≤ b.text.length := runStart_le_length _ _ _
  rw [cursor_wordLeft]
  refine previousStart_of_runs (runStart_le _ hgap) (runStart_le _ h) h (run_runStart _ h)
    (run_runStart _ hgap) (runStart_stops _ _ _) ?_
  simpa using runStart_stops (!isBlank ·) b.text (runStart isBlank b.text b.cursor)

/-- Between a start of a word and the next one there is no other. -/
theorem NextStart.previous {n m : Nat} (h : b.NextStart n) (hstart : WordStart b.text b.cursor)
    (hnext : WordStart b.text n) (hprevious : PreviousStart { b with cursor := n } m) :
    m = b.cursor := by
  rcases h with ⟨⟨-, hbehind⟩, hleast⟩ | ⟨-, hend⟩
  · rcases hprevious with ⟨⟨hm, hbefore⟩, hgreatest⟩ | ⟨hnone, -⟩
    · refine le_antisymm ?_ (hgreatest ⟨hstart, hbehind⟩)
      by_contra hgreater
      exact absurd (hleast ⟨hm, not_le.mp hgreater⟩) (not_le.mpr hbefore)
    · exact absurd (hnone _ hstart) (not_le.mpr hbehind)
  · exact absurd hnext.lt_length (by omega)

end LineBuffer

namespace Session

theorem moveWord_right (s : Session) :
    s.moveWord 1 = { s with buffer.cursor := s.buffer.wordRight.cursor } := rfl

theorem moveWord_left (s : Session) :
    s.moveWord (-1) = { s with buffer.cursor := s.buffer.wordLeft.cursor } := rfl

theorem press_word (s : Session) (hmain : s.helpShown = false) (alt : Bool) :
    s.press { key := .right, ctrl := true, alt } = s.moveWord 1 ∧
      s.press { key := .left, ctrl := true, alt } = s.moveWord (-1) :=
  ⟨press_main hmain _, press_main hmain _⟩

end Session

/-- With the control key the right arrow moves the cursor to the first start of a word behind it, or
to the end of the line if there is none, and the left arrow to the last start of a word before it,
or to the start of the line.  Nothing else is changed by that.  So going right from one start of a
word to another and then left leads back. -/
theorem word_motion (s : Session) (hcursor : s.buffer.cursor ≤ s.buffer.text.length) :
    (∃ n, s.buffer.NextStart n ∧ s.moveWord 1 = { s with buffer.cursor := n }) ∧
    (∃ n, s.buffer.PreviousStart n ∧ s.moveWord (-1) = { s with buffer.cursor := n }) ∧
    (Text.WordStart s.buffer.text s.buffer.cursor →
      Text.WordStart s.buffer.text (s.moveWord 1).buffer.cursor →
        (s.moveWord 1).moveWord (-1) = s) ∧
    (s.helpShown = false → ∀ alt,
      s.press { key := .right, ctrl := true, alt } = s.moveWord 1 ∧
        s.press { key := .left, ctrl := true, alt } = s.moveWord (-1)) := by
  have hinside : s.buffer.Inside := hcursor
  refine ⟨⟨_, hinside.nextStart, s.moveWord_right⟩, ⟨_, hinside.previousStart, s.moveWord_left⟩, ?_,
    s.press_word⟩
  intro hstart hnext
  have hback := hinside.nextStart.previous hstart hnext
    (LineBuffer.inside_wordRight s.buffer).previousStart
  rw [(s.moveWord 1).moveWord_left]
  change { s with buffer.cursor := s.buffer.wordRight.wordLeft.cursor } = s
  rw [hback]

/-- From the first word of a line to the second and back, and to the left of all words. -/
theorem word_motion_sum :
    let s : Session := { buffer := ⟨"  12 +é  3".toList, 2⟩ }
    s.buffer.cursor ≤ s.buffer.text.length ∧ s.helpShown = false ∧
      Text.WordStart s.buffer.text 2 ∧ Text.WordStart s.buffer.text 5 ∧
      s.buffer.NextStart 5 ∧ s.buffer.PreviousStart 0 ∧ (s.moveWord 1).moveWord (-1) = s ∧
      (s.press { key := .right, ctrl := true }).buffer.cursor = 5 := by
  intro s
  have hfirst : Text.WordStart s.buffer.text 2 := ⟨⟨'1', by decide⟩, .inr ⟨' ', by decide⟩⟩
  have hsecond : Text.WordStart s.buffer.text 5 := ⟨⟨'+', by decide⟩, .inr ⟨' ', by decide⟩⟩
  obtain ⟨⟨n, hnext, hright⟩, ⟨m, hprevious, hleft⟩, hback, hkeys⟩ := word_motion s (by decide)
  obtain rfl : 5 = n := congrArg (·.buffer.cursor) hright
  obtain rfl : 0 = m := congrArg (·.buffer.cursor) hleft
  refine ⟨by decide, rfl, hfirst, hsecond, hnext, hprevious, hback hfirst hsecond, ?_⟩
  rw [(hkeys rfl false).1]
  rfl

end Calculator
