import Calculator.Text.Blank
import Mathlib.Data.List.Basic

/-! # Words

Splitting a text into its words and joining them again keeps the visible characters in order and
leaves one space between the words.  This is the only way to write these words with single spaces.
-/
namespace Calculator.Text

def visible (cs : List Char) : List Char := cs.filter (!isBlank ·)

structure Neat (cs : List Char) : Prop where
  blank : ∀ c ∈ cs, isBlank c = true → c = ' '
  leading : ∀ c ∈ cs.head?, c ≠ ' '
  trailing : ∀ c ∈ cs.getLast?, c ≠ ' '
  doubled : ¬ [' ', ' '] <:+: cs

/-- A text and what is left of it when its words are joined by single spaces; the flag tells that a
visible character stands before the text. -/
inductive Squeezed : Bool → List Char → List Char → Prop
  | nil {behind : Bool} : Squeezed behind [] []
  | visible {behind : Bool} {c : Char} {cs ds : List Char} (hc : isBlank c = false)
      (h : Squeezed true cs ds) : Squeezed behind (c :: cs) (c :: ds)
  | skipped {c : Char} {cs ds : List Char} (hc : isBlank c = true) (h : Squeezed false cs ds) :
      Squeezed false (c :: cs) ds
  | space {c : Char} {cs ds : List Char} (hc : isBlank c = true) (h : Squeezed false cs ds)
      (hds : ds ≠ []) : Squeezed true (c :: cs) (' ' :: ds)
  | ended {c : Char} {cs : List Char} (hc : isBlank c = true) (h : Squeezed false cs []) :
      Squeezed true (c :: cs) []

variable {c : Char} {cs ds : List Char}

theorem visible_cons_of_blank (h : isBlank c = true) : visible (c :: cs) = visible cs :=
  List.filter_cons_of_neg (by simp [h])

theorem visible_cons_of_visible (h : isBlank c = false) : visible (c :: cs) = c :: visible cs :=
  List.filter_cons_of_pos (by simp [h])

theorem visible_append (cs ds : List Char) : visible (cs ++ ds) = visible cs ++ visible ds :=
  List.filter_append cs ds

theorem visible_eq_self (h : ∀ c ∈ cs, isBlank c = false) : visible cs = cs :=
  List.filter_eq_self.mpr fun c hc => by rw [h c hc]; rfl

theorem mem_visible : c ∈ visible cs ↔ c ∈ cs ∧ isBlank c = false := by
  rw [visible, List.mem_filter, Bool.not_eq_true']

/-! ## Splitting -/

theorem words_cons (c : Char) (cs : List Char) :
    words (c :: cs) =
      if isBlank c then words cs
      else match cs, words cs with
        | d :: _, w :: ws => if isBlank d then [c] :: w :: ws else (c :: w) :: ws
        | _, ws => [c] :: ws := rfl

theorem words_cons_of_blank (h : isBlank c = true) : words (c :: cs) = words cs := by
  rw [words_cons, if_pos h]

/-- A visible character begins a word, or extends the first one behind it. -/
theorem words_cons_of_visible (h : isBlank c = false) (cs : List Char) :
    words (c :: cs) = [c] :: words cs ∨
      ∃ w ws, words cs = w :: ws ∧ words (c :: cs) = (c :: w) :: ws := by
  rw [words_cons, if_neg (Bool.eq_false_iff.mp h)]
  cases cs with
  | nil => exact .inl rfl
  | cons d cs =>
    cases hwords : words (d :: cs) with
    | nil => exact .inl rfl
    | cons w ws =>
      by_cases hblank : isBlank d = true
      · exact .inl (if_pos hblank)
      · exact .inr ⟨w, ws, rfl, if_neg hblank⟩

theorem ne_nil_of_mem_words {w : List Char} (h : w ∈ words cs) : w ≠ [] := by
  induction cs generalizing w with
  | nil => nomatch h
  | cons c cs ih =>
    cases hblank : isBlank c with
    | true =>
      rw [words_cons_of_blank hblank] at h
      exact ih h
    | false =>
      rcases words_cons_of_visible hblank cs with hw | ⟨v, ws, hws, hw⟩
      · rw [hw] at h
        rcases List.mem_cons.mp h with rfl | h
        · exact List.cons_ne_nil _ _
        · exact ih h
      · rw [hw] at h
        rcases List.mem_cons.mp h with rfl | h
        · exact List.cons_ne_nil _ _
        · exact ih (hws ▸ List.mem_cons_of_mem v h)

theorem flatten_words (cs : List Char) : (words cs).flatten = visible cs := by
  induction cs with
  | nil => rfl
  | cons c cs ih =>
    cases hblank : isBlank c with
    | true => rw [words_cons_of_blank hblank, visible_cons_of_blank hblank, ih]
    | false =>
      rw [visible_cons_of_visible hblank, ← ih]
      rcases words_cons_of_visible hblank cs with hw | ⟨w, ws, hws, hw⟩
      · rw [hw]
        rfl
      · rw [hw, hws]
        rfl

theorem isBlank_of_mem_words {w : List Char} (hw : w ∈ words cs) (hc : c ∈ w) :
    isBlank c = false := by
  have hmem : c ∈ visible cs := by
    rw [← flatten_words]
    exact List.mem_flatten_of_mem hw hc
  exact (mem_visible.mp hmem).2

/-! ## Splitting and joining -/

theorem unwords_cons (w : List Char) (ws : List (List Char)) :
    unwords (w :: ws) = w ++ if ws = [] then [] else ' ' :: unwords ws := by
  cases ws with
  | nil => simp [unwords]
  | cons v ws => simp [unwords]

/-- A visible character stays where it is, and what is behind it is squeezed. -/
theorem squeezed_cons (cs : List Char) :
    Squeezed false cs (unwords (words cs)) ∧
      ∀ c, isBlank c = false →
        ∃ ds, unwords (words (c :: cs)) = c :: ds ∧ Squeezed true cs ds := by
  induction cs with
  | nil =>
    refine ⟨.nil, fun c hc => ⟨[], ?_, .nil⟩⟩
    rw [words_cons, if_neg (by simp [hc])]
    rfl
  | cons d cs ih =>
    obtain ⟨hsqueezed, hcons⟩ := ih
    cases hd : isBlank d with
    | true =>
      refine ⟨by rw [words_cons_of_blank hd]; exact .skipped hd hsqueezed, fun c hc => ?_⟩
      have hwords : words (c :: d :: cs) = [c] :: words cs := by
        rw [words_cons, if_neg (by simp [hc]), words_cons_of_blank hd]
        cases words cs with
        | nil => rfl
        | cons w ws => exact if_pos hd
      rw [hwords, unwords_cons]
      by_cases hnil : words cs = []
      · rw [hnil] at hsqueezed
        exact ⟨[], by rw [if_pos hnil]; rfl, .ended hd hsqueezed⟩
      · refine ⟨_, by rw [if_neg hnil]; rfl, .space hd hsqueezed ?_⟩
        obtain ⟨w, ws, hws⟩ := List.exists_cons_of_ne_nil hnil
        have hw : w ≠ [] := ne_nil_of_mem_words (hws ▸ List.mem_cons_self)
        rw [hws, unwords_cons]
        exact List.append_ne_nil_of_left_ne_nil hw _
    | false =>
      obtain ⟨ds, hds, htail⟩ := hcons d hd
      refine ⟨by rw [hds]; exact .visible hd htail, fun c hc => ⟨_, ?_, .visible hd htail⟩⟩
      have hwords : ∃ w ws, words (d :: cs) = w :: ws := by
        rcases words_cons_of_visible hd cs with h | ⟨w, ws, -, h⟩
        · exact ⟨_, _, h⟩
        · exact ⟨_, _, h⟩
      obtain ⟨w, ws, hws⟩ := hwords
      have hjoined : words (c :: d :: cs) = (c :: w) :: ws := by
        rw [words_cons, if_neg (by simp [hc]), hws]
        exact if_neg (by simp [hd])
      rw [hjoined, ← hds, hws, unwords_cons, unwords_cons, List.cons_append]

theorem squeezed_unwords (cs : List Char) : Squeezed false cs (unwords (words cs)) :=
  (squeezed_cons cs).1

/-! ## Neat texts -/

theorem isBlank_space : isBlank ' ' = true := rfl

theorem ne_space (h : isBlank c = false) : c ≠ ' ' := by
  rintro rfl
  cases h

theorem infix_pair_cons {a b : Char} :
    [a, b] <:+: c :: cs ↔ (a = c ∧ b ∈ cs.head?) ∨ [a, b] <:+: cs := by
  rw [List.infix_cons_iff, List.cons_prefix_cons]
  cases cs with
  | nil => simp
  | cons d ds => simp [List.cons_prefix_cons, @eq_comm _ d b]

namespace Neat

theorem nil : Neat [] := by
  constructor <;> simp

theorem cons (h : Neat cs) (hc : isBlank c = false) : Neat (c :: cs) where
  blank := by
    rintro d hd hblank
    rcases List.mem_cons.mp hd with rfl | hd
    · rw [hc] at hblank
      cases hblank
    · exact h.blank d hd hblank
  leading := by
    rintro _ ⟨⟩
    exact ne_space hc
  trailing := by
    cases cs with
    | nil =>
      rintro _ ⟨⟩
      exact ne_space hc
    | cons d cs => exact h.trailing
  doubled := by
    rw [infix_pair_cons, not_or]
    exact ⟨fun hd => ne_space hc hd.1.symm, h.doubled⟩

theorem space (h : Neat cs) (hcs : cs ≠ []) (hc : isBlank c = false) : Neat (c :: ' ' :: cs) where
  blank := by
    rintro d hd hblank
    rcases List.mem_cons.mp hd with rfl | hd
    · rw [hc] at hblank
      cases hblank
    rcases List.mem_cons.mp hd with rfl | hd
    · rfl
    · exact h.blank d hd hblank
  leading := by
    rintro _ ⟨⟩
    exact ne_space hc
  trailing := by
    obtain ⟨d, ds, rfl⟩ := List.exists_cons_of_ne_nil hcs
    exact h.trailing
  doubled := by
    rw [infix_pair_cons, infix_pair_cons, not_or, not_or]
    refine ⟨fun hd => ne_space hc hd.1.symm, ?_, h.doubled⟩
    exact fun hd => h.leading ' ' hd.2 rfl

theorem of_cons (h : Neat (c :: cs)) (hcs : ∀ d ∈ cs.head?, d ≠ ' ') : Neat cs where
  blank d hd := h.blank d (List.mem_cons_of_mem c hd)
  leading := hcs
  trailing := by
    cases cs with
    | nil => simp
    | cons d cs => exact h.trailing
  doubled hdoubled := h.doubled (infix_pair_cons.mpr (.inr hdoubled))

theorem of_space (h : Neat (c :: ' ' :: cs)) : Neat cs where
  blank d hd := h.blank d (List.mem_cons_of_mem c (List.mem_cons_of_mem ' ' hd))
  leading := by
    rintro d hd rfl
    exact h.doubled (infix_pair_cons.mpr (.inr (infix_pair_cons.mpr (.inl ⟨rfl, hd⟩))))
  trailing := by
    cases cs with
    | nil => simp
    | cons d cs => exact h.trailing
  doubled hdoubled :=
    h.doubled (infix_pair_cons.mpr (.inr (infix_pair_cons.mpr (.inr hdoubled))))

end Neat

namespace Squeezed
variable {behind : Bool}

theorem visible_eq (h : Squeezed behind cs ds) : Text.visible ds = Text.visible cs := by
  induction h with
  | nil => rfl
  | visible hc _ ih => rw [visible_cons_of_visible hc, visible_cons_of_visible hc, ih]
  | skipped hc _ ih => rw [visible_cons_of_blank hc, ih]
  | space hc _ _ ih => rw [visible_cons_of_blank hc, visible_cons_of_blank isBlank_space, ih]
  | ended hc _ ih => rw [visible_cons_of_blank hc, ih]

/-- Behind a visible character the text may begin with a space. -/
theorem neat (h : Squeezed behind cs ds) :
    (behind = false → Neat ds) ∧ ∀ c, isBlank c = false → Neat (c :: ds) := by
  induction h with
  | nil => exact ⟨fun _ => .nil, fun c hc => Neat.nil.cons hc⟩
  | visible hc _ ih => exact ⟨fun _ => ih.2 _ hc, fun d hd => (ih.2 _ hc).cons hd⟩
  | skipped hc _ ih => exact ih
  | space hc _ hds ih => exact ⟨nofun, fun d hd => (ih.1 rfl).space hds hd⟩
  | ended hc _ ih => exact ⟨nofun, fun d hd => Neat.nil.cons hd⟩

theorem eq_of_neat (h : Squeezed behind cs ds) :
    (behind = false → Neat cs → ds = cs) ∧
      (behind = true → ∀ c, isBlank c = false → Neat (c :: cs) → ds = cs) := by
  have hleading {c : Char} {cs : List Char} (hc : isBlank c = true) : ¬ Neat (c :: cs) :=
    fun hneat => hneat.leading c rfl (hneat.blank c List.mem_cons_self hc)
  have htrailing {c d : Char} {cs : List Char} (hd : isBlank d = true)
      (hneat : Neat (c :: d :: cs)) : d = ' ' ∧ cs ≠ [] ∧ Neat cs := by
    obtain rfl := hneat.blank d (List.mem_cons_of_mem c List.mem_cons_self) hd
    refine ⟨rfl, ?_, hneat.of_space⟩
    rintro rfl
    exact hneat.trailing ' ' rfl rfl
  induction h with
  | nil => exact ⟨fun _ _ => rfl, fun _ _ _ _ => rfl⟩
  | @visible _ c cs ds hc _ ih =>
    refine ⟨fun _ hneat => by rw [ih.2 rfl c hc hneat], fun _ d hd hneat => ?_⟩
    rw [ih.2 rfl c hc (hneat.of_cons (by rintro _ ⟨⟩; exact ne_space hc))]
  | skipped hc _ ih =>
    exact ⟨fun _ hneat => absurd hneat (hleading hc), nofun⟩
  | space hc _ hds ih =>
    refine ⟨nofun, fun _ d hd hneat => ?_⟩
    obtain ⟨rfl, -, hneat⟩ := htrailing hc hneat
    rw [ih.1 rfl hneat]
  | ended hc _ ih =>
    refine ⟨nofun, fun _ d hd hneat => ?_⟩
    obtain ⟨-, hcs, hneat⟩ := htrailing hc hneat
    exact absurd (ih.1 rfl hneat).symm hcs

end Squeezed

end Calculator.Text
