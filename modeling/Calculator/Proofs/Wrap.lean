import Calculator.Proofs.Words
import Calculator.Wrap
import Mathlib.Data.List.Chain

/-! # Wrapped texts

A wrapped text is a row of blocks: a line of whole words, or the lines among which a wide word is
divided.  No block is wider than it has to be, and a line ends only where what follows has no room
on it.
-/
namespace Calculator

namespace Text

theorem unwords_concat {ws : List (List Char)} (hws : ws ≠ []) (w : List Char) :
    unwords (ws ++ [w]) = unwords ws ++ ' ' :: w := by
  induction ws with
  | nil => exact absurd rfl hws
  | cons v ws ih =>
    rw [List.cons_append, unwords_cons, if_neg (by simp), unwords_cons]
    by_cases hnil : ws = []
    · simp [hnil, unwords]
    · rw [if_neg hnil, ih hnil]
      simp

theorem unwords_ne_nil {ws : List (List Char)} (hws : ws ≠ []) (h : ∀ w ∈ ws, w ≠ []) :
    unwords ws ≠ [] := by
  obtain ⟨w, ws, rfl⟩ := List.exists_cons_of_ne_nil hws
  rw [unwords_cons]
  exact List.append_ne_nil_of_left_ne_nil (h w List.mem_cons_self) _

variable [Metric]

theorem width_append (cs ds : List Char) : width (cs ++ ds) = width cs + width ds := by
  induction cs with
  | nil => simp [width]
  | cons c cs ih =>
    simp only [List.cons_append, width, ih]
    omega

theorem width_unwords_concat {ws : List (List Char)} (hws : ws ≠ []) (w : List Char) :
    width (unwords (ws ++ [w])) = width (unwords ws) + 1 + width w := by
  have hspace : columns ' ' = 1 := columns_ascii (by decide)
  rw [unwords_concat hws, width_append, width, hspace, Nat.add_assoc]

end Text

namespace Wrap

section
variable [Text.Metric]

/-! ## Blocks -/

inductive Block where
  | line (words : List (List Char))
  | divided (pieces : List (List Char))

structure Stands (limit : Nat) (line : List Char) : Prop where
  nonempty : line ≠ []
  narrow : Text.width line ≤ limit ∨ ∃ c, line = [c] ∧ limit < Text.columns c

def Full (limit : Nat) (p q : List Char) : Prop :=
  ∀ c ∈ q.head?, limit < Text.width p + Text.columns c

namespace Block

def words : Block → List (List Char)
  | line ws => ws
  | divided ps => [ps.flatten]

def lines : Block → List (List Char)
  | line ws => [Text.unwords ws]
  | divided ps => ps

/-- Words stand on one line if they fit there; only a word that is wider than a line is divided. -/
inductive Fits (limit : Nat) : Block → Prop
  | line {ws : List (List Char)} (hne : ws ≠ []) (hwidth : Text.width (Text.unwords ws) ≤ limit) :
      Fits limit (.line ws)
  | divided {ps : List (List Char)} (hwide : limit < Text.width ps.flatten)
      (hstand : ∀ p ∈ ps, Stands limit p) (hfull : ps.IsChain (Full limit)) :
      Fits limit (.divided ps)

def Parted (limit : Nat) : Block → Block → Prop
  | .line ws, .line (v :: _) => limit < Text.width (Text.unwords ws) + 1 + Text.width v
  | _, _ => True

end Block

structure Layout (limit : Nat) (words lines : List (List Char)) (blocks : List Block) : Prop where
  words : blocks.flatMap Block.words = words
  lines : blocks.flatMap Block.lines = lines
  fits : ∀ b ∈ blocks, b.Fits limit
  parted : blocks.IsChain (Block.Parted limit)

def packBehind (limit : Nat) (vs ws : List (List Char)) : List (List Char) :=
  pack limit (Text.unwords vs) (Text.width (Text.unwords vs)) ws

def Begins (vs : List (List Char)) (blocks : List Block) : Prop :=
  vs ≠ [] → ∃ us rest, blocks = .line (vs ++ us) :: rest

/-! ## A line of a wide word -/

theorem fill_append (limit used : Nat) (cs : List Char) :
    (fill limit used cs).1 ++ (fill limit used cs).2 = cs := by
  induction cs generalizing used with
  | nil => rfl
  | cons c cs ih =>
    simp only [fill]
    split
    · simp only [List.cons_append, ih]
    · rfl

theorem fill_narrow (limit used : Nat) (cs : List Char) :
    (fill limit used cs).1 = [] ∨ used + Text.width (fill limit used cs).1 ≤ limit := by
  induction cs generalizing used with
  | nil => exact .inl rfl
  | cons c cs ih =>
    simp only [fill]
    split
    · next hfits =>
      right
      simp only [Text.width]
      rcases ih (used + Text.columns c) with hnil | hnarrow
      · simp only [hnil, Text.width]
        omega
      · omega
    · exact .inl rfl

theorem fill_full (limit used : Nat) (cs : List Char) :
    ∀ c ∈ (fill limit used cs).2.head?,
      limit < used + Text.width (fill limit used cs).1 + Text.columns c := by
  induction cs generalizing used with
  | nil => exact nofun
  | cons d cs ih =>
    simp only [fill]
    split
    · intro c hc
      have hfull := ih (used + Text.columns d) c hc
      simp only [Text.width]
      omega
    · next hover =>
      rintro c ⟨⟩
      simp only [Text.width]
      omega

theorem flatten_pieces (limit : Nat) (cs : List Char) : (pieces limit cs).flatten = cs := by
  induction cs using pieces.induct limit with
  | case1 => simp [pieces]
  | case2 c cs ih =>
    rw [pieces, List.flatten_cons, ih, List.cons_append, fill_append]

theorem stands_pieces (limit : Nat) (cs : List Char) : ∀ p ∈ pieces limit cs, Stands limit p := by
  induction cs using pieces.induct limit with
  | case1 => simp [pieces]
  | case2 c cs ih =>
    rw [pieces]
    intro p hp
    rcases List.mem_cons.mp hp with rfl | hp
    · refine ⟨List.cons_ne_nil _ _, ?_⟩
      rcases fill_narrow limit (Text.columns c) cs with hnil | hnarrow
      · rw [hnil]
        rcases Nat.lt_or_ge limit (Text.columns c) with hwide | hnarrow
        · exact .inr ⟨c, rfl, hwide⟩
        · exact .inl hnarrow
      · exact .inl hnarrow
    · exact ih p hp

theorem full_pieces (limit : Nat) (cs : List Char) : (pieces limit cs).IsChain (Full limit) := by
  induction cs using pieces.induct limit with
  | case1 => simp [pieces]
  | case2 c cs ih =>
    have hfull := fill_full limit (Text.columns c) cs
    rw [pieces, List.isChain_cons]
    refine ⟨?_, ih⟩
    intro q hq d hd
    -- The next piece begins with the character that did not fit.
    apply hfull d
    generalize (fill limit (Text.columns c) cs).2 = rest at hq
    cases rest with
    | nil => simp [pieces] at hq
    | cons e rest =>
      rw [pieces] at hq
      obtain rfl := Option.mem_some_iff.mp hq
      exact hd

/-! ## Lines of words -/

section
variable {limit : Nat} {vs ws ls : List (List Char)} {w : List Char} {blocks : List Block}

omit [Text.Metric] in
theorem flush_unwords (hvs : ∀ v ∈ vs, v ≠ []) (hne : vs ≠ []) :
    flush (Text.unwords vs) = [Text.unwords vs] := by
  have hline := Text.unwords_ne_nil hne hvs
  simp [flush, hline]

theorem packBehind_nil (limit : Nat) (vs : List (List Char)) :
    packBehind limit vs [] = flush (Text.unwords vs) := rfl

theorem packBehind_wide (hwide : limit < Text.width w) (vs ws : List (List Char)) :
    packBehind limit vs (w :: ws) =
      flush (Text.unwords vs) ++ (pieces limit w ++ packBehind limit [] ws) := by
  simp only [packBehind, pack, if_pos hwide, List.append_assoc]
  rfl

theorem packBehind_first (hnarrow : ¬ limit < Text.width w) (ws : List (List Char)) :
    packBehind limit [] (w :: ws) = packBehind limit [w] ws := by
  have hline : Text.unwords [w] = w := by simp [Text.unwords]
  have hempty : (Text.unwords []).isEmpty = true := rfl
  simp only [packBehind, pack, if_neg hnarrow, hempty, if_true, hline]

/-- Behind a line of words that has no room for the next one, or else on it. -/
theorem packBehind_next (hvs : ∀ v ∈ vs, v ≠ []) (hne : vs ≠ []) (hnarrow : ¬ limit < Text.width w)
    (ws : List (List Char)) :
    packBehind limit vs (w :: ws) =
      if limit < Text.width (Text.unwords vs) + 1 + Text.width w then
        flush (Text.unwords vs) ++ packBehind limit [w] ws
      else packBehind limit (vs ++ [w]) ws := by
  have hempty : (Text.unwords vs).isEmpty = false :=
    List.isEmpty_eq_false_iff.mpr (Text.unwords_ne_nil hne hvs)
  have hline : Text.unwords [w] = w := by simp [Text.unwords]
  have hgrown := Text.unwords_concat hne w
  have hwidth := Text.width_unwords_concat hne w
  rw [hgrown] at hwidth
  simp only [packBehind, pack, if_neg hnarrow, hempty, Bool.false_eq_true, if_false, hline,
    flush_unwords hvs hne, List.singleton_append, hgrown, hwidth,
    Nat.add_right_comm _ (Text.width w) 1]

namespace Layout

theorem nil (limit : Nat) : Layout limit [] [] [] := ⟨rfl, rfl, nofun, .nil⟩

theorem cons {b : Block} (hb : b.Fits limit) (h : Layout limit ws ls blocks)
    (hparted : ∀ b' ∈ blocks.head?, b.Parted limit b') :
    Layout limit (b.words ++ ws) (b.lines ++ ls) (b :: blocks) where
  words := by rw [List.flatMap_cons, h.words]
  lines := by rw [List.flatMap_cons, h.lines]
  fits := List.forall_mem_cons.mpr ⟨hb, h.fits⟩
  parted := List.isChain_cons.mpr ⟨hparted, h.parted⟩

theorem divided (hwide : limit < Text.width w) (h : Layout limit ws ls blocks) :
    Layout limit (w :: ws) (pieces limit w ++ ls) (.divided (pieces limit w) :: blocks) := by
  have hword := flatten_pieces limit w
  have hfits : (Block.divided (pieces limit w)).Fits limit :=
    .divided (by rwa [hword]) (stands_pieces limit w) (full_pieces limit w)
  have hlayout := h.cons hfits fun _ _ => trivial
  simp only [Block.words, Block.lines, hword, List.singleton_append] at hlayout
  exact hlayout

/-- A line of words is finished where what follows has no room on it. -/
theorem flush (hvs : ∀ v ∈ vs, v ≠ []) (hfits : Text.width (Text.unwords vs) ≤ limit)
    (h : Layout limit ws ls blocks) (hparted : ∀ b ∈ blocks.head?, (Block.line vs).Parted limit b) :
    ∃ blocks', Layout limit (vs ++ ws) (Wrap.flush (Text.unwords vs) ++ ls) blocks' ∧
      Begins vs blocks' := by
  by_cases hnil : vs = []
  · subst hnil
    exact ⟨blocks, h, fun hne => absurd rfl hne⟩
  · rw [flush_unwords hvs hnil]
    refine ⟨.line vs :: blocks, h.cons (.line hnil hfits) hparted, fun _ => ⟨[], blocks, ?_⟩⟩
    rw [List.append_nil]

end Layout

/-- The induction is on the words that are still to be packed.  The unfinished line is part of the
blocks, so that what is asked of it holds when the next line is begun. -/
theorem exists_layout (hvs : ∀ v ∈ vs, v ≠ []) (hws : ∀ w ∈ ws, w ≠ [])
    (hfits : Text.width (Text.unwords vs) ≤ limit) :
    ∃ blocks, Layout limit (vs ++ ws) (packBehind limit vs ws) blocks ∧ Begins vs blocks := by
  induction ws generalizing vs with
  | nil =>
    rw [packBehind_nil, ← List.append_nil (flush (Text.unwords vs))]
    exact Layout.flush hvs hfits (.nil limit) nofun
  | cons w ws ih =>
    obtain ⟨hw, hws⟩ := List.forall_mem_cons.mp hws
    have hone : ∀ v ∈ [w], v ≠ [] := List.forall_mem_singleton.mpr hw
    have hline : Text.unwords [w] = w := by simp [Text.unwords]
    by_cases hwide : limit < Text.width w
    · have hnone : ∀ v ∈ ([] : List (List Char)), v ≠ [] := List.forall_mem_nil _
      obtain ⟨blocks, hlayout, -⟩ := ih hnone hws (Nat.zero_le limit)
      rw [packBehind_wide hwide]
      apply Layout.flush hvs hfits (hlayout.divided hwide)
      rintro b ⟨⟩
      trivial
    have hnew : Text.width (Text.unwords [w]) ≤ limit := hline.symm ▸ Nat.le_of_not_lt hwide
    obtain ⟨blocks, hlayout, hbegins⟩ := ih hone hws hnew
    by_cases hnil : vs = []
    · subst hnil
      rw [packBehind_first hwide]
      exact ⟨blocks, hlayout, fun hne => absurd rfl hne⟩
    rw [packBehind_next hvs hnil hwide]
    split_ifs with hover
    · apply Layout.flush hvs hfits hlayout
      obtain ⟨us, rest, rfl⟩ := hbegins (List.cons_ne_nil w [])
      rintro b ⟨⟩
      exact hover
    · have hroom : Text.width (Text.unwords (vs ++ [w])) ≤ limit := by
        rw [Text.width_unwords_concat hnil]
        omega
      obtain ⟨blocks, hlayout, hbegins⟩ := ih (List.forall_mem_append.mpr ⟨hvs, hone⟩) hws hroom
      rw [List.append_assoc] at hlayout
      refine ⟨blocks, hlayout, fun _ => ?_⟩
      obtain ⟨us, rest, rfl⟩ := hbegins (by simp)
      exact ⟨w :: us, rest, by rw [List.append_assoc, List.singleton_append]⟩

end

/-! ## The text in its lines -/

theorem Block.Fits.stands {limit : Nat} {b : Block} (h : b.Fits limit)
    (hwords : ∀ w ∈ b.words, w ≠ []) : ∀ line ∈ b.lines, Stands limit line := by
  cases h with
  | line hne hwidth =>
    intro line hline
    obtain rfl := List.mem_singleton.mp hline
    exact ⟨Text.unwords_ne_nil hne hwords, .inl hwidth⟩
  | divided _ hstand _ => exact hstand

omit [Text.Metric] in
/-- The spaces between words are the only characters that a block adds to its words. -/
theorem Block.filter_lines {b : Block} (h : ∀ w ∈ b.words, ∀ c ∈ w, c ≠ ' ') :
    b.lines.flatten.filter (· != ' ') = b.words.flatten := by
  have hword {w : List Char} (hw : ∀ c ∈ w, c ≠ ' ') : w.filter (· != ' ') = w :=
    List.filter_eq_self.mpr fun c hc => bne_iff_ne.mpr (hw c hc)
  cases b with
  | line ws =>
    simp only [lines, words, List.flatten_singleton] at h ⊢
    induction ws with
    | nil => rfl
    | cons w ws ih =>
      obtain ⟨hw, hws⟩ := List.forall_mem_cons.mp h
      rw [Text.unwords_cons, List.filter_append, hword hw, List.flatten_cons]
      congr 1
      split_ifs with hnil
      · rw [hnil]
        rfl
      · exact ih hws
  | divided ps =>
    simp only [lines, words, List.flatten_singleton]
    exact hword (h ps.flatten List.mem_cons_self)

namespace Layout
variable {limit : Nat} {ws ls : List (List Char)} {blocks : List Block}

theorem mem_words (h : Layout limit ws ls blocks) {b : Block} (hb : b ∈ blocks) :
    ∀ w ∈ b.words, w ∈ ws := by
  intro w hw
  rw [← h.words]
  exact List.mem_flatMap.mpr ⟨b, hb, hw⟩

theorem stands (h : Layout limit ws ls blocks) (hws : ∀ w ∈ ws, w ≠ []) :
    ∀ line ∈ ls, Stands limit line := by
  intro line hline
  rw [← h.lines] at hline
  obtain ⟨b, hb, hline⟩ := List.mem_flatMap.mp hline
  exact (h.fits b hb).stands (fun w hw => hws w (h.mem_words hb w hw)) line hline

theorem filter_lines (h : Layout limit ws ls blocks) (hws : ∀ w ∈ ws, ∀ c ∈ w, c ≠ ' ') :
    ls.flatten.filter (· != ' ') = ws.flatten := by
  rw [← h.lines, ← h.words, List.flatMap_def, List.flatMap_def, List.flatten_flatten,
    List.flatten_flatten, List.filter_flatten, List.map_map, List.map_map, List.map_map]
  congr 1
  apply List.map_congr_left
  intro b hb
  exact Block.filter_lines fun w hw => hws w (h.mem_words hb w hw)

end Layout

theorem exists_layout_lines {limit : Nat} (hlimit : 1 ≤ limit) (text : List Char) :
    ∃ blocks, Layout limit (Text.words text) (lines limit text) blocks := by
  have hlines : lines limit text = packBehind limit [] (Text.words text) :=
    if_neg (Nat.one_le_iff_ne_zero.mp hlimit)
  have hwords : ∀ w ∈ Text.words text, w ≠ [] := fun w => Text.ne_nil_of_mem_words
  have hnone : ∀ v ∈ ([] : List (List Char)), v ≠ [] := List.forall_mem_nil _
  obtain ⟨blocks, hlayout, -⟩ := exists_layout hnone hwords (Nat.zero_le limit)
  rw [hlines]
  exact ⟨blocks, hlayout⟩

theorem stands_lines {limit : Nat} (hlimit : 1 ≤ limit) (text : List Char) :
    ∀ line ∈ lines limit text, Stands limit line := by
  obtain ⟨blocks, hlayout⟩ := exists_layout_lines hlimit text
  exact hlayout.stands fun w => Text.ne_nil_of_mem_words

theorem filter_lines {limit : Nat} (hlimit : 1 ≤ limit) (text : List Char) :
    (lines limit text).flatten.filter (· != ' ') = Text.visible text := by
  obtain ⟨blocks, hlayout⟩ := exists_layout_lines hlimit text
  rw [← Text.flatten_words]
  apply hlayout.filter_lines
  intro w hw c hc
  exact Text.ne_space (Text.isBlank_of_mem_words hw hc)

theorem lines_ne_nil {c : Char} {text : List Char} (hc : c ∈ text)
    (hvisible : Text.isBlank c = false) (limit : Nat) : lines limit text ≠ [] := by
  rcases Nat.eq_zero_or_pos limit with rfl | hlimit
  · exact List.cons_ne_nil _ _
  · intro hnil
    have hmem : c ∈ (lines limit text).flatten.filter (· != ' ') := by
      rw [filter_lines hlimit]
      exact Text.mem_visible.mpr ⟨hc, hvisible⟩
    rw [hnil] at hmem
    nomatch hmem

/-- In lines of at least one column a text is laid out in blocks.  No line is empty, and none is
wider than the limit but a single wide character; apart from spaces the lines are the text without
its white space.  A word that fits on a line stands there whole, with one space between neighbours,
and a wider one has lines of its own.  A line of words ends only where the next word has no room,
and a piece of a word only where its next character has none. -/
theorem lines_laid_out (text : List Char) (limit : Nat) (hlimit : 1 ≤ limit) :
    (∀ line ∈ lines limit text, Stands limit line) ∧
    (lines limit text).flatten.filter (· != ' ') = Text.visible text ∧
    ∃ blocks, Layout limit (Text.words text) (lines limit text) blocks :=
  ⟨stands_lines hlimit text, filter_lines hlimit text, exists_layout_lines hlimit text⟩

end

/-- A word of six columns behind a line of three; its marks take none and its letters two. -/
theorem wideWord_laid_out :
    let text := "a e\u0301 日\u0301本語\u0301 1".toList
    1 ≤ 4 ∧ "e\u0301日本語".toList.map Text.columns = [1, 0, 2, 2, 2] ∧
      lines 4 text = ["a e\u0301", "日\u0301本", "語\u0301", "1"].map String.toList ∧
      (∀ line ∈ lines 4 text, Stands 4 line) ∧
      (lines 4 text).flatten.filter (· != ' ') = Text.visible text ∧
      ∃ blocks, Layout 4 (Text.words text) (lines 4 text) blocks := by
  intro text
  have hcolumns : "e\u0301日本語".toList.map Text.columns = [1, 0, 2, 2, 2] := by decide +kernel
  have hlines : lines 4 text = ["a e\u0301", "日\u0301本", "語\u0301", "1"].map String.toList := by
    decide +kernel
  exact ⟨by decide, hcolumns, hlines, lines_laid_out text 4 (by decide)⟩

end Wrap

end Calculator
