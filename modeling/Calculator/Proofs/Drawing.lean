import Calculator.Proofs.Wrap
import Calculator.Screen.Box

/-! # Drawn texts

A text that fits takes a cell for each of its columns.  ASCII text is drawn with one character in a
cell, and it is cut where the room ends.
-/
namespace Calculator

namespace Text

variable [Metric]

theorem width_ascii {cs : List Char} (h : ∀ c ∈ cs, c.toNat < 128) : width cs = cs.length := by
  induction cs with
  | nil => rfl
  | cons c cs ih =>
    obtain ⟨hc, hcs⟩ := List.forall_mem_cons.mp h
    rw [width, columns_ascii hc, ih hcs, List.length_cons, Nat.add_comm]

/-- Marks that join a character do not widen it. -/
theorem width_marks (c : Char) (cs : List Char) :
    width (c :: cs.takeWhile (columns · = 0)) = columns c := by
  have hmarks : width (cs.takeWhile (columns · = 0)) = 0 := by
    induction cs with
    | nil => rfl
    | cons d cs ih =>
      by_cases hd : columns d = 0
      · simp only [List.takeWhile_cons, hd, decide_true, if_true, width, ih]
      · simp only [List.takeWhile_cons, hd, decide_false, Bool.false_eq_true, if_false, width]
  rw [width, hmarks, Nat.add_zero]

end Text

namespace Screen

def plain (cs : List Char) : Row := cs.map fun c => [c]

/-- The row shows the text from the column on, one character in a cell. -/
def Row.Holds (row : Row) (column : Nat) (cs : List Char) : Prop :=
  (row.drop column).take cs.length = plain cs

instance (row : Row) (column : Nat) (cs : List Char) : Decidable (row.Holds column cs) :=
  inferInstanceAs (Decidable (_ = _))

variable [Text.Metric] {room : Nat} {cs : List Char} {texts : List (List Char)}

/-! ## Texts that fit -/

theorem length_draw (h : Text.width cs ≤ room) : (draw room cs).length = Text.width cs := by
  unfold draw
  induction cs generalizing room with
  | nil => rfl
  | cons c cs ih =>
    rw [Text.width] at h
    rw [cells]
    split_ifs with hmark
    · rw [ih (by omega), Text.width, hmark, Nat.zero_add]
    · simp only [fit, Text.width_marks]
      rw [if_pos (by omega), List.length_append, List.length_cons, List.length_replicate,
        ih (by omega), Text.width]
      omega

theorem length_drawAll (h : Text.width texts.flatten ≤ room) :
    (drawAll room texts).length = Text.width texts.flatten := by
  induction texts generalizing room with
  | nil => rfl
  | cons cs texts ih =>
    rw [List.flatten_cons, Text.width_append] at h ⊢
    have hfirst : (draw room cs).length = Text.width cs := length_draw (by omega)
    simp only [drawAll, List.length_append, hfirst]
    rw [ih (by omega)]

theorem drawAll_append (room : Nat) (texts others : List (List Char)) :
    drawAll room (texts ++ others) =
      drawAll room texts ++ drawAll (room - (drawAll room texts).length) others := by
  induction texts generalizing room with
  | nil => rfl
  | cons cs texts ih =>
    simp only [List.cons_append, drawAll, ih, List.append_assoc, List.length_append, Nat.sub_sub]

/-! ## ASCII texts -/

theorem cells_ascii (h : ∀ c ∈ cs, c.toNat < 128) : cells cs = plain cs := by
  induction cs with
  | nil => rfl
  | cons c cs ih =>
    obtain ⟨hc, hcs⟩ := List.forall_mem_cons.mp h
    have hmarks : cs.takeWhile (Text.columns · = 0) = [] := by
      cases cs with
      | nil => rfl
      | cons d cs =>
        rw [List.takeWhile_cons_of_neg]
        simp [Text.columns_ascii (hcs d List.mem_cons_self)]
    rw [cells, if_neg (by simp [Text.columns_ascii hc]), hmarks, ih hcs]
    rfl

theorem draw_ascii (h : ∀ c ∈ cs, c.toNat < 128) (room : Nat) :
    draw room cs = plain (cs.take room) := by
  rw [draw, cells_ascii h]
  induction cs generalizing room with
  | nil => rw [List.take_nil]; rfl
  | cons c cs ih =>
    obtain ⟨hc, hcs⟩ := List.forall_mem_cons.mp h
    have hwidth : Text.width [c] = 1 := by rw [Text.width, Text.columns_ascii hc]; rfl
    simp only [plain, List.map_cons, fit, hwidth]
    cases room with
    | zero => rfl
    | succ room =>
      rw [if_pos (Nat.le_add_left 1 room)]
      exact congrArg (List.cons [c]) (ih hcs room)

/-- Several texts are drawn like one. -/
theorem drawAll_ascii (h : ∀ cs ∈ texts, ∀ c ∈ cs, c.toNat < 128) (room : Nat) :
    drawAll room texts = plain (texts.flatten.take room) := by
  induction texts generalizing room with
  | nil => rw [List.flatten_nil, List.take_nil]; rfl
  | cons cs texts ih =>
    obtain ⟨hcs, htexts⟩ := List.forall_mem_cons.mp h
    have hroom : room - (plain (cs.take room)).length = room - cs.length := by
      rw [plain, List.length_map, List.length_take]
      omega
    simp only [drawAll, draw_ascii hcs, ih htexts, hroom]
    rw [List.flatten_cons, List.take_append, plain, plain, plain, List.map_append]

/-! ## Rows of a box -/

omit [Text.Metric] in
theorem drop_bordered {width : Nat} {row : Row} (left right : Char)
    (hroom : row.length + 2 ≤ width) :
    (bordered left right width row).drop 1 =
      row ++ List.replicate (width - 2 - row.length) blank ++ [[right]] := by
  have htake : row.take (width - 2) = row := List.take_of_length_le (by omega)
  have hpad : Row.pad (width - 2) row = row ++ List.replicate (width - 2 - row.length) blank := by
    rw [Row.pad, htake]
  have hwhole : ([left] :: Row.pad (width - 2) row ++ [[right]]).length ≤ width := by
    simp only [hpad, List.cons_append, List.length_cons, List.length_append, List.length_replicate,
      List.length_nil]
    omega
  rw [bordered, List.take_of_length_le hwhole, hpad]
  rfl

omit [Text.Metric] in
/-- Behind what stands in the row before it, an ASCII text is cut at the border.  It is whole if
and only if it has room. -/
theorem holds_bordered {width : Nat} {before : Row} (hroom : before.length + 2 ≤ width)
    (hascii : ∀ c ∈ cs, c.toNat < 128) :
    let room := width - 2 - before.length
    let row := bordered '│' '│' width (before ++ plain (cs.take room))
    row.Holds (1 + before.length) (cs.take room) ∧
      (row.Holds (1 + before.length) cs ↔ cs.length ≤ room) := by
  intro room row
  have hlength : (plain (cs.take room)).length = min room cs.length := by
    rw [plain, List.length_map, List.length_take]
  have hdrop : row.drop (1 + before.length) =
      plain (cs.take room) ++ (List.replicate (room - cs.length) blank ++ [['│']]) := by
    have hinner : (before ++ plain (cs.take room)).length + 2 ≤ width := by
      rw [List.length_append, hlength]
      omega
    rw [← List.drop_drop, drop_bordered _ _ hinner, List.append_assoc, List.append_assoc,
      List.drop_left]
    congr 3
    rw [List.length_append, hlength]
    omega
  have hcut : row.Holds (1 + before.length) (cs.take room) := by
    rw [Row.Holds, hdrop]
    exact List.take_left' (by rw [hlength, List.length_take])
  refine ⟨hcut, fun hwhole => ?_, fun hle => ?_⟩
  · -- A text that is too long would go on with the border.
    by_contra hlong
    have hblanks : room - cs.length = 0 := by omega
    rw [Row.Holds, hdrop, hblanks] at hwhole
    have hborder : (plain cs)[room]? = some ['│'] := by
      rw [← hwhole, List.getElem?_take_of_lt (by omega),
        List.getElem?_append_right (by rw [hlength]; omega), hlength, min_eq_left (by omega),
        Nat.sub_self]
      rfl
    rw [plain, List.getElem?_map, Option.map_eq_some_iff] at hborder
    obtain ⟨c, hc, hcell⟩ := hborder
    obtain rfl : c = '│' := List.singleton_injective hcell
    exact absurd (hascii _ (List.mem_of_getElem? hc)) (by decide)
  · rwa [List.take_of_length_le hle] at hcut

end Screen

end Calculator
