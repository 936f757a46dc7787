import Calculator.LineBuffer
import Mathlib.Data.List.TakeWhile

/-! # Positions in an edited line

A text is edited at byte offsets, and a word is looked for character by character.  Here each of
these accesses is checked: an offset has to stand between two characters, and an index has to be
one of the text.  The checks never fail, because the cursor stays inside the text.
-/
namespace Calculator

/-- The characters before and behind a byte offset, if it stands between two characters. -/
def splitAtByte? : List Char → Nat → Option (List Char × List Char)
  | [], n => if n = 0 then some ([], []) else none
  | c :: cs, n =>
    if n = 0 then some ([], c :: cs)
    else if n < c.utf8Size then none
    else (splitAtByte? cs (n - c.utf8Size)).map fun (before, behind) => (c :: before, behind)

def insertAtByte? (cs : List Char) (n : Nat) (c : Char) : Option (List Char) :=
  (splitAtByte? cs n).map fun (before, behind) => before ++ c :: behind

def removeAtByte? (cs : List Char) (n : Nat) : Option (List Char) :=
  match splitAtByte? cs n with
  | some (before, _ :: behind) => some (before ++ behind)
  | _ => none

def walkLeft? (p : Char → Bool) (cs : List Char) : Nat → Option Nat
  | 0 => some 0
  | n + 1 => do
    let c ← cs[n]?
    if p c then walkLeft? p cs n else some (n + 1)

def walkRight? (p : Char → Bool) (cs : List Char) (n : Nat) : Option Nat :=
  if n < cs.length then do
    let c ← cs[n]?
    if p c then walkRight? p cs (n + 1) else some n
  else some n
termination_by cs.length - n

theorem splitAtByte?_byteOffset (cs : List Char) (n : Nat) :
    splitAtByte? cs (LineBuffer.byteOffset cs n) = some (cs.take n, cs.drop n) := by
  induction cs generalizing n with
  | nil => simp [splitAtByte?, LineBuffer.byteOffset]
  | cons c cs ih =>
    cases n with
    | zero => simp [splitAtByte?, LineBuffer.byteOffset]
    | succ n =>
      have hpos := c.utf8Size_pos
      have hne : c.utf8Size + LineBuffer.byteOffset cs n ≠ 0 := by omega
      have hle : ¬ c.utf8Size + LineBuffer.byteOffset cs n < c.utf8Size := by omega
      simp only [splitAtByte?, LineBuffer.byteOffset, hne, hle, ↓reduceIte,
        Nat.add_sub_cancel_left, ih, Option.map_some, List.take_succ_cons, List.drop_succ_cons]

theorem splitAtByte?_eq_some {cs before behind : List Char} {n : Nat}
    (h : splitAtByte? cs n = some (before, behind)) :
    cs = before ++ behind ∧ n = (String.ofList before).utf8ByteSize := by
  induction cs generalizing n before with
  | nil =>
    simp only [splitAtByte?] at h
    split_ifs at h with hn
    obtain ⟨rfl, rfl⟩ := Prod.mk.inj (Option.some.inj h)
    exact ⟨rfl, hn⟩
  | cons c cs ih =>
    simp only [splitAtByte?] at h
    split_ifs at h with hn hc
    · obtain ⟨rfl, rfl⟩ := Prod.mk.inj (Option.some.inj h)
      exact ⟨rfl, hn⟩
    · obtain ⟨⟨before', behind'⟩, hsplit, hpair⟩ := Option.map_eq_some_iff.mp h
      obtain ⟨rfl, rfl⟩ := Prod.mk.inj hpair
      obtain ⟨rfl, hsize⟩ := ih hsplit
      refine ⟨rfl, ?_⟩
      dsimp only at hsize ⊢
      rw [String.ofList_cons, String.utf8ByteSize_append, String.utf8ByteSize_singleton]
      omega

/-- Between two parts of a text it can be cut. -/
theorem splitAtByte?_append (before behind : List Char) :
    splitAtByte? (before ++ behind) (String.ofList before).utf8ByteSize =
      some (before, behind) := by
  have hsplit := splitAtByte?_byteOffset (before ++ behind) before.length
  rw [List.take_left, List.drop_left] at hsplit
  rwa [← (splitAtByte?_eq_some hsplit).2]

/-- The byte offset of a number of characters stands between two of them. -/
theorem byteOffset_isValid (cs : List Char) (n : Nat) :
    (⟨LineBuffer.byteOffset cs n⟩ : String.Pos.Raw).IsValid (String.ofList cs) := by
  obtain ⟨hcs, hsize⟩ := splitAtByte?_eq_some (splitAtByte?_byteOffset cs n)
  rw [String.Pos.Raw.isValid_iff_exists_append]
  refine ⟨String.ofList (cs.take n), String.ofList (cs.drop n), ?_, ?_⟩
  · rw [← String.ofList_append, ← hcs]
  · rw [hsize]
    rfl

theorem insertAtByte?_byteOffset (cs : List Char) (n : Nat) (c : Char) :
    insertAtByte? cs (LineBuffer.byteOffset cs n) c = some (cs.take n ++ c :: cs.drop n) := by
  rw [insertAtByte?, splitAtByte?_byteOffset, Option.map_some]

theorem removeAtByte?_byteOffset {cs : List Char} {n : Nat} (hn : n < cs.length) :
    removeAtByte? cs (LineBuffer.byteOffset cs n) = some (cs.eraseIdx n) := by
  have hdrop : cs.drop n = cs[n] :: cs.drop (n + 1) := List.drop_eq_getElem_cons hn
  rw [removeAtByte?, splitAtByte?_byteOffset, hdrop, List.eraseIdx_eq_take_drop_succ]

/-- There is no character to take away in the middle of one. -/
example : removeAtByte? ['é', '1'] 1 = none ∧ removeAtByte? ['é', '1'] 2 = some ['é'] := by
  decide

/-! ## Runs of characters -/

namespace Text

def runStart (p : Char → Bool) (cs : List Char) (n : Nat) : Nat :=
  ((cs.take n).reverse.dropWhile p).length

def runEnd (p : Char → Bool) (cs : List Char) (n : Nat) : Nat :=
  cs.length - ((cs.drop n).dropWhile p).length

/-- What is left before the cursor, once it has gone to the left, is what stands there. -/
theorem take_runStart (p : Char → Bool) (cs : List Char) (n : Nat) :
    (cs.take (runStart p cs n)).reverse = (cs.take n).reverse.dropWhile p := by
  have hsuffix := List.dropWhile_suffix (l := (cs.take n).reverse) p
  have hprefix : ((cs.take n).reverse.dropWhile p).reverse <+: cs := by
    rw [← List.reverse_suffix, List.reverse_reverse]
    exact hsuffix.trans (List.reverse_suffix.mpr (List.take_prefix n cs))
  have htake := List.prefix_iff_eq_take.mp hprefix
  rw [List.length_reverse] at htake
  rw [runStart, ← htake, List.reverse_reverse]

theorem drop_runEnd (p : Char → Bool) (cs : List Char) (n : Nat) :
    cs.drop (runEnd p cs n) = (cs.drop n).dropWhile p := by
  have hsuffix : (cs.drop n).dropWhile p <:+ cs :=
    (List.dropWhile_suffix p).trans (List.drop_suffix n cs)
  exact (List.suffix_iff_eq_drop.mp hsuffix).symm

theorem runStart_le_length (p : Char → Bool) (cs : List Char) (n : Nat) :
    runStart p cs n ≤ cs.length := by
  have hle := (List.dropWhile_suffix (l := (cs.take n).reverse) p).length_le
  rw [List.length_reverse] at hle
  exact hle.trans (List.length_take_le' n cs)

theorem runEnd_le_length (p : Char → Bool) (cs : List Char) (n : Nat) :
    runEnd p cs n ≤ cs.length := Nat.sub_le _ _

end Text

theorem walkLeft?_eq (p : Char → Bool) {cs : List Char} {n : Nat} (hn : n ≤ cs.length) :
    walkLeft? p cs n = some (Text.runStart p cs n) := by
  unfold Text.runStart
  induction n with
  | zero => simp [walkLeft?]
  | succ n ih =>
    have hget : cs[n]? = some cs[n] := List.getElem?_eq_getElem hn
    have htake : (cs.take (n + 1)).reverse = cs[n] :: (cs.take n).reverse := by
      rw [List.take_succ_eq_append_getElem hn, List.reverse_append, List.reverse_singleton,
        List.singleton_append]
    rw [walkLeft?, hget, Option.bind_eq_bind, Option.bind_some, htake]
    by_cases hp : p cs[n] = true
    · rw [if_pos hp, List.dropWhile_cons_of_pos hp, ih (Nat.le_of_succ_le hn)]
    · rw [if_neg hp, List.dropWhile_cons_of_neg hp, List.length_cons, List.length_reverse,
        List.length_take_of_le (Nat.le_of_succ_le hn)]

theorem walkRight?_eq (p : Char → Bool) {cs : List Char} {n : Nat} (hn : n ≤ cs.length) :
    walkRight? p cs n = some (Text.runEnd p cs n) := by
  unfold Text.runEnd
  induction hk : cs.length - n generalizing n with
  | zero =>
    obtain rfl : n = cs.length := by omega
    rw [walkRight?]
    simp
  | succ k ih =>
    have hlt : n < cs.length := by omega
    have hget : cs[n]? = some cs[n] := List.getElem?_eq_getElem hlt
    rw [walkRight?, if_pos hlt, hget, Option.bind_eq_bind, Option.bind_some,
      List.drop_eq_getElem_cons hlt]
    by_cases hp : p cs[n] = true
    · rw [if_pos hp, List.dropWhile_cons_of_pos hp, ih hlt (by omega)]
    · rw [if_neg hp, List.dropWhile_cons_of_neg hp, List.length_cons, List.length_drop]
      congr 1
      omega

namespace LineBuffer

def Inside (b : LineBuffer) : Prop := b.cursor ≤ b.text.length

def insert? (b : LineBuffer) (c : Char) : Option LineBuffer := do
  let text ← insertAtByte? b.text (byteOffset b.text b.cursor) c
  some ⟨text, b.cursor + 1⟩

def deleteAt? (b : LineBuffer) : Option LineBuffer :=
  if b.cursor < b.text.length then do
    let text ← removeAtByte? b.text (byteOffset b.text b.cursor)
    some { b with text }
  else some b

def deleteBefore? (b : LineBuffer) : Option LineBuffer :=
  if 0 < b.cursor then { b with cursor := b.cursor - 1 }.deleteAt? else some b

def wordLeft? (b : LineBuffer) : Option LineBuffer := do
  let blank ← walkLeft? Text.isBlank b.text b.cursor
  let start ← walkLeft? (!Text.isBlank ·) b.text blank
  some { b with cursor := min start b.text.length }

def wordRight? (b : LineBuffer) : Option LineBuffer := do
  let blank ← walkRight? (!Text.isBlank ·) b.text b.cursor
  let start ← walkRight? Text.isBlank b.text blank
  some { b with cursor := min start b.text.length }

variable {b : LineBuffer}

theorem insert?_eq (b : LineBuffer) (c : Char) : b.insert? c = some (b.insert c) := by
  rw [insert?, insertAtByte?_byteOffset]
  rfl

theorem deleteAt?_eq (b : LineBuffer) : b.deleteAt? = some b.deleteAt := by
  by_cases h : b.cursor < b.text.length
  · rw [deleteAt?, if_pos h, removeAtByte?_byteOffset h]
    rfl
  · rw [deleteAt?, if_neg h, deleteAt, List.eraseIdx_of_length_le (not_lt.mp h)]

theorem deleteBefore?_eq (b : LineBuffer) : b.deleteBefore? = some b.deleteBefore := by
  by_cases h : 0 < b.cursor
  · rw [deleteBefore?, if_pos h, deleteAt?_eq, deleteBefore, if_pos h]
  · rw [deleteBefore?, if_neg h, deleteBefore, if_neg h]

theorem cursor_wordLeft (b : LineBuffer) : b.wordLeft.cursor =
    Text.runStart (!Text.isBlank ·) b.text (Text.runStart Text.isBlank b.text b.cursor) := by
  rw [Text.runStart, Text.take_runStart]
  rfl

theorem cursor_wordRight (b : LineBuffer) : b.wordRight.cursor =
    Text.runEnd Text.isBlank b.text (Text.runEnd (!Text.isBlank ·) b.text b.cursor) := by
  rw [Text.runEnd, Text.drop_runEnd]
  rfl

/-! Every operation keeps the cursor inside. -/

theorem inside_ofText (text : List Char) : (ofText text).Inside := le_rfl

theorem Inside.insert (h : b.Inside) (c : Char) : (b.insert c).Inside := by
  simp only [Inside, LineBuffer.insert, List.length_append, List.length_cons, List.length_take,
    List.length_drop] at h ⊢
  omega

theorem Inside.deleteAt (h : b.Inside) : b.deleteAt.Inside := by
  simp only [Inside, LineBuffer.deleteAt, List.length_eraseIdx] at h ⊢
  split <;> omega

theorem Inside.left (h : b.Inside) : b.left.Inside := (Nat.sub_le _ _).trans h

theorem Inside.deleteBefore (h : b.Inside) : b.deleteBefore.Inside := by
  rw [LineBuffer.deleteBefore]
  split
  · exact h.left.deleteAt
  · exact h

theorem inside_right (b : LineBuffer) : b.right.Inside := min_le_right _ _

theorem inside_toStart (b : LineBuffer) : b.toStart.Inside := Nat.zero_le _

theorem inside_toEnd (b : LineBuffer) : b.toEnd.Inside := le_rfl

theorem inside_wordLeft (b : LineBuffer) : b.wordLeft.Inside := by
  rw [Inside, cursor_wordLeft]
  exact Text.runStart_le_length _ _ _

theorem inside_wordRight (b : LineBuffer) : b.wordRight.Inside := by
  rw [Inside, cursor_wordRight]
  exact Text.runEnd_le_length _ _ _

/-! The checks of the word moves never fail. -/

theorem Inside.wordLeft?_eq (h : b.Inside) : b.wordLeft? = some b.wordLeft := by
  have hstart : b.wordLeft.cursor ≤ b.text.length := inside_wordLeft b
  rw [wordLeft?, walkLeft?_eq _ h, Option.bind_eq_bind, Option.bind_some,
    walkLeft?_eq _ (Text.runStart_le_length _ _ _), Option.bind_some, ← cursor_wordLeft,
    min_eq_left hstart]
  rfl

theorem Inside.wordRight?_eq (h : b.Inside) : b.wordRight? = some b.wordRight := by
  have hstart : b.wordRight.cursor ≤ b.text.length := inside_wordRight b
  rw [wordRight?, walkRight?_eq _ h, Option.bind_eq_bind, Option.bind_some,
    walkRight?_eq _ (Text.runEnd_le_length _ _ _), Option.bind_some, ← cursor_wordRight,
    min_eq_left hstart]
  rfl

end LineBuffer

end Calculator
