import Calculator.Command
import Calculator.Request
import Mathlib.Data.List.DropRight

/-! # Entered lines

A line is trimmed when it is entered, so that blanks stand only inside of it.  What is left is a
command, or it asks for an expression, which is trimmed again and is missing only if the line is
the bare keyword.
-/
namespace Calculator

namespace Text

structure Trimmed (cs : List Char) : Prop where
  head : ∀ c ∈ cs.head?, isBlank c = false
  last : ∀ c ∈ cs.getLast?, isBlank c = false

variable {cs ds : List Char}

theorem trimEnd_eq (cs : List Char) : trimEnd cs = cs.rdropWhile isBlank := rfl

theorem head_trimStart (cs : List Char) : ∀ c ∈ (trimStart cs).head?, isBlank c = false := by
  intro c hc
  have h := List.head?_dropWhile_not isBlank cs
  rw [show (cs.dropWhile isBlank).head? = some c from hc] at h
  exact h

theorem last_trimEnd (cs : List Char) : ∀ c ∈ (trimEnd cs).getLast?, isBlank c = false := by
  intro c hc
  have hne : trimEnd cs ≠ [] := List.ne_nil_of_mem (List.mem_of_getLast? hc)
  have hlast := List.rdropWhile_last_not isBlank cs hne
  rw [Option.mem_def, List.getLast?_eq_some_getLast hne, Option.some_inj] at hc
  rw [← hc]
  exact Bool.eq_false_iff.mpr hlast

theorem trimmed_trim (cs : List Char) : Trimmed (trim cs) := by
  refine ⟨?_, last_trimEnd _⟩
  intro c hc
  have hprefix : trim cs <+: trimStart cs := List.rdropWhile_prefix isBlank _
  obtain ⟨rest, hrest⟩ := hprefix
  apply head_trimStart cs c
  rw [Option.mem_def] at hc
  rw [← hrest, List.head?_append, hc]
  rfl

theorem Trimmed.trim_eq (h : Trimmed cs) : trim cs = cs := by
  have hstart : trimStart cs = cs := by
    cases cs with
    | nil => rfl
    | cons c cs => exact List.dropWhile_cons_of_neg (Bool.eq_false_iff.mp (h.head c rfl))
  rw [trim, hstart, trimEnd_eq, List.rdropWhile_eq_self_iff]
  intro hne
  exact Bool.eq_false_iff.mp (h.last _ (List.getLast?_eq_some_getLast hne))

theorem trim_eq_nil_iff : trim cs = [] ↔ ∀ c ∈ cs, isBlank c = true := by
  rw [trim, trimEnd_eq, List.rdropWhile_eq_nil_iff]
  constructor
  · intro h c hc
    rw [← List.takeWhile_append_dropWhile (p := isBlank) (l := cs)] at hc
    rcases List.mem_append.mp hc with hc | hc
    · exact List.mem_takeWhile_imp hc
    · exact h c hc
  · intro h c hc
    exact h c ((List.dropWhile_suffix isBlank).subset hc)

theorem length_trim_le (cs : List Char) : (trim cs).length ≤ cs.length :=
  (List.rdropWhile_prefix isBlank _).length_le.trans (List.dropWhile_suffix isBlank).length_le

theorem Trimmed.exists_visible (h : Trimmed cs) (hne : cs ≠ []) :
    ∃ c ∈ cs, isBlank c = false := by
  obtain ⟨c, cs, rfl⟩ := List.exists_cons_of_ne_nil hne
  exact ⟨c, List.mem_cons_self, h.head c rfl⟩

theorem trim_ne_nil {c : Char} (hc : c ∈ cs) (hvisible : isBlank c = false) : trim cs ≠ [] := by
  intro h
  rw [trim_eq_nil_iff.mp h c hc] at hvisible
  cases hvisible

/-! A part of a trimmed text that reaches to one of its ends is not blank. -/

theorem Trimmed.trim_left_ne_nil (h : Trimmed (cs ++ ds)) (hne : cs ≠ []) : trim cs ≠ [] := by
  obtain ⟨c, cs, rfl⟩ := List.exists_cons_of_ne_nil hne
  exact trim_ne_nil List.mem_cons_self (h.head c rfl)

theorem Trimmed.trim_right_ne_nil (h : Trimmed (cs ++ ds)) (hne : ds ≠ []) : trim ds ≠ [] := by
  have hlast := List.getLast?_eq_some_getLast hne
  apply trim_ne_nil (List.getLast_mem hne)
  apply h.last
  rw [List.getLast?_append, hlast]
  rfl

/-! ## Letter case -/

theorem sameLetters_iff : sameLetters cs ds = true ↔ cs.map Char.toLower = ds.map Char.toLower :=
  beq_iff_eq

theorem length_eq_of_sameLetters (h : sameLetters cs ds = true) : cs.length = ds.length := by
  simpa using congrArg List.length (sameLetters_iff.mp h)

theorem eq_space_of_toLower {c : Char} (h : c.toLower = ' ') : c = ' ' := by
  unfold Char.toLower at h
  split at h
  · next hupper =>
    have hval : c.val + ('a'.val - 'A'.val) = ' '.val := congrArg Char.val h
    obtain ⟨hlow, hhigh⟩ := hupper
    rw [ge_iff_le, UInt32.le_iff_toNat_le] at hlow
    rw [UInt32.le_iff_toNat_le] at hhigh
    have hnat := congrArg UInt32.toNat hval
    rw [UInt32.toNat_add] at hnat
    have hA : 'A'.val.toNat = 65 := rfl
    have hZ : 'Z'.val.toNat = 90 := rfl
    have hshift : ('a'.val - 'A'.val).toNat = 32 := rfl
    have hspace : ' '.val.toNat = 32 := rfl
    omega
  · exact h

/-- A word in any letter case that has a space in front of it. -/
theorem head_of_sameLetters_space (h : sameLetters cs (' ' :: ds) = true) :
    cs.head? = some ' ' := by
  have hmap := congrArg List.head? (sameLetters_iff.mp h)
  cases cs with
  | nil => cases hmap
  | cons c cs =>
    rw [List.head?_cons, eq_space_of_toLower (Option.some.inj hmap)]

/-- A word in any letter case that has a space behind it. -/
theorem last_of_sameLetters_space (h : sameLetters cs (ds ++ [' ']) = true) :
    cs.getLast? = some ' ' := by
  have hmap := congrArg List.reverse (sameLetters_iff.mp h)
  have hreverse : sameLetters cs.reverse (' ' :: ds.reverse) = true := by
    rw [sameLetters_iff, List.map_reverse, hmap]
    simp
  rw [List.getLast?_eq_head?_reverse]
  exact head_of_sameLetters_space hreverse

end Text

/-! ## Commands -/

namespace Command

theorem exists_spelling {line : List Char} {c : Command} (h : ofLine? line = some c) :
    ∃ word ∈ c.spellings, Text.sameLetters line word = true := by
  have hany := List.find?_some h
  exact List.any_eq_true.mp hany

theorem exists_word {line : List Char} (words : List String) {c : Command}
    (hc : c.spellings = words.map String.toList) (h : ofLine? line = some c) :
    ∃ word ∈ words, Text.sameLetters line word.toList = true := by
  obtain ⟨word, hword, hline⟩ := exists_spelling h
  rw [hc] at hword
  obtain ⟨w, hw, rfl⟩ := List.mem_map.mp hword
  exact ⟨w, hw, hline⟩

end Command

/-! ## Requests -/

namespace Request

inductive Asks : List Char → Request → Prop
  | alone {word : List Char} (h : Text.sameLetters word keyword = true) : Asks word ⟨true, []⟩
  | before {word rest : List Char} (h : Text.sameLetters word (keyword ++ [' ']) = true) :
      Asks (word ++ rest) ⟨true, Text.trim rest⟩
  | behind {rest word : List Char} (h : Text.sameLetters word (' ' :: keyword) = true) :
      Asks (rest ++ word) ⟨true, Text.trim rest⟩
  | plain (line : List Char) : Asks line ⟨false, line⟩

theorem asks (line : List Char) : Asks line (ofLine line) := by
  unfold ofLine
  dsimp only
  split_ifs with halone hbefore hbehind
  · exact .alone halone
  · have h : Asks (line.take (keyword.length + 1) ++ line.drop (keyword.length + 1)) _ :=
      .before hbefore
    rwa [List.take_append_drop] at h
  · have h : Asks (line.take (line.length - (keyword.length + 1)) ++
        line.drop (line.length - (keyword.length + 1))) _ := .behind hbehind
    rwa [List.take_append_drop] at h
  · exact .plain line

variable {line : List Char} {request : Request}

theorem Asks.trimmed (h : Asks line request) (hline : Text.Trimmed line) :
    Text.Trimmed request.expression := by
  cases h with
  | alone _ => exact ⟨by simp, by simp⟩
  | before _ => exact Text.trimmed_trim _
  | behind _ => exact Text.trimmed_trim _
  | plain => exact hline

/-- The marker is set off by a space, which does not stand at an end of a trimmed line. -/
theorem Asks.expression_ne_nil (h : Asks line request) (hline : Text.Trimmed line)
    (hne : line ≠ []) (hkeyword : Text.sameLetters line keyword = false) :
    request.expression ≠ [] := by
  cases h with
  | alone h =>
    rw [h] at hkeyword
    cases hkeyword
  | @before word rest h =>
    apply hline.trim_right_ne_nil
    rintro rfl
    rw [List.append_nil] at hline
    cases hline.last ' ' (Text.last_of_sameLetters_space h)
  | @behind rest word h =>
    apply hline.trim_left_ne_nil
    rintro rfl
    cases hline.head ' ' (Text.head_of_sameLetters_space h)
  | plain => exact hne

/-- Only the bare keyword asks for nothing. -/
theorem expression_eq_nil_iff (hline : Text.Trimmed line) (hne : line ≠ []) :
    (ofLine line).expression = [] ↔ Text.sameLetters line keyword = true := by
  constructor
  · intro h
    by_contra hkeyword
    exact (asks line).expression_ne_nil hline hne (Bool.eq_false_iff.mpr hkeyword) h
  · intro h
    simp only [ofLine, h, if_true]

/-- A line that asks for steps is longer than the expression, any other is the expression. -/
theorem Asks.length_lt_or (h : Asks line request) (hne : line ≠ []) :
    request.detailed = true ∧ request.expression.length < line.length ∨
      request = ⟨false, line⟩ := by
  cases h with
  | alone _ => exact .inl ⟨rfl, List.length_pos_iff.mpr hne⟩
  | @before word rest h =>
    have htrim := Text.length_trim_le rest
    have hword : word.length = keyword.length + 1 := Text.length_eq_of_sameLetters h
    refine .inl ⟨rfl, ?_⟩
    simp only [List.length_append]
    omega
  | @behind rest word h =>
    have htrim := Text.length_trim_le rest
    have hword : word.length = keyword.length + 1 := Text.length_eq_of_sameLetters h
    refine .inl ⟨rfl, ?_⟩
    simp only [List.length_append]
    omega
  | plain => exact .inr rfl

end Request

end Calculator
