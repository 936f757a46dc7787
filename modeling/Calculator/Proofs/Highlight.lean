import Calculator.Highlight
import Calculator.Proofs.Echo
import Calculator.Proofs.Joining

/-! # Highlighted lines

A line is coloured in the pieces into which it is cut when it is read.  So each token has one part
of the line, which is coloured by the kind of the token.
-/
namespace Calculator
open Number

namespace Highlight

def Span.isBlank (s : Span) : Bool := s.text.all Text.isBlank

def ofLexeme : Lexeme → Span
  | .blank c | .mark c | .stray c => single c
  | .digits cs => Run.number.span cs
  | .word cs => Run.word.span cs

/-- The role of a part is that of the token that is read from it; what has none is shown in the
style of the line. -/
structure Presents (s : Span) (t : Token) : Prop where
  function : s.role = .function ↔ ∃ f : Function, t = .name f.name
  number : s.role = .number ↔ ∃ x, t = .number x
  operator : s.role = .operator ↔ ∃ op : Operator, t = op.token
  otherwise : s.role ≠ .function → s.role ≠ .number → s.role ≠ .operator →
    ∀ base, s.role.style base = base

/-! ## Two ways to cut -/

theorem parts_none (c : Char) (cs : List Char) :
    parts none (c :: cs) =
      match Run.start? c with
      | some run => parts (some (run, [c])) cs
      | none => single c :: parts none cs := rfl

/-- A part grows as long as it can. -/
theorem parts_some (run : Run) (seen cs : List Char) :
    parts (some (run, seen)) cs =
      run.span (seen.reverse ++ cs.takeWhile run.extends) ::
        parts none (cs.dropWhile run.extends) := by
  induction cs generalizing seen with
  | nil =>
    rw [List.takeWhile_nil, List.append_nil]
    rfl
  | cons c cs ih =>
    cases hc : run.extends c with
    | true =>
      have hgrown : parts (some (run, seen)) (c :: cs) = parts (some (run, c :: seen)) cs :=
        if_pos hc
      rw [hgrown, ih, List.takeWhile_cons_of_pos hc, List.dropWhile_cons_of_pos hc,
        List.reverse_cons, List.append_assoc, List.singleton_append]
    | false =>
      have hclosed : parts (some (run, seen)) (c :: cs) =
          run.span seen.reverse :: parts none (c :: cs) := if_neg (by simp [hc])
      rw [hclosed, List.takeWhile_cons_of_neg (by simp [hc]),
        List.dropWhile_cons_of_neg (by simp [hc]), List.append_nil]

/-- Highlighting and reading cut off the same piece. -/
theorem parts_next (c : Char) (cs : List Char) :
    parts none (c :: cs) = ofLexeme (Lexeme.next c cs).1 :: parts none (Lexeme.next c cs).2 := by
  have hsingle (halpha : c.isAlpha = false) (hliteral : isLiteralChar c = false) :
      parts none (c :: cs) = single c :: parts none cs := by
    rw [parts_none, Run.start?, halpha, hliteral]
    rfl
  have hplain (h : Text.isBlank c = true ∨ Lexeme.isMark c = true) :
      c.isAlpha = false ∧ isLiteralChar c = false := by
    constructor
    · by_contra halpha
      have hclasses := classes_of_isAlphanum (c := c) (by simp [Char.isAlphanum, halpha])
      simp_all
    · by_contra hliteral
      have hclasses := classes_of_isLiteralChar (Bool.eq_true_of_not_eq_false hliteral)
      simp_all
  unfold Lexeme.next
  split_ifs with hblank hmark hliteral halpha
  · exact hsingle (hplain (.inl hblank)).1 (hplain (.inl hblank)).2
  · exact hsingle (hplain (.inr hmark)).1 (hplain (.inr hmark)).2
  · have hstart : Run.start? c = some .number := by
      rw [Run.start?, (classes_of_isLiteralChar hliteral).2.2, hliteral]
      rfl
    rw [parts_none, hstart]
    exact parts_some .number [c] cs
  · have hstart : Run.start? c = some .word := if_pos halpha
    rw [parts_none, hstart]
    exact parts_some .word [c] cs
  · exact hsingle (Bool.eq_false_iff.mpr halpha) (Bool.eq_false_iff.mpr hliteral)

theorem spans_eq (line : List Char) : spans line = (Lexeme.cut line).map ofLexeme := by
  unfold spans
  induction line using Lexeme.cut.induct with
  | case1 =>
    rw [Lexeme.cut]
    rfl
  | case2 c cs ih => rw [parts_next, ih, Lexeme.cut, List.map_cons]

/-! ## Roles -/

theorem text_ofLexeme (l : Lexeme) : (ofLexeme l).text = l.text := by
  cases l <;> rfl

theorem flatMap_text_spans (line : List Char) : (spans line).flatMap Span.text = line := by
  rw [spans_eq, List.flatMap_map]
  simp only [text_ofLexeme]
  exact Lexeme.flatMap_cut line

end Highlight

open Highlight

end Calculator
