import Calculator.Proofs.Drawing
import Calculator.Proofs.Highlight
import Calculator.Proofs.Window

/-! # Results on the screen

A result stands behind the first line of the echoed expression.  That line leaves at least four
columns of the box, and what has no room there of the result is not shown.
-/
namespace Calculator
open Screen

namespace Number

theorem ascii_of_isDigit {c : Char} (h : c.isDigit = true) : c.toNat < 128 :=
  ascii_of_isAlphanum (by simp [Char.isAlphanum, h])

theorem ascii_numeral (n : Nat) : ∀ c ∈ numeral n, c.toNat < 128 :=
  fun _ hc => ascii_of_isDigit (isDigit_of_mem_numeral hc)

theorem ascii_positional (n p : Nat) : ∀ c ∈ positional n p, c.toNat < 128 := by
  intro c hc
  have hliteral := (positional_spec n p).1
  rw [isLiteral, Bool.and_eq_true, Bool.and_eq_true, List.all_eq_true] at hliteral
  exact ascii_of_isLiteralChar (hliteral.1.1 c hc)

theorem ascii_signText (s : Float.Model.UnpackedFloat.Sign) :
    ∀ c ∈ signText s, c.toNat < 128 := by
  cases s <;> simp [signText]

theorem ascii_scientific (r : Fraction) : ∀ c ∈ scientific r, c.toNat < 128 := by
  have hparts (n m : Nat) (k : Int) :
      ∀ c ∈ numeral n ++ '.' :: padded 6 m ++ 'e' :: intNumeral k, c.toNat < 128 := by
    have hplaces : ∀ c ∈ padded 6 m, c.toNat < 128 :=
      fun _ hc => ascii_of_isDigit (isDigit_of_mem_padded hc)
    have hexponent : ∀ c ∈ intNumeral k, c.toNat < 128 := by
      unfold intNumeral
      split_ifs
      · exact List.forall_mem_cons.mpr ⟨by decide, ascii_numeral _⟩
      · exact ascii_numeral _
    refine List.forall_mem_append.mpr ⟨List.forall_mem_append.mpr ⟨ascii_numeral n, ?_⟩, ?_⟩
    · exact List.forall_mem_cons.mpr ⟨by decide, hplaces⟩
    · exact List.forall_mem_cons.mpr ⟨by decide, hexponent⟩
  exact hparts _ _ _

theorem ascii_text (x : Float) : ∀ c ∈ text x, c.toNat < 128 := by
  unfold text
  split
  · simp
  · exact List.forall_mem_append.mpr ⟨ascii_signText _, by simp⟩
  · exact List.forall_mem_append.mpr ⟨ascii_signText _, by simp⟩
  · exact List.forall_mem_append.mpr ⟨ascii_signText _, ascii_positional _ _⟩

theorem ascii_display (x : Float) : ∀ c ∈ display x, c.toNat < 128 := by
  unfold display
  split
  · apply List.forall_mem_append.mpr ⟨ascii_signText _, ?_⟩
    split_ifs
    · exact ascii_scientific _
    · exact ascii_positional _ _
  · simp
  · exact ascii_text x

end Number

namespace Screen
variable [Text.Metric]

def leadTexts (first : List Char) : List (List Char) :=
  "> ".toList :: (Highlight.spans first).map (·.text)

omit [Text.Metric] in
theorem flatten_leadTexts (first : List Char) :
    (leadTexts first).flatten = "> ".toList ++ first :=
  congrArg ("> ".toList ++ ·) (Highlight.flatMap_text_spans first)

theorem width_leadTexts (first : List Char) :
    Text.width (leadTexts first).flatten = 2 + Text.width first := by
  have hmark : Text.width "> ".toList = 2 := Text.width_ascii (by simp)
  rw [flatten_leadTexts, Text.width_append, hmark]

theorem exists_firstRow {entry : Entry} (hvisible : ∃ c ∈ entry.input, Text.isBlank c = false)
    (limit : Nat) :
    ∃ first others, Wrap.lines limit (Echo.format entry.input) = first :: others ∧
      (entryItems limit entry)[0]? =
        some (leadTexts first ++ [" = ".toList, outcomeText entry.outcome]) := by
  obtain ⟨c, hc, hvisible⟩ := hvisible
  have hlines := Wrap.lines_ne_nil (Echo.mem_format hc hvisible) hvisible limit
  obtain ⟨first, others, hlines⟩ := List.exists_cons_of_ne_nil hlines
  refine ⟨first, others, hlines, ?_⟩
  simp only [entryItems, echoItems, hlines]
  rfl

/-- Lines of two columns or more are never too narrow for a character. -/
theorem width_le_of_mem_lines {limit : Nat} (hlimit : 2 ≤ limit) {text line : List Char}
    (hline : line ∈ Wrap.lines limit text) : Text.width line ≤ limit := by
  have hstands := Wrap.stands_lines (Nat.le_of_lt hlimit) text line hline
  rcases hstands.narrow with hnarrow | ⟨c, -, hwide⟩
  · exact hnarrow
  · have htwo := Text.columns_le_two c
    omega

/-- The first row of an entry with a value: the value is cut at the border of the box. -/
theorem holds_firstRow {width : Nat} {first : List Char} (hroom : Text.width first + 8 ≤ width)
    (x : Float) :
    let row := bordered '│' '│' width
      (drawAll (width - 2) (leadTexts first ++ [" = ".toList, Number.display x]))
    let result := " = ".toList ++ Number.display x
    let room := width - 4 - Text.width first
    row.Holds (3 + Text.width first) (result.take room) ∧
      (row.Holds (3 + Text.width first) result ↔ result.length ≤ room) := by
  intro row result room
  have hlead : (drawAll (width - 2) (leadTexts first)).length = 2 + Text.width first := by
    rw [length_drawAll (by rw [width_leadTexts]; omega), width_leadTexts]
  have hequals : ∀ c ∈ " = ".toList, c.toNat < 128 := by simp
  have hresult : ∀ c ∈ result, c.toNat < 128 :=
    List.forall_mem_append.mpr ⟨hequals, Number.ascii_display x⟩
  have htexts : ∀ cs ∈ [" = ".toList, Number.display x], ∀ c ∈ cs, c.toNat < 128 :=
    List.forall_mem_cons.mpr ⟨hequals, List.forall_mem_singleton.mpr (Number.ascii_display x)⟩
  have hflatten : [" = ".toList, Number.display x].flatten = result := by
    rw [List.flatten_cons, List.flatten_singleton]
  have hcolumn : 1 + (drawAll (width - 2) (leadTexts first)).length = 3 + Text.width first := by
    omega
  have hwidth : width - 2 - (drawAll (width - 2) (leadTexts first)).length = room := by
    omega
  have hborder : (drawAll (width - 2) (leadTexts first)).length + 2 ≤ width := by
    omega
  have hdrawn := holds_bordered hborder hresult
  have hrow : row = bordered '│' '│' width
      (drawAll (width - 2) (leadTexts first) ++ plain (result.take room)) := by
    rw [← hwidth, ← hflatten, ← drawAll_ascii htexts, ← drawAll_append]
  rw [hcolumn, hwidth] at hdrawn
  rw [hrow]
  exact hdrawn

end Screen

def longSum : List Action := Action.typing "10+1+1+1+1+1+1+1+1+1+1".toList ++ [.press .enter]

/-- Where the first row of an entry with a value is on the screen, the result stands on it behind
the first line of the expression, cut at the border of the box: at least one character of the value
is shown, and all of it if and only if the result has room behind the line. -/
theorem result_shown_iff [Text.Metric] (config : Config) (actions : List Action)
    (clock : Nat → Nat) :
    let s := (Session.acts { config } actions).timed clock
    s.helpShown = false →
    ∀ width height, minWidth ≤ width → minHeight ≤ height →
      let part := shownPart s (width - 2) (height - 6)
      ∀ (i : Nat) (entry : Entry) (x : Float) (start : Nat),
        s.history[i]? = some entry → entry.outcome = .value x →
        (HistoryList.ofEntries (width - 2) s.history).starts[i]? = some start →
        part.1 ≤ start → start < part.2 →
        ∃ first others row,
          Wrap.lines (width - 8) (Echo.format entry.input) = first :: others ∧
          (drawSession s width height).2.rows[5 + (start - part.1)]? = some row ∧
          let result := " = ".toList ++ Number.display x
          let room := width - 4 - Text.width first
          4 ≤ room ∧ row.Holds (3 + Text.width first) (result.take room) ∧
            (row.Holds (3 + Text.width first) result ↔ result.length ≤ room) := by
  intro s hmain width height hwidth hheight part i entry x start hentry hvalue hstart hfirst hlast
  have hlarge : 50 ≤ width := hwidth
  have hvisible : s.Visible := Session.visible_reached config actions clock
  have hselected : s.selected < s.history.length :=
    Session.selected_lt_reached config actions clock
      (List.ne_nil_of_mem (List.mem_of_getElem? hentry))
  obtain ⟨_, hselects⟩ := hvisible.exists_selects hselected (width - 2)
  have hshows := hselects.showsAt hmain hwidth hheight hfirst hlast
  obtain ⟨first, others, hlines, hitem⟩ :=
    exists_firstRow (hvisible entry (List.mem_of_getElem? hentry)) (width - 8)
  obtain ⟨start', hstart', -, hitems, -⟩ := HistoryList.listed (width - 2) hentry
  obtain rfl : start = start' := Option.some.inj (hstart.symm.trans hstart')
  have hnarrow : Text.width first ≤ width - 8 :=
    width_le_of_mem_lines (by omega) (hlines ▸ List.mem_cons_self)
  have hrow := hshows.drawn _ (hitems 0 _ hitem)
  rw [hvalue] at hrow
  refine ⟨first, others, _, hlines, hrow, ?_⟩
  intro result room
  exact ⟨by omega, holds_firstRow (by omega) x⟩

/-- On 51 columns the result of the sum has just the room that it takes. -/
theorem longSum_shown :
    let s := (Session.acts {} longSum).timed (fun _ => 0)
    s.helpShown = false ∧ minWidth ≤ 51 ∧ minHeight ≤ 10 ∧
      ∃ entry x row, s.history[0]? = some entry ∧ entry.outcome = .value x ∧
        (HistoryList.ofEntries 49 s.history).starts[0]? = some 0 ∧ shownPart s 49 4 = (0, 1) ∧
        Number.display x = "20".toList ∧
        (drawSession s 51 10).2.rows[5]? = some row ∧ row.Holds 45 " = 20".toList := by
  have hmain : ((Session.acts {} longSum).timed fun _ => 0).helpShown = false := by
    decide +kernel
  have hstart : (HistoryList.ofEntries (51 - 2)
      ((Session.acts {} longSum).timed fun _ => 0).history).starts[0]? = some 0 := by
    decide +kernel
  have hpart : shownPart ((Session.acts {} longSum).timed fun _ => 0) (51 - 2) (10 - 6) =
      (0, 1) := by
    decide +kernel
  have hentries : ((Session.acts {} longSum).timed fun _ => 0).history.map (fun entry =>
      (entry.input, match entry.outcome with
        | .value x => Number.display x
        | _ => [])) = [("10+1+1+1+1+1+1+1+1+1+1".toList, "20".toList)] := by
    decide +kernel
  have hshown := result_shown_iff {} longSum (fun _ => 0) hmain 51 10 (by decide) (by decide) 0
  generalize (Session.acts {} longSum).timed (fun _ => 0) = s at *
  obtain ⟨entry, hhistory, hentry⟩ := List.map_eq_singleton_iff.mp hentries
  obtain ⟨hinput, houtcome⟩ := Prod.mk.inj hentry
  have hentry : s.history[0]? = some entry := by rw [hhistory]; rfl
  obtain ⟨x, hvalue, hdisplay⟩ :
      ∃ x, entry.outcome = .value x ∧ Number.display x = "20".toList := by
    cases hresult : entry.outcome with
    | value x =>
      rw [hresult] at houtcome
      exact ⟨x, rfl, houtcome⟩
    | _ =>
      rw [hresult] at houtcome
      nomatch houtcome
  obtain ⟨first, others, row, hlines, hrow, -, -, hwhole⟩ :=
    hshown entry x 0 hentry hvalue hstart (by rw [hpart]) (by rw [hpart]; decide)
  have hline : Wrap.lines 43 (Echo.format "10+1+1+1+1+1+1+1+1+1+1".toList) =
      ["10 + 1 + 1 + 1 + 1 + 1 + 1 + 1 + 1 + 1 + 1".toList] := by decide +kernel
  rw [hinput] at hlines
  obtain ⟨rfl, -⟩ := List.cons.inj (hline.symm.trans hlines)
  rw [hdisplay] at hwhole
  rw [hpart] at hrow
  exact ⟨hmain, by decide, by decide, entry, x, row, hentry, hvalue, hstart, hpart,
    hdisplay, hrow, hwhole.mpr (by decide)⟩

/-- On fifty columns only the first digit of the result is left, which is another number. -/
theorem longSum_cut :
    let s := Session.acts {} longSum
    s.helpShown = false ∧
      s.history.map (fun entry => outcomeText entry.outcome) = ["20".toList] ∧
      (HistoryList.ofEntries 48 s.history).starts = [0] ∧ (shownPart s 48 4).1 = 0 ∧
      (drawSession s 50 10).2.rows[5]? =
        some (plain "│> 10 + 1 + 1 + 1 + 1 + 1 + 1 + 1 + 1 + 1 + 1 = 2│".toList) ∧
      ∀ column, ¬ (plain "│> 10 + 1 + 1 + 1 + 1 + 1 + 1 + 1 + 1 + 1 + 1 = 2│".toList).Holds
        column " = 20".toList := by
  refine ⟨by decide +kernel, by decide +kernel, by decide +kernel, by decide +kernel,
    by decide +kernel, ?_⟩
  have hnowhere : ∀ column < 50,
      ¬ (plain "│> 10 + 1 + 1 + 1 + 1 + 1 + 1 + 1 + 1 + 1 + 1 = 2│".toList).Holds column
        " = 20".toList := by
    decide +kernel
  intro column hholds
  rcases Nat.lt_or_ge column 50 with hlt | hge
  · exact hnowhere column hlt hholds
  · rw [Row.Holds, List.drop_eq_nil_of_le hge] at hholds
    exact absurd hholds (by decide)

end Calculator
