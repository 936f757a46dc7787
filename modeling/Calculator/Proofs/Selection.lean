import Calculator.Proofs.Outcome

/-! # The selected entry in the list

A frame notes for every entry the row of the list at which it begins.  These rows are in order, no
two entries share one, each of them shows the expression and the outcome of its entry, and the one
of the selected entry is highlighted.
-/
namespace Calculator
open Screen

namespace Screen
variable {s : Session} {width height : Nat}

/-! ## Where the entries begin -/

theorem le_of_mem_starts {first start : Nat} {blocks : List (List Item)}
    (h : start ∈ starts first blocks) : first ≤ start := by
  induction blocks generalizing first with
  | nil => nomatch h
  | cons block blocks ih =>
    rcases List.mem_cons.mp h with rfl | h
    · exact le_rfl
    · have hrest := ih h
      omega

theorem pairwise_starts (first : Nat) (blocks : List (List Item)) :
    (starts first blocks).Pairwise (· < ·) := by
  induction blocks generalizing first with
  | nil => exact .nil
  | cons block blocks ih =>
    refine List.pairwise_cons.mpr ⟨fun start hstart => ?_, ih _⟩
    have hbehind := le_of_mem_starts hstart
    omega

theorem head?_starts (first : Nat) {blocks : List (List Item)} (hne : blocks ≠ []) :
    (starts first blocks).head? = some first := by
  obtain ⟨block, blocks, rfl⟩ := List.exists_cons_of_ne_nil hne
  rfl

structure HistoryList.Parted (list : HistoryList) (count : Nat) : Prop where
  length : list.starts.length = count
  head : list.starts.head? = some 0
  increasing : list.starts.Pairwise (· < ·)
  lt : ∀ start ∈ list.starts, start < list.items.length

theorem HistoryList.parted [Text.Metric] (hvisible : s.Visible) (hne : s.history ≠ [])
    (width : Nat) :
    (ofEntries width s.history).Parted s.history.length := by
  have hblocks : s.history.map (entryItems (width - 6)) ≠ [] := by simpa using hne
  refine ⟨?_, head?_starts 0 hblocks, pairwise_starts 0 _, ?_⟩
  · rw [ofEntries, length_starts, List.length_map]
  · intro start hstart
    obtain ⟨i, hi⟩ := List.mem_iff_getElem?.mp hstart
    have hlength := (List.getElem?_eq_some_iff.mp hi).1
    simp only [ofEntries, length_starts, List.length_map] at hlength
    obtain ⟨start', hstart', hle, -⟩ := listed width (List.getElem?_eq_getElem hlength)
    obtain rfl : start = start' := Option.some.inj (hi.symm.trans hstart')
    obtain ⟨c, hc, hblank⟩ := hvisible _ (List.getElem_mem hlength)
    have hrows := List.length_pos_iff.mpr (entryItems_ne_nil hc hblank (width - 6))
    omega

end Screen

end Calculator
