import CodePattern.Target
import Mathlib.Data.List.Destutter
import Mathlib.Data.List.Sort
import Mathlib.Data.Set.Card
import Mathlib.Order.Interval.Finset.Nat

/-! The lines that errors touch. An error touches the lines from its first to its last, none if it
ends before it begins, and a line that several errors touch counts once. So only which errors there
are decides the count, and not their order or how often each one is told. -/

namespace CodePattern

namespace ParseStats

theorem mem_linesOf {span : Span} {n : Nat} :
    n ∈ linesOf span ↔ span.startLine.toNat ≤ n ∧ n ≤ span.endLine.toNat := by
  rw [linesOf, List.mem_range'_1]
  omega

theorem foldl_countNew (numbers : List Nat) (last count : Nat) :
    (numbers.foldl countNew (some last, count)).2 + 1 =
      count + (numbers.destutter' (· ≠ ·) last).length := by
  induction numbers generalizing last count with
  | nil => rfl
  | cons n numbers ih =>
    rw [List.foldl_cons, countNew]
    by_cases hn : last = n
    · rw [if_pos (by rw [hn]), List.destutter'_cons_neg _ (by simp [hn])]
      exact ih last count
    · rw [if_neg (by simpa using hn), List.destutter'_cons_pos _ hn, List.length_cons, ih]
      omega

theorem countDistinct_eq (numbers : List Nat) :
    countDistinct numbers = numbers.toFinset.card := by
  let sorted := numbers.mergeSort (· ≤ ·)
  have hsorted : sorted.Pairwise (· ≤ ·) := List.pairwise_mergeSort' (· ≤ ·) numbers
  have hcount : ∀ ns : List Nat,
      (ns.foldl countNew (none, 0)).2 = (ns.destutter (· ≠ ·)).length := by
    intro ns
    cases ns with
    | nil => rfl
    | cons n ns =>
      have h := foldl_countNew ns n 1
      rw [List.destutter_cons']
      change (ns.foldl countNew (some n, 1)).2 = _
      omega
  -- Equal numbers stand next to each other once they are sorted.
  calc countDistinct numbers = (sorted.destutter (· ≠ ·)).length := hcount sorted
    _ = sorted.dedup.length := by rw [hsorted.destutter_eq_dedup]
    _ = numbers.dedup.length := (List.mergeSort_perm _ _).dedup.length_eq
    _ = numbers.toFinset.card := (List.card_toFinset numbers).symm

/-- The lines from the first to the last of each error. -/
def touched (errors : List SyntaxError) : Finset Nat :=
  (errors.flatMap fun e => linesOf e.span).toFinset

theorem mem_touched {errors : List SyntaxError} {n : Nat} :
    n ∈ touched errors ↔ ∃ e ∈ errors, e.span.startLine.toNat ≤ n ∧ n ≤ e.span.endLine.toNat := by
  simp only [touched, List.mem_toFinset, List.mem_flatMap, mem_linesOf]

theorem mem_touched_iff_span {errors : List SyntaxError} {n : Nat} :
    n ∈ touched errors ↔
      ∃ s ∈ errors.map (·.span), s.startLine.toNat ≤ n ∧ n ≤ s.endLine.toNat := by
  simp only [mem_touched, List.mem_map, exists_exists_and_eq_and]

theorem lt_size_of_mem_touched {errors : List SyntaxError} {n : Nat} (h : n ∈ touched errors) :
    n < UInt32.size := by
  obtain ⟨e, -, -, hlast⟩ := mem_touched.mp h
  exact hlast.trans_lt e.span.endLine.toNat_lt

theorem errorLines_eq (totalLines : UInt32) (errors : List SyntaxError) :
    (ofErrors totalLines errors).errorLines = (touched errors).card.toUInt32 := by
  rw [ofErrors, countDistinct_eq, touched]

theorem errorLines_ofErrors {errors : List SyntaxError} (totalLines : UInt32)
    (h : (touched errors).card < UInt32.size) :
    (ofErrors totalLines errors).errorLines.toNat = (touched errors).card := by
  rw [errorLines_eq]
  exact UInt32.toNat_ofNat_of_lt' h

theorem touched_mono {errors more : List SyntaxError} (h : errors ⊆ more) :
    touched errors ⊆ touched more := by
  intro n hn
  obtain ⟨e, he, hline⟩ := mem_touched.mp hn
  exact mem_touched.mpr ⟨e, h he, hline⟩

theorem touched_subset_range (errors : List SyntaxError) :
    touched errors ⊆ Finset.range UInt32.size :=
  fun _ hn => Finset.mem_range.mpr (lt_size_of_mem_touched hn)

theorem card_touched_lt {errors : List SyntaxError} {line : Nat} (hline : line < UInt32.size)
    (hfree : line ∉ touched errors) : (touched errors).card < UInt32.size := by
  have hproper : touched errors ⊂ Finset.range UInt32.size :=
    (Finset.ssubset_iff_of_subset (touched_subset_range errors)).mpr
      ⟨line, Finset.mem_range.mpr hline, hfree⟩
  exact (Finset.card_lt_card hproper).trans_eq (Finset.card_range _)

/-- If errors touch all line numbers of 32 bits, their count starts anew. -/
theorem errorLines_of_full {errors : List SyntaxError} (total : UInt32)
    (hfull : ∀ line < UInt32.size, line ∈ touched errors) :
    (ofErrors total errors).errorLines = 0 := by
  have hrange : touched errors = Finset.range UInt32.size :=
    (touched_subset_range errors).antisymm fun n hn => hfull n (Finset.mem_range.mp hn)
  rw [errorLines_eq, hrange, Finset.card_range]
  rfl

/-- More errors touch at least as many lines, as long as the count fits in 32 bits. -/
theorem errorLines_mono {errors more : List SyntaxError} (total total' : UInt32)
    (h : errors ⊆ more) (hcard : (touched more).card < UInt32.size) :
    (ofErrors total errors).errorLines ≤ (ofErrors total' more).errorLines := by
  have hle := Finset.card_le_card (touched_mono h)
  rw [UInt32.le_iff_toNat_le, errorLines_ofErrors total (hle.trans_lt hcard),
    errorLines_ofErrors total' hcard]
  exact hle

theorem errorLines_mono_iff {errors more : List SyntaxError} (total total' : UInt32)
    (h : errors ⊆ more) :
    (ofErrors total errors).errorLines ≤ (ofErrors total' more).errorLines ↔
      (∃ line < UInt32.size, line ∉ touched more) ∨ (ofErrors total errors).errorLines = 0 := by
  by_cases hfree : ∃ line < UInt32.size, line ∉ touched more
  · obtain ⟨line, hline, hnot⟩ := hfree
    exact iff_of_true (errorLines_mono total total' h (card_touched_lt hline hnot))
      (.inl ⟨line, hline, hnot⟩)
  · have hfull : ∀ line < UInt32.size, line ∈ touched more := by
      intro line hline
      by_contra hnot
      exact hfree ⟨line, hline, hnot⟩
    rw [errorLines_of_full total' hfull, UInt32.le_zero_iff, or_iff_right hfree]

def touchedLines (errors : List SyntaxError) : Set Nat :=
  {line | ∃ e ∈ errors, e.span.startLine.toNat ≤ line ∧ line ≤ e.span.endLine.toNat}

theorem coe_touched (errors : List SyntaxError) :
    (touched errors : Set Nat) = touchedLines errors := by
  ext line
  exact mem_touched

theorem ncard_touchedLines (errors : List SyntaxError) :
    (touchedLines errors).ncard = (touched errors).card := by
  rw [← coe_touched, Set.ncard_coe_finset]

theorem touched_append (errors others : List SyntaxError) :
    touched (errors ++ others) = touched errors ∪ touched others := by
  rw [touched, List.flatMap_append, List.toFinset_append]
  rfl

/-- Two lists with the same errors in them count alike. -/
theorem ofErrors_congr (total : UInt32) {errors others : List SyntaxError}
    (h : ∀ e, e ∈ errors ↔ e ∈ others) : ofErrors total errors = ofErrors total others := by
  have htouched : touched errors = touched others :=
    (touched_mono fun e he => (h e).mp he).antisymm (touched_mono fun e he => (h e).mpr he)
  rw [touched, touched] at htouched
  rw [ofErrors, ofErrors, countDistinct_eq, countDistinct_eq, htouched]

theorem errorLines_append_le (total : UInt32) {errors others : List SyntaxError}
    (h : (touched (errors ++ others)).card < UInt32.size) :
    (ofErrors total (errors ++ others)).errorLines.toNat ≤
      (ofErrors total errors).errorLines.toNat + (ofErrors total others).errorLines.toNat := by
  have hleft := Finset.card_le_card (touched_mono (List.subset_append_left errors others))
  have hright := Finset.card_le_card (touched_mono (List.subset_append_right errors others))
  rw [errorLines_ofErrors total h, errorLines_ofErrors total (hleft.trans_lt h),
    errorLines_ofErrors total (hright.trans_lt h), touched_append]
  exact Finset.card_union_le _ _

/-- The erroneous lines are the lines that errors touch, each counted once. As long as 32 bits can
count them, more errors do not make them fewer, and errors put together touch no more lines than
the parts do. -/
theorem errorLines_counts_once (total : UInt32) :
    (∀ errors, (touchedLines errors).Finite ∧
      ((touchedLines errors).ncard < UInt32.size →
        (ofErrors total errors).errorLines.toNat = (touchedLines errors).ncard)) ∧
    (∀ errors others, (∀ e, e ∈ errors ↔ e ∈ others) →
      ofErrors total errors = ofErrors total others) ∧
    (∀ errors more, errors ⊆ more → (touchedLines more).ncard < UInt32.size →
      (ofErrors total errors).errorLines ≤ (ofErrors total more).errorLines) ∧
    ∀ errors others, (touchedLines (errors ++ others)).ncard < UInt32.size →
      (ofErrors total errors).errorLines ≤ (ofErrors total (errors ++ others)).errorLines ∧
        (ofErrors total others).errorLines ≤ (ofErrors total (errors ++ others)).errorLines ∧
        (ofErrors total (errors ++ others)).errorLines.toNat ≤
          (ofErrors total errors).errorLines.toNat + (ofErrors total others).errorLines.toNat := by
  simp only [ncard_touchedLines]
  refine ⟨fun errors => ⟨?_, errorLines_ofErrors total⟩, fun _ _ => ofErrors_congr total,
    fun _ _ => errorLines_mono total total, fun errors others h => ⟨?_, ?_, ?_⟩⟩
  · rw [← coe_touched]
    exact Finset.finite_toSet _
  · exact errorLines_mono total total (List.subset_append_left errors others) h
  · exact errorLines_mono total total (List.subset_append_right errors others) h
  · exact errorLines_append_le total h

end ParseStats

end CodePattern
