import CodePattern.Proofs.Indented
import CodePattern.Proofs.Nesting
import CodePattern.Proofs.TouchedLines
import Mathlib.Data.List.TakeWhile

/-! How many lines of a file are erroneous. Every line that an error touches counts once. The
lines that can be touched are those of the file and, if the file is empty or ends in a line
feed, the empty one at its end, which is no line of the file. -/

namespace CodePattern

namespace ParseStats

theorem card_lt_iff {numbers : Finset Nat} {n : Nat} (h : numbers ⊆ Finset.Icc 1 n) :
    numbers.card < n ↔ ∃ m, 0 < m ∧ m ≤ n ∧ m ∉ numbers := by
  have hcard : (Finset.Icc 1 n).card = n := Nat.card_Icc 1 n
  constructor
  · intro hlt
    obtain ⟨m, hm, hnot⟩ := Finset.exists_mem_notMem_of_card_lt_card (hlt.trans_eq hcard.symm)
    rw [Finset.mem_Icc] at hm
    exact ⟨m, hm.1, hm.2, hnot⟩
  · rintro ⟨m, hpos, hle, hnot⟩
    have hproper : numbers ⊂ Finset.Icc 1 n :=
      (Finset.ssubset_iff_of_subset h).mpr ⟨m, Finset.mem_Icc.mpr ⟨hpos, hle⟩, hnot⟩
    exact (Finset.card_lt_card hproper).trans_eq hcard

end ParseStats

theorem lastLine_lineFeed (before rest : List Char) :
    lastLine (before ++ '\n' :: rest) = lastLine rest := by
  rw [lastLine, lastLine, List.reverse_append, List.reverse_cons, List.append_assoc,
    List.singleton_append, List.takeWhile_append]
  split
  · next h =>
    rw [(List.takeWhile_prefix _).eq_of_length h]
    simp
  · rfl

theorem lastLine_line {line : List Char} (h : '\n' ∉ line) : lastLine line = line := by
  have hall : ∀ c ∈ line.reverse, decide (c ≠ '\n') = true := by
    intro c hc
    exact decide_eq_true fun he => h (he ▸ List.mem_reverse.mp hc)
  rw [lastLine, List.takeWhile_eq_self_iff.mpr hall, List.reverse_reverse]

/-- The lines of a text, and the empty one after its last line feed, are the lines that its
places lie on. -/
theorem length_lines (text : List Char) :
    (lines text).length + (if lastLine text = [] then 1 else 0) = lineOf text := by
  have hpieced : ∀ {ps : List (List Char)}, Pieced ps →
      ps.length + (if lastLine ps.flatten = [] then 1 else 0) = lineOf ps.flatten := by
    intro ps h
    induction h with
    | nil => rfl
    | last hne hline =>
      simp [lastLine_line hline, hne, lineOf, List.count_eq_zero.mpr hline]
    | @cons line ps hline hps ih =>
      have hflatten : ((line ++ ['\n']) :: ps).flatten = line ++ '\n' :: ps.flatten := by simp
      rw [lineOf] at ih ⊢
      rw [hflatten, lastLine_lineFeed, List.count_append, List.count_cons_self,
        List.count_eq_zero.mpr hline, List.length_cons]
      omega
  rw [lines, List.length_map]
  have h := hpieced (pieces_pieced text)
  rwa [flatten_pieces] at h

theorem length_lines_le (text : List Char) : (lines text).length ≤ width text := by
  have hpieced : ∀ {ps : List (List Char)}, Pieced ps → ps.length ≤ ps.flatten.length := by
    intro ps h
    induction h with
    | nil => exact Nat.le_refl 0
    | last hne hline => simpa [Nat.one_le_iff_ne_zero] using hne
    | cons hline hps ih =>
      simp only [List.flatten_cons, List.length_append, List.length_cons]
      omega
  have h := hpieced (pieces_pieced text)
  rw [flatten_pieces] at h
  rw [lines, List.length_map]
  exact h.trans (length_le_width text)

namespace LineTable

variable {text : List Char} {offset : Nat}

theorem toNat_line (hlines : lineOf text < UInt32.size) (offset : Nat) :
    ((ofText text).position offset).1.toNat = ((ofText text).startsUpTo offset).length :=
  UInt32.toNat_ofNat_of_lt' ((length_startsUpTo_le text offset).trans_lt hlines)

/-- The empty line at the end of a text starts where the text ends. -/
theorem width_le_of_lastLine (hlast : lastLine text = [])
    (h : lineOf text ≤ ((ofText text).startsUpTo offset).length) : width text ≤ offset := by
  have hall : (lineStartsFrom 0 text).takeWhile (· ≤ offset) = lineStartsFrom 0 text := by
    refine (List.takeWhile_sublist _).eq_of_length_le ?_
    simp only [startsUpTo, ofText, List.length_cons, lineOf] at h
    rw [length_lineStartsFrom]
    omega
  have hstart := getLastD_lineStartsFrom 0 text
  rw [columnOf, hlast, width_nil, Nat.add_zero, Nat.zero_add] at hstart
  rcases List.mem_cons.mp (hstart ▸ List.getLastD_mem_cons) with hzero | hmem
  · omega
  · exact of_decide_eq_true (List.takeWhile_eq_self_iff.mp hall _ hmem)

end LineTable

/-- What a dialect rejects are nodes of the tree. -/
def Grammar.RejectsNodes (g : Grammar) (lang : Language) : Prop :=
  ∀ ast, ∀ e ∈ g.dialectErrors lang ast, ∃ n ∈ ast.nodes, e.span = n.span

theorem Grammar.rejectsNodes_ofFamily (family : Family)
    (parser : List Char → Except ParseFailure (Rose GrammarNode)) (lang : Language) :
    (Grammar.ofFamily family parser).RejectsNodes lang := by
  intro ast e he
  cases family with
  | php => exact absurd he List.not_mem_nil
  | python =>
    obtain ⟨n, hn, rfl⟩ := List.mem_map.mp he
    exact ⟨n, (List.mem_filter.mp hn).1, rfl⟩

namespace Target

variable {g : Grammar} {lang : Language} {path : Path} {content : List Char} {t : Target}

theorem parse_eq_ok (h : parse g lang path content = .ok t) :
    ∃ tree, g.parse content = .ok tree ∧
      let c := Conversion.of g.family .target content content (.identity (width content))
      let errors := (c.run tree).errors ++ g.dialectErrors lang (c.run tree).ast
      t = ⟨lang, path.shown, (c.run tree).ast, errors,
        .ofErrors (lines content).length.toUInt32 errors⟩ := by
  rw [parse] at h
  split at h
  · cases h
  · next tree htree => exact ⟨tree, htree, (Except.ok.inj h).symm⟩

theorem stats_of_parse (h : parse g lang path content = .ok t) :
    ∃ total, t.stats = .ofErrors total t.errors := by
  obtain ⟨tree, -, rfl⟩ := parse_eq_ok h
  exact ⟨_, rfl⟩

theorem exists_span_of_mem_errors (hrejected : g.RejectsNodes lang)
    (h : parse g lang path content = .ok t) {e : SyntaxError} (he : e ∈ t.errors) :
    ∃ start stop, stop ≤ width content ∧
      e.span = (LineTable.ofText content).span start stop := by
  obtain ⟨tree, -, rfl⟩ := parse_eq_ok h
  let c := Conversion.of g.family .target content content (.identity (width content))
  have hnode : ∃ n, e.span = c.span n := by
    rcases List.mem_append.mp he with he | he
    · obtain ⟨n, -, hn⟩ := Conversion.exists_node_of_mem_errors he
      exact ⟨n, hn⟩
    · obtain ⟨a, ha, hspan⟩ := hrejected _ e he
      obtain ⟨k, rfl, -⟩ := Conversion.exists_kept_of_mem_nodes ha
      exact ⟨k.node, hspan⟩
  obtain ⟨n, hn⟩ := hnode
  have hlocate : ∀ offset, c.map.locate offset ≤ width content := fun _ => Nat.min_le_right _ _
  exact ⟨_, _, Nat.max_le.mpr ⟨hlocate n.stop, hlocate n.start⟩, hn⟩

theorem touched_subset (hrejected : g.RejectsNodes lang)
    (h : parse g lang path content = .ok t) (hlines : lineOf content < UInt32.size) :
    ParseStats.touched t.errors ⊆ Finset.Icc 1 (lineOf content) := by
  intro n hn
  obtain ⟨e, he, hfirst, hlast⟩ := ParseStats.mem_touched.mp hn
  obtain ⟨start, stop, -, hspan⟩ := exists_span_of_mem_errors hrejected h he
  have hstart : e.span.startLine.toNat =
      ((LineTable.ofText content).startsUpTo start).length := by
    rw [hspan]
    exact LineTable.toNat_line hlines start
  have hstop : e.span.endLine.toNat = ((LineTable.ofText content).startsUpTo stop).length := by
    rw [hspan]
    exact LineTable.toNat_line hlines stop
  have hpos : 0 < ((LineTable.ofText content).startsUpTo start).length := Nat.succ_pos _
  have hle := length_startsUpTo_le content stop
  rw [Finset.mem_Icc]
  omega

/-- An error that touches the empty line at the end of a file ends where the file ends. -/
theorem endByte_of_touched (hrejected : g.RejectsNodes lang)
    (h : parse g lang path content = .ok t) (hempty : lastLine content = [])
    (htouched : lineOf content ∈ ParseStats.touched t.errors) :
    ∃ e ∈ t.errors, e.span.endByte = width content := by
  obtain ⟨e, he, -, hlast⟩ := ParseStats.mem_touched.mp htouched
  obtain ⟨start, stop, hstop, hspan⟩ := exists_span_of_mem_errors hrejected h he
  have hlines : lineOf content < UInt32.size := ParseStats.lt_size_of_mem_touched htouched
  have hline : e.span.endLine.toNat = ((LineTable.ofText content).startsUpTo stop).length := by
    rw [hspan]
    exact LineTable.toNat_line hlines stop
  have hwidth : width content ≤ stop := LineTable.width_le_of_lastLine hempty (by omega)
  refine ⟨e, he, ?_⟩
  rw [hspan]
  exact Nat.le_antisymm hstop hwidth

theorem toNat_totalLines (hsize : width content < UInt32.size)
    (h : parse g lang path content = .ok t) :
    t.stats.totalLines.toNat = (lines content).length := by
  obtain ⟨tree, -, rfl⟩ := parse_eq_ok h
  exact UInt32.toNat_ofNat_of_lt' ((length_lines_le content).trans_lt hsize)

theorem toNat_errorLines (hrejected : g.RejectsNodes lang)
    (h : parse g lang path content = .ok t) (hlines : lineOf content < UInt32.size) :
    t.stats.errorLines.toNat = (ParseStats.touched t.errors).card := by
  have hcard := Finset.card_le_card (touched_subset hrejected h hlines)
  rw [Nat.card_Icc, Nat.add_sub_cancel] at hcard
  obtain ⟨total, hstats⟩ := stats_of_parse h
  rw [hstats]
  exact ParseStats.errorLines_ofErrors total (hcard.trans_lt hlines)

/-- There are more erroneous lines than lines, by one, only if the file is empty or ends in a
line feed and errors touch every line and the empty one at its end. So one of them ends where
the file ends. -/
theorem errorLines_le_totalLines_iff (hsize : width content < UInt32.size)
    (hrejected : g.RejectsNodes lang) (h : parse g lang path content = .ok t) :
    (t.stats.errorLines ≤ t.stats.totalLines ↔ lastLine content ≠ [] ∨
      ∃ n, 0 < n ∧ n ≤ lineOf content ∧ n ∉ ParseStats.touched t.errors) ∧
    t.stats.errorLines.toNat ≤ t.stats.totalLines.toNat + 1 ∧
    ((∀ e ∈ t.errors, e.span.endByte ≠ width content) →
      t.stats.errorLines ≤ t.stats.totalLines) := by
  have hcount := length_lines content
  have hlast : lineOf content ∉ ParseStats.touched t.errors →
      ∃ n, 0 < n ∧ n ≤ lineOf content ∧ n ∉ ParseStats.touched t.errors :=
    fun hnot => ⟨_, Nat.le_add_right 1 _, Nat.le_refl _, hnot⟩
  have hcompare : (t.stats.errorLines ≤ t.stats.totalLines ↔ lastLine content ≠ [] ∨
      ∃ n, 0 < n ∧ n ≤ lineOf content ∧ n ∉ ParseStats.touched t.errors) ∧
      t.stats.errorLines.toNat ≤ t.stats.totalLines.toNat + 1 := by
    rw [UInt32.le_iff_toNat_le, toNat_totalLines hsize h]
    by_cases hlines : lineOf content < UInt32.size
    · have hsub := touched_subset hrejected h hlines
      have hcard := Finset.card_le_card hsub
      rw [Nat.card_Icc, Nat.add_sub_cancel] at hcard
      rw [toNat_errorLines hrejected h hlines, ← ParseStats.card_lt_iff hsub]
      by_cases hempty : lastLine content = []
      · simp only [hempty, if_true, ne_eq, not_true_eq_false, false_or] at hcount ⊢
        omega
      · simp only [hempty, if_false, ne_eq, not_false_eq_true, true_or, iff_true] at hcount ⊢
        omega
    · -- A file of line feeds alone, whose last line is beyond 32 bits.
      have htext := length_lines_le content
      have herror : t.stats.errorLines.toNat < UInt32.size := t.stats.errorLines.toNat_lt
      have hfree := hlast fun htouched => hlines (ParseStats.lt_size_of_mem_touched htouched)
      simp only [hfree, or_true, iff_true]
      split at hcount <;> omega
  refine ⟨hcompare.1, hcompare.2, fun hends => hcompare.1.mpr ?_⟩
  by_cases hempty : lastLine content = []
  · refine .inr (hlast fun htouched => ?_)
    obtain ⟨e, he, hend⟩ := endByte_of_touched hrejected h hempty htouched
    exact hends e he hend
  · exact .inl hempty

/-- A quotation mark that opens a string, and all that follows it. -/
def unterminated (stop : Nat) : Rose GrammarNode :=
  .node ⟨"program", true, false, false, 0, stop, none⟩
    [.node ⟨"php_tag", true, false, false, 0, 5, none⟩ [],
      .node ⟨"ERROR", true, true, false, 6, stop, none⟩
        [.node ⟨"'", false, false, false, 6, 7, none⟩ []]]

def parseUnterminated (source : List Char) : Except ParseFailure (Rose GrammarNode) :=
  .ok (unterminated (width source))

theorem errorLines_of_no_lineFeed :
    let content := "<?php 'unterminated\n$x;".toList
    let g := Grammar.ofFamily .php parseUnterminated
    width content < UInt32.size ∧
    g.RejectsNodes .php ∧
    ∃ t, parse g .php "src/x.php" content = .ok t ∧ t.errors.length = 1 ∧
      t.stats.errorLines ≤ t.stats.totalLines := by
  intro content g
  have hsize : width content < UInt32.size := by decide
  have hrejected : g.RejectsNodes .php := Grammar.rejectsNodes_ofFamily .php parseUnterminated .php
  have hparse : ∃ t, parse g .php "src/x.php" content = .ok t ∧ t.errors.length = 1 :=
    ⟨_, rfl, rfl⟩
  obtain ⟨t, ht, herrors⟩ := hparse
  obtain ⟨hiff, -, -⟩ := errorLines_le_totalLines_iff hsize hrejected ht
  exact ⟨hsize, hrejected, t, ht, herrors, hiff.mpr (.inl (by decide))⟩

/-- A line feed at the end counts as one more erroneous line, but not as one more line. -/
theorem errorLines_of_lineFeed :
    let content := "<?php 'unterminated\n$x;\n".toList
    (∀ n ∈ (unterminated (width content)).preorder, n.start ≤ n.stop ∧ n.stop ≤ width content) ∧
    ∃ t, parse (.ofFamily .php parseUnterminated) .php "src/x.php" content = .ok t ∧
      t.stats.totalLines = 2 ∧ t.stats.errorLines = 3 := by
  intro content
  have hrejected := Grammar.rejectsNodes_ofFamily .php parseUnterminated .php
  have hparse : ∃ t, parse (.ofFamily .php parseUnterminated) .php "src/x.php" content = .ok t ∧
      t.stats.totalLines = 2 ∧ ParseStats.touched t.errors = {1, 2, 3} :=
    ⟨_, rfl, rfl, by decide⟩
  obtain ⟨t, ht, htotal, htouched⟩ := hparse
  have herror := toNat_errorLines hrejected ht (by decide)
  rw [htouched] at herror
  exact ⟨by decide, t, ht, htotal, UInt32.toNat_inj.mp herror⟩

end Target

end CodePattern
