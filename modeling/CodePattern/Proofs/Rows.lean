import CodePattern.Proofs.EditScript
import CodePattern.Proofs.Indented
import Mathlib.Data.List.Forall2
import Mathlib.Order.Bounds.Defs

/-! What remains of each line without the common indentation. Lines are taken here as the parts
between line feeds, which cut a text in the same places as the lines that are measured and the
pieces that are stripped. Every line that is not blank loses the same number of spaces and tabs,
and so a second removal finds nothing. Whether it loses the same spaces and tabs depends on the
text. -/

namespace CodePattern

/-- The parts of a text between its line feeds. The last may be empty. -/
def rows (text : List Char) : List (List Char) := text.splitOn '\n'

theorem rows_line {line : List Char} (hline : '\n' ∉ line) : rows line = [line] := by
  have h := List.splitOn_intercalate '\n' (List.forall_mem_singleton.mpr hline) (by simp)
  rw [rows]
  simpa using h

theorem rows_lineFeed {line : List Char} (hline : '\n' ∉ line) (rest : List Char) :
    rows (line ++ '\n' :: rest) = line :: rows rest := by
  rw [rows, List.splitOn_eq_splitOnP, rows, List.splitOn_eq_splitOnP]
  refine List.splitOnP_append_cons_of_forall_mem (fun c hc => ?_) '\n' (by simp) rest
  rw [beq_eq_false_iff_ne]
  rintro rfl
  exact hline hc

theorem intercalate_rows (text : List Char) : ['\n'].intercalate (rows text) = text :=
  List.intercalate_splitOn '\n'

theorem rows_intercalate {lines : List (List Char)} (h : ∀ line ∈ lines, '\n' ∉ line)
    (hne : lines ≠ []) : rows (['\n'].intercalate lines) = lines :=
  List.splitOn_intercalate '\n' h hne

theorem not_mem_rows {text line : List Char} (h : line ∈ rows text) : '\n' ∉ line := by
  have hpieced : ∀ ps, Pieced ps → ∀ line ∈ rows ps.flatten, '\n' ∉ line := by
    intro ps hps
    induction hps with
    | nil => simp [rows_line]
    | last _ hline => simpa [rows_line hline] using hline
    | cons hline _ ih =>
      rw [List.flatten_cons, List.append_assoc, List.singleton_append, rows_lineFeed hline]
      exact List.forall_mem_cons.mpr ⟨hline, ih⟩
  exact hpieced (pieces text) (pieces_pieced text) line (by rwa [flatten_pieces])

/-- A line is a piece without its line feed, except that a carriage return goes with it. -/
theorem chomp_lineFeed (line : List Char) :
    chomp (line ++ ['\n']) = line ∨
      ∃ rest, line = rest ++ ['\r'] ∧ chomp (line ++ ['\n']) = rest := by
  cases line using List.reverseRecOn with
  | nil => exact .inl rfl
  | append_singleton rest c =>
    by_cases hc : c = '\r'
    · subst hc
      exact .inr ⟨rest, rfl, by simp [chomp]⟩
    · exact .inl (by simp [chomp, hc])

theorem chomp_line {line : List Char} (hline : '\n' ∉ line) : chomp line = line := by
  rw [chomp, if_neg]
  exact fun h => hline (List.mem_of_getLast? h)

namespace Indentation

variable {text line : List Char} {ps : List (List Char)} {k : Nat} {r : Revision}

theorem leading_concat {c : Char} (hc : isIndent c = false) (line : List Char) :
    leading (line ++ [c]) = leading line := by
  rw [leading, List.takeWhile_append, leading]
  split
  · next h => simp [hc, h]
  · rfl

theorem leading_le_length (line : List Char) : leading line ≤ line.length :=
  (List.takeWhile_prefix _).length_le

def measures (lines : List (List Char)) : List Nat :=
  (lines.filter (fun line => !allBlank line)).map leading

theorem measures_cons_congr {line line' : List Char} {lines lines' : List (List Char)}
    (hleading : leading line = leading line') (hblank : allBlank line = allBlank line')
    (h : measures lines = measures lines') :
    measures (line :: lines) = measures (line' :: lines') := by
  unfold measures at h ⊢
  rw [List.filter_cons, List.filter_cons, hblank]
  split
  · rw [List.map_cons, List.map_cons, hleading, h]
  · exact h

theorem measures_rows (h : Pieced ps) : measures (ps.map chomp) = measures (rows ps.flatten) := by
  induction h with
  | nil => rfl
  | @last line _ hline => simp [chomp_line hline, rows_line hline]
  | @cons line ps hline _ ih =>
    rw [List.map_cons, List.flatten_cons, List.append_assoc, List.singleton_append,
      rows_lineFeed hline]
    rcases chomp_lineFeed line with hchomp | ⟨rest, rfl, hchomp⟩
    · exact measures_cons_congr (congrArg _ hchomp) (congrArg _ hchomp) ih
    · refine measures_cons_congr ?_ ?_ ih
      · rw [hchomp, leading_concat rfl]
      · rw [hchomp]
        simp [allBlank, isBlank]

/-- The least number of spaces and tabs that begin a line which is not blank. -/
def Common (text : List Char) (k : Nat) : Prop :=
  IsLeast {n | ∃ line ∈ rows text, allBlank line = false ∧ leading line = n} k

theorem mem_measures {lines : List (List Char)} {n : Nat} :
    n ∈ measures lines ↔ ∃ line ∈ lines, allBlank line = false ∧ leading line = n := by
  simp [measures, and_assoc]

theorem common?_eq (text : List Char) : common? text = (measures (rows text)).min? := by
  have h := measures_rows (pieces_pieced text)
  rw [flatten_pieces] at h
  rw [← h]
  rfl

theorem common?_eq_some_iff : common? text = some k ↔ Common text k := by
  rw [common?_eq, List.min?_eq_some_iff, mem_measures]
  exact and_congr_right fun _ => forall_congr' fun n => by rw [mem_measures]; rfl

theorem common?_eq_none_iff :
    common? text = none ↔ ∀ line ∈ rows text, allBlank line = true := by
  rw [common?_eq, List.min?_eq_none_iff]
  constructor
  · intro h line hline
    by_contra hblank
    have hmem : leading line ∈ measures (rows text) :=
      mem_measures.mpr ⟨line, hline, by simpa using hblank, rfl⟩
    rw [h] at hmem
    exact List.not_mem_nil hmem
  · intro h
    refine List.eq_nil_iff_forall_not_mem.mpr fun n hn => ?_
    obtain ⟨line, hline, hblank, -⟩ := mem_measures.mp hn
    rw [h line hline] at hblank
    cases hblank

/-- The line without as much of the common indentation as it has. -/
def strip (k : Nat) (line : List Char) : List Char := line.drop (min k (leading line))

theorem textAfter_stripSegments_lineFeed (k : Nat) (line : List Char) :
    textAfter (stripSegments k (line ++ ['\n'])) = strip k line ++ ['\n'] := by
  have hle : min k (leading line) ≤ line.length :=
    Nat.le_trans (Nat.min_le_right _ _) (leading_le_length line)
  rw [textAfter_stripSegments, leading_concat rfl, Nat.min_comm,
    List.drop_append_of_le_length hle, strip]

theorem rows_textAfter (h : Pieced ps) (k : Nat) :
    rows (textAfter (ps.flatMap (stripSegments k))) = (rows ps.flatten).map (strip k) := by
  have hdrop : ∀ {line : List Char} (n : Nat), '\n' ∉ line → '\n' ∉ line.drop n :=
    fun n hline hmem => hline (List.mem_of_mem_drop hmem)
  induction h with
  | nil => simp [rows, textAfter, strip]
  | @last line _ hline =>
    have htext : textAfter ([line].flatMap (stripSegments k)) = strip k line := by
      rw [List.flatMap_singleton, textAfter_stripSegments, Nat.min_comm, strip]
    rw [htext, List.flatten_singleton, rows_line hline, strip, rows_line (hdrop _ hline)]
    rfl
  | @cons line ps hline _ ih =>
    have htext : textAfter (((line ++ ['\n']) :: ps).flatMap (stripSegments k)) =
        strip k line ++ '\n' :: textAfter (ps.flatMap (stripSegments k)) := by
      rw [List.flatMap_cons, textAfter, List.flatMap_append, ← textAfter, ← textAfter,
        textAfter_stripSegments_lineFeed, List.append_assoc, List.singleton_append]
    rw [htext, strip, rows_lineFeed (hdrop _ hline), ih, List.flatten_cons, List.append_assoc,
      List.singleton_append, rows_lineFeed hline]
    rfl

theorem rows_segments (k : Nat) (text : List Char) :
    rows (textAfter (segments k text)) = (rows text).map (strip k) := by
  have hrows := rows_textAfter (pieces_pieced text) k
  rwa [flatten_pieces] at hrows

theorem remove?_eq_some (hk : 1 ≤ k) (h : Common text k) :
    ∃ r, remove? text = some r ∧ rows r.text = (rows text).map (strip k) := by
  obtain ⟨n, rfl⟩ := Nat.exists_eq_add_of_le' hk
  refine ⟨.ofSegments (segments (n + 1) text), ?_, rows_segments (n + 1) text⟩
  rw [remove?, common?_eq_some_iff.mpr h]

theorem remove?_eq_none_iff :
    remove? text = none ↔ (∀ line ∈ rows text, allBlank line = true) ∨ Common text 0 := by
  rw [← common?_eq_none_iff, ← common?_eq_some_iff, remove?]
  split
  · next h => simp [h]
  · next h => simp [h]
  · next h => simp [h]

theorem exists_common (h : remove? text = some r) :
    ∃ k, 1 ≤ k ∧ Common text k ∧ rows r.text = (rows text).map (strip k) := by
  rw [remove?] at h
  split at h
  · cases h
  · cases h
  · next n hcommon =>
    cases h
    exact ⟨n + 1, Nat.le_add_left 1 n, common?_eq_some_iff.mp hcommon, rows_segments (n + 1) text⟩

theorem isIndent_iff {c : Char} : isIndent c = true ↔ c = ' ' ∨ c = '\t' := by simp [isIndent]

theorem exists_stripped (k : Nat) (line : List Char) :
    ∃ lost, line = lost ++ strip k line ∧ lost.length = min k (leading line) ∧
      ∀ c ∈ lost, c = ' ' ∨ c = '\t' := by
  have hle := Nat.min_le_right k (leading line)
  refine ⟨line.take (min k (leading line)), (List.take_append_drop _ _).symm, ?_,
    mem_take_leading hle⟩
  exact List.length_take_of_le (Nat.le_trans hle (leading_le_length line))

theorem leading_strip (k : Nat) (line : List Char) :
    leading (strip k line) = leading line - k := by
  obtain ⟨lost, hline, hlength, hlost⟩ := exists_stripped k line
  have hsum : leading line = lost.length + leading (strip k line) := by
    rw [← leading_append (fun c hc => isIndent_iff.mpr (hlost c hc)), ← hline]
  omega

theorem allBlank_strip (k : Nat) (line : List Char) : allBlank (strip k line) = allBlank line := by
  obtain ⟨lost, hline, -, hlost⟩ := exists_stripped k line
  rw [← allBlank_append (fun c hc => isIndent_iff.mpr (hlost c hc)), ← hline]

theorem strip_append {space : List Char} (hspace : ∀ c ∈ space, isIndent c = true)
    (line : List Char) : strip space.length (space ++ line) = line := by
  rw [strip, leading_append hspace, Nat.min_eq_left (Nat.le_add_right _ _), List.drop_left]

theorem leading_eq_zero_iff : leading line = 0 ↔ ∀ c ∈ line.head?, c ≠ ' ' ∧ c ≠ '\t' := by
  cases line with
  | nil => simp [leading]
  | cons c line =>
    rw [leading, List.length_eq_zero_iff, List.takeWhile_eq_nil_iff]
    simp [isIndent]

/-- A row that is not blank begins with neither a space nor a tab. -/
def AtMargin (text : List Char) : Prop :=
  ∃ line ∈ rows text, allBlank line = false ∧ ∀ c ∈ line.head?, c ≠ ' ' ∧ c ≠ '\t'

theorem common_zero_iff : Common text 0 ↔ AtMargin text := by
  constructor
  · rintro ⟨⟨line, hline, hblank, hleading⟩, -⟩
    exact ⟨line, hline, hblank, leading_eq_zero_iff.mp hleading⟩
  · rintro ⟨line, hline, hblank, hhead⟩
    exact ⟨⟨line, hline, hblank, leading_eq_zero_iff.mpr hhead⟩, fun _ _ => Nat.zero_le _⟩

theorem Common.stripped {text' : List Char} (h : Common text k)
    (hrows : rows text' = (rows text).map (strip k)) : Common text' 0 := by
  obtain ⟨⟨line, hline, hblank, hleading⟩, -⟩ := h
  refine ⟨⟨strip k line, ?_, ?_, ?_⟩, fun _ _ => Nat.zero_le _⟩
  · rw [hrows]
    exact List.mem_map_of_mem hline
  · rw [allBlank_strip, hblank]
  · rw [leading_strip, hleading, Nat.sub_self]

/-- The text with white space put before every row. -/
def shift (space text : List Char) : List Char :=
  ['\n'].intercalate ((rows text).map (space ++ ·))

section Shift

variable {space : List Char}

theorem rows_shift (hspace : ∀ c ∈ space, isIndent c = true) (text : List Char) :
    rows (shift space text) = (rows text).map (space ++ ·) := by
  have hlineFeed : '\n' ∉ space := not_mem_of_isIndent hspace rfl
  refine rows_intercalate (fun line hline => ?_) (by simp [rows])
  obtain ⟨rest, hrest, rfl⟩ := List.mem_map.mp hline
  exact fun hmem => (List.mem_append.mp hmem).elim hlineFeed (not_mem_rows hrest)

theorem Common.shift (hspace : ∀ c ∈ space, isIndent c = true) (h : Common text k) :
    Common (shift space text) (space.length + k) := by
  obtain ⟨⟨line, hline, hblank, hleading⟩, hleast⟩ := h
  constructor
  · refine ⟨space ++ line, ?_, ?_, ?_⟩
    · rw [rows_shift hspace]
      exact List.mem_map_of_mem hline
    · rw [allBlank_append hspace, hblank]
    · rw [leading_append hspace, hleading]
  · rintro n ⟨shifted, hshifted, hblank', rfl⟩
    rw [rows_shift hspace] at hshifted
    obtain ⟨other, hother, rfl⟩ := List.mem_map.mp hshifted
    rw [allBlank_append hspace] at hblank'
    rw [leading_append hspace]
    exact Nat.add_le_add_left (hleast ⟨other, hother, hblank', rfl⟩) _

theorem remove?_shift (hne : space ≠ []) (hspace : ∀ c ∈ space, isIndent c = true)
    (h : Common text 0) : ∃ r, remove? (Indentation.shift space text) = some r ∧ r.text = text := by
  obtain ⟨r, hr, hrows⟩ := remove?_eq_some (List.length_pos_iff.mpr hne) (h.shift hspace)
  have hback : (strip space.length ∘ (space ++ ·)) = id := funext (strip_append hspace)
  rw [rows_shift hspace, List.map_map, hback, List.map_id] at hrows
  refine ⟨r, hr, ?_⟩
  rw [← intercalate_rows r.text, hrows, intercalate_rows]

end Shift

/-- The rows that are not blank lose the least indentation among them, the others what they have
of it. Nothing more can be removed then, and white space put before every row is removed again. -/
theorem remove?_rows (text : List Char) :
    (remove? text = none ↔ (∀ line ∈ rows text, allBlank line = true) ∨ AtMargin text) ∧
    (AtMargin text → ∀ space, space ≠ [] → (∀ c ∈ space, c = ' ' ∨ c = '\t') →
      ∃ r, remove? (shift space text) = some r ∧ r.text = text) ∧
    ∀ r, remove? text = some r →
      ∃ k, 1 ≤ k ∧ IsLeast {n | ∃ line ∈ rows text, allBlank line = false ∧ leading line = n} k ∧
        (rows r.text).length = (rows text).length ∧
        List.Forall₂ (fun line left => left = line.drop (min k (leading line)) ∧
          allBlank left = allBlank line) (rows text) (rows r.text) ∧
        remove? r.text = none := by
  refine ⟨?_, fun hmargin space hne hspace => ?_, fun r hr => ?_⟩
  · rw [remove?_eq_none_iff, common_zero_iff]
  · have hindent : ∀ c ∈ space, isIndent c = true := fun c hc => isIndent_iff.mpr (hspace c hc)
    exact remove?_shift hne hindent (common_zero_iff.mpr hmargin)
  · obtain ⟨k, hk, hcommon, hrows⟩ := exists_common hr
    refine ⟨k, hk, hcommon, ?_, ?_, remove?_eq_none_iff.mpr (.inr (hcommon.stripped hrows))⟩
    · rw [hrows, List.length_map]
    · rw [hrows, List.forall₂_map_right_iff, List.forall₂_same]
      exact fun line _ => ⟨rfl, allBlank_strip k line⟩

/-- Every row that is not blank is the same white space with its row of the other text after it. -/
def Shared (space before after : List Char) : Prop :=
  space ≠ [] ∧ (∀ c ∈ space, c = ' ' ∨ c = '\t') ∧
    List.Forall₂ (fun line left => allBlank line = false → line = space ++ left)
      (rows before) (rows after)

theorem Shared.begins {space : List Char} (h : Shared space text r.text)
    (hrows : rows r.text = (rows text).map (strip k)) :
    ∀ line ∈ rows text, allBlank line = false → line = space ++ strip k line := by
  obtain ⟨-, -, hforall⟩ := h
  rwa [hrows, List.forall₂_map_right_iff, List.forall₂_same] at hforall

theorem takeWhile_eq_of_strip {space : List Char} (hleading : leading line = k)
    (h : line = space ++ strip k line) : line.takeWhile isIndent = space := by
  obtain ⟨lost, hline, hlength, -⟩ := exists_stripped k line
  have hspace : space = lost := List.append_cancel_right (h.symm.trans hline)
  have hlength' : space.length = (line.takeWhile isIndent).length := by
    rw [hspace, hlength, hleading, Nat.min_self, ← hleading]
    rfl
  have hprefix : space <+: line := ⟨_, h.symm⟩
  have hwithin : space <+: line.takeWhile isIndent :=
    List.prefix_of_prefix_length_le hprefix (List.takeWhile_prefix _) hlength'.le
  exact (hwithin.eq_of_length hlength').symm

theorem shared_of_prefix (hk : 1 ≤ k) (hcommon : Common text k)
    (hrows : rows r.text = (rows text).map (strip k)) (hline : line ∈ rows text)
    (hblank : allBlank line = false)
    (h : ∀ other ∈ rows text, allBlank other = false → line.takeWhile isIndent <+: other) :
    Shared (line.takeWhile isIndent) text r.text := by
  have hindent : ∀ c ∈ line.takeWhile isIndent, isIndent c = true :=
    List.all_eq_true.mp List.all_takeWhile
  -- No row has less than the least, and the row that has the least begins with what this one has.
  have hle : k ≤ leading line := hcommon.2 ⟨line, hline, hblank, rfl⟩
  have hge : leading line ≤ k := by
    obtain ⟨least, hleast, hblank', hleading⟩ := hcommon.1
    obtain ⟨rest, hrest⟩ := h least hleast hblank'
    rw [← hleading, ← hrest, leading_append hindent]
    exact Nat.le_add_right _ _
  have hlength : (line.takeWhile isIndent).length = k := Nat.le_antisymm hge hle
  refine ⟨?_, fun c hc => isIndent_iff.mp (hindent c hc), ?_⟩
  · intro hnil
    rw [hnil] at hlength
    exact absurd hk (by simp [← hlength])
  · rw [hrows, List.forall₂_map_right_iff, List.forall₂_same]
    intro other hother hblank'
    obtain ⟨rest, rfl⟩ := h other hother hblank'
    have hrest := strip_append hindent rest
    rw [hlength] at hrest
    rw [hrest]

/-- Each row that is not blank loses the same number of spaces and tabs. They are the same ones
exactly if the indentation of one such row begins all the others. -/
theorem remove?_shared_iff (h : remove? text = some r) :
    (∃ k, 1 ≤ k ∧ List.Forall₂ (fun line left => allBlank line = false →
      ∃ lost, line = lost ++ left ∧ lost.length = k ∧ ∀ c ∈ lost, c = ' ' ∨ c = '\t')
        (rows text) (rows r.text)) ∧
    ((∃ space, Shared space text r.text) ↔
      ∃ line ∈ rows text, allBlank line = false ∧
        ∀ other ∈ rows text, allBlank other = false → line.takeWhile isIndent <+: other) := by
  obtain ⟨k, hk, hcommon, hrows⟩ := exists_common h
  refine ⟨⟨k, hk, ?_⟩, ?_, ?_⟩
  · rw [hrows, List.forall₂_map_right_iff, List.forall₂_same]
    intro line hline hblank
    obtain ⟨lost, hstrip, hlength, hlost⟩ := exists_stripped k line
    have hle : k ≤ leading line := hcommon.2 ⟨line, hline, hblank, rfl⟩
    exact ⟨lost, hstrip, by rw [hlength, Nat.min_eq_left hle], hlost⟩
  · rintro ⟨space, hshared⟩
    have hbegins := hshared.begins hrows
    obtain ⟨line, hline, hblank, hleading⟩ := hcommon.1
    refine ⟨line, hline, hblank, fun other hother hblank' => ?_⟩
    rw [takeWhile_eq_of_strip hleading (hbegins line hline hblank)]
    exact ⟨_, (hbegins other hother hblank').symm⟩
  · rintro ⟨line, hline, hblank, hprefix⟩
    exact ⟨_, shared_of_prefix hk hcommon hrows hline hblank hprefix⟩

theorem remove?_shared_tabs :
    let text := "\tif x:\n\t  y()\n".toList
    let r : Revision := .ofSegments (segments 1 text)
    remove? text = some r ∧ r.text = "if x:\n  y()\n".toList ∧
      ∃ space, Shared space text r.text := by
  intro text r
  have h : remove? text = some r := by decide
  have hbegins : ∀ other ∈ rows text, allBlank other = false →
      "\tif x:".toList.takeWhile isIndent <+: other := by decide
  refine ⟨h, by decide, (remove?_shared_iff h).2.mpr ?_⟩
  exact ⟨"\tif x:".toList, by decide, by decide, hbegins⟩

/-- A row that begins with spaces, and one that begins with tabs. -/
theorem tabs_under_spaces :
    ∃ r, remove? "  if x:\n\t\ty()\n".toList = some r ∧ r.text = "if x:\ny()\n".toList ∧
      ¬ ∃ space, Shared space "  if x:\n\t\ty()\n".toList r.text := by
  refine ⟨.ofSegments (segments 2 "  if x:\n\t\ty()\n".toList), by decide, by decide, ?_⟩
  rintro ⟨space, hne, -, hforall⟩
  have hrows : rows "  if x:\n\t\ty()\n".toList =
      ["  if x:".toList, "\t\ty()".toList, []] := by decide
  rw [hrows] at hforall
  obtain ⟨c, rest, rfl⟩ := List.exists_cons_of_ne_nil hne
  cases hforall with
  | cons hspaces hforall =>
    cases hforall with
    | cons htabs _ =>
      have hspace := (List.cons.inj (hspaces (by decide))).1
      have htab := (List.cons.inj (htabs (by decide))).1
      exact absurd (hspace.trans htab.symm) (by decide)

end Indentation

end CodePattern
