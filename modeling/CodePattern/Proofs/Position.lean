import CodePattern.Proofs.LineStarts

/-! Boundaries of characters in a text, and the line and the column of a boundary. A
span covers a part of a text when its offsets are the ends of the part and its lines and
columns are those of these ends. -/

namespace CodePattern

def IsBoundary (text : List Char) (offset : Nat) : Prop :=
  ∃ before after, text = before ++ after ∧ width before = offset

theorem eq_nil_of_width {s : List Char} (h : width s = 0) : s = [] := by
  have := length_le_width s
  exact List.length_eq_zero_iff.mp (by omega)

theorem width_pos {text : List Char} (h : text ≠ []) : 0 < width text := by
  have := length_le_width text
  have := List.length_pos_iff.mpr h
  omega

theorem append_inj_of_width {s t s' t' : List Char} (h : s ++ t = s' ++ t')
    (hw : width s = width s') : s = s' ∧ t = t' := by
  have ht : some t = some t' := by
    rw [← dropWidth?_width s t, ← dropWidth?_width s' t', h, hw]
  obtain rfl : t = t' := Option.some.inj ht
  exact ⟨List.append_cancel_right h, rfl⟩

theorem append_split_of_width {s t s' t' : List Char} (h : s ++ t = s' ++ t')
    (hw : width s ≤ width s') : ∃ mid, s' = s ++ mid ∧ t = mid ++ t' := by
  rcases List.append_eq_append_iff.mp h with ⟨mid, hs, ht⟩ | ⟨mid, hs, ht⟩
  · exact ⟨mid, hs, ht⟩
  · have hmid : mid = [] := eq_nil_of_width (by rw [hs, width_append] at hw; omega)
    subst hmid
    exact ⟨[], by simpa using hs.symm, by simpa using ht.symm⟩

namespace IsBoundary

variable {text rest : List Char} {offset : Nat}

theorem zero (text : List Char) : IsBoundary text 0 := ⟨[], text, rfl, rfl⟩

theorem width_left (s t : List Char) : IsBoundary (s ++ t) (width s) := ⟨s, t, rfl, rfl⟩

theorem le_width (h : IsBoundary text offset) : offset ≤ width text := by
  obtain ⟨before, after, rfl, rfl⟩ := h
  simp

theorem append (h : IsBoundary text offset) : IsBoundary (text ++ rest) offset := by
  obtain ⟨before, after, rfl, rfl⟩ := h
  exact ⟨before, after ++ rest, by simp, rfl⟩

theorem add (h : IsBoundary rest offset) : IsBoundary (text ++ rest) (width text + offset) := by
  obtain ⟨before, after, rfl, rfl⟩ := h
  exact ⟨text ++ before, after, by simp, by simp⟩

theorem sub (h : IsBoundary (text ++ rest) offset) : IsBoundary rest (offset - width text) := by
  obtain ⟨before, after, he, rfl⟩ := h
  by_cases hle : width text ≤ width before
  · obtain ⟨mid, rfl, rfl⟩ := append_split_of_width he hle
    exact ⟨mid, after, rfl, by simp⟩
  · rw [Nat.sub_eq_zero_of_le (by omega)]
    exact zero rest

theorem left (h : IsBoundary (text ++ rest) offset) (hle : offset ≤ width text) :
    IsBoundary text offset := by
  obtain ⟨before, after, he, rfl⟩ := h
  obtain ⟨mid, rfl, -⟩ := append_split_of_width he.symm hle
  exact width_left before mid

theorem min_width (h : IsBoundary (text ++ rest) offset) :
    IsBoundary text (min offset (width text)) := by
  by_cases hle : offset ≤ width text
  · rw [Nat.min_eq_left hle]
    exact h.left hle
  · rw [Nat.min_eq_right (by omega)]
    exact ⟨text, [], by simp, rfl⟩

end IsBoundary

theorem append_of_dropWidth? {n : Nat} {text rest : List Char} (h : dropWidth? n text = some rest) :
    ∃ before, text = before ++ rest ∧ width before = n := by
  induction text generalizing n with
  | nil =>
    cases n with
    | zero => exact ⟨[], by simpa [dropWidth?] using h, rfl⟩
    | succ n => simp [dropWidth?] at h
  | cons c text ih =>
    cases n with
    | zero => exact ⟨[], by simpa [dropWidth?] using h, rfl⟩
    | succ n =>
      rw [dropWidth?] at h
      split at h
      · next hc =>
        obtain ⟨before, rfl, hw⟩ := ih h
        exact ⟨c :: before, rfl, by rw [width_cons, hw]; omega⟩
      · cases h

theorem append_of_takeWidth? {n : Nat} {text part : List Char} (h : takeWidth? n text = some part) :
    ∃ rest, text = part ++ rest ∧ width part = n := by
  induction text generalizing n part with
  | nil =>
    cases n with
    | zero =>
      obtain rfl : [] = part := by simpa [takeWidth?] using h
      exact ⟨[], rfl, rfl⟩
    | succ n => simp [takeWidth?] at h
  | cons c text ih =>
    cases n with
    | zero =>
      obtain rfl : [] = part := by simpa [takeWidth?] using h
      exact ⟨c :: text, rfl, rfl⟩
    | succ n =>
      rw [takeWidth?] at h
      split at h
      · next hc =>
        obtain ⟨part, hpart, rfl⟩ := Option.map_eq_some_iff.mp h
        obtain ⟨rest, rfl, hw⟩ := ih hpart
        exact ⟨rest, rfl, by rw [width_cons, hw]; omega⟩
      · cases h

theorem append_of_slice? {text part : List Char} {start stop : Nat}
    (h : slice? text start stop = some part) :
    ∃ before after, text = before ++ part ++ after ∧ width before = start ∧
      width (before ++ part) = stop := by
  rw [slice?] at h
  split at h
  · next hle =>
    obtain ⟨rest, hrest, hpart⟩ := Option.bind_eq_some_iff.mp h
    obtain ⟨before, rfl, hbefore⟩ := append_of_dropWidth? hrest
    obtain ⟨after, rfl, hwidth⟩ := append_of_takeWidth? hpart
    exact ⟨before, after, by simp, hbefore, by rw [width_append]; omega⟩
  · cases h

theorem isBoundary_iff (text : List Char) (n : Nat) :
    IsBoundary text n ↔ (dropWidth? n text).isSome = true := by
  constructor
  · rintro ⟨before, after, rfl, rfl⟩
    rw [dropWidth?_width]
    rfl
  · intro h
    obtain ⟨rest, hrest⟩ := Option.isSome_iff_exists.mp h
    obtain ⟨before, rfl, hw⟩ := append_of_dropWidth? hrest
    exact ⟨before, rest, rfl, hw⟩

instance (text : List Char) (n : Nat) : Decidable (IsBoundary text n) :=
  decidable_of_iff _ (isBoundary_iff text n).symm

theorem exists_part {text : List Char} {start stop : Nat} (hstart : IsBoundary text start)
    (hstop : IsBoundary text stop) (hle : start ≤ stop) :
    ∃ before part after, text = before ++ part ++ after ∧ width before = start ∧
      width (before ++ part) = stop := by
  obtain ⟨before, rest, rfl, rfl⟩ := hstart
  obtain ⟨upto, after, he, rfl⟩ := hstop
  obtain ⟨part, rfl, rfl⟩ := append_split_of_width he hle
  exact ⟨before, part, after, by simp, rfl, rfl⟩

theorem slice?_part (before part after : List Char) :
    slice? (before ++ part ++ after) (width before) (width (before ++ part)) = some part := by
  rw [width_append, slice?_width]

def lineOf (before : List Char) : Nat := 1 + before.count '\n'

def lastLine (before : List Char) : List Char :=
  (before.reverse.takeWhile (· ≠ '\n')).reverse

def columnOf (before : List Char) : Nat := width (lastLine before)

theorem lastLine_concat (before : List Char) (c : Char) :
    lastLine (before ++ [c]) = if c = '\n' then [] else lastLine before ++ [c] := by
  by_cases hc : c = '\n' <;> simp [lastLine, hc]

/-- The last line start before a boundary lies as far back as the column tells. -/
theorem getLastD_lineStartsFrom (offset : Nat) (s : List Char) :
    (lineStartsFrom offset s).getLastD offset + columnOf s = offset + width s := by
  induction s using List.reverseRecOn with
  | nil => simp [lineStartsFrom, columnOf, lastLine]
  | append_singleton s c ih =>
    rw [columnOf, lastLine_concat, lineStartsFrom_append]
    by_cases hc : c = '\n'
    · simp [lineStartsFrom, hc, Nat.add_assoc]
    · rw [columnOf] at ih
      simp only [lineStartsFrom, hc, if_false, List.append_nil, width_append]
      omega

theorem startsUpTo_boundary (s t : List Char) :
    (LineTable.ofText (s ++ t)).startsUpTo (width s) = 0 :: lineStartsFrom 0 s := by
  rw [LineTable.startsUpTo_eq, octets_append, ← length_octets, List.take_left, lineStartsFrom_eq]

theorem position_boundary (s t : List Char) :
    (LineTable.ofText (s ++ t)).position (width s) =
      ((lineOf s).toUInt32, (columnOf s).toUInt32) := by
  have hlast := getLastD_lineStartsFrom 0 s
  have hcol : width s - (0 :: lineStartsFrom 0 s).getLastD 0 = columnOf s := by
    simp only [List.getLastD_cons]
    omega
  simp only [LineTable.position, startsUpTo_boundary, hcol, List.length_cons,
    length_lineStartsFrom, lineOf, Nat.add_comm]

def Span.Covers (span : Span) (text part : List Char) : Prop :=
  ∃ before after, text = before ++ part ++ after ∧
    span.startByte = width before ∧ span.endByte = width (before ++ part) ∧
    span.startLine.toNat = lineOf before ∧ span.startCol.toNat = columnOf before ∧
    span.endLine.toNat = lineOf (before ++ part) ∧
    span.endCol.toNat = columnOf (before ++ part)

theorem columnOf_le_width (s : List Char) : columnOf s ≤ width s := by
  have := getLastD_lineStartsFrom 0 s
  omega

/-- Lines and columns fit in 32 bits if the text is shorter than that and does not
consist of line feeds alone. -/
theorem span_covers {text before part after : List Char} (he : text = before ++ part ++ after)
    (hw : width text < UInt32.size) (hl : lineOf text < UInt32.size) :
    ((LineTable.ofText text).span (width before) (width (before ++ part))).Covers text part := by
  have hfirst : (LineTable.ofText text).position (width before) =
      ((lineOf before).toUInt32, (columnOf before).toUInt32) := by
    rw [he, List.append_assoc]
    exact position_boundary before (part ++ after)
  have hlast : (LineTable.ofText text).position (width (before ++ part)) =
      ((lineOf (before ++ part)).toUInt32, (columnOf (before ++ part)).toUInt32) := by
    rw [he]
    exact position_boundary (before ++ part) after
  have hcol := columnOf_le_width before
  have hcol' := columnOf_le_width (before ++ part)
  simp only [he, width_append, lineOf, List.count_append] at hw hl hcol'
  refine ⟨before, after, he, rfl, rfl, ?_⟩
  simp only [LineTable.span, hfirst, hlast, lineOf, List.count_append]
  refine ⟨?_, ?_, ?_, ?_⟩ <;> exact UInt32.toNat_ofNat_of_lt' (by omega)

end CodePattern
