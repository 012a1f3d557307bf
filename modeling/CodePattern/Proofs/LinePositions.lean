import CodePattern.OffsetMap
import CodePattern.Proofs.Nesting

/-! Lines and columns as another way to tell offsets. The line of an offset counts the line feeds
before it, and its column the octets since the last of them. The search in the table of line
starts always finds the start of that line, later offsets have later places, and the place tells
the offset again. -/

namespace CodePattern

def feedsBefore (text : List Char) (offset : Nat) : Nat :=
  ((octets text).take offset).count lineFeed

/-- The line of an offset starts here, that is after the last line feed before the offset. -/
structure StartsLine (text : List Char) (offset start : Nat) : Prop where
  le : start ≤ offset
  after : start = 0 ∨ ∃ i, start = i + 1 ∧ (octets text)[i]? = some lineFeed
  free : ∀ i, start ≤ i → i < offset → (octets text)[i]? ≠ some lineFeed

namespace LineTable

def starts (table : LineTable) : List Nat := 0 :: table.laterStarts

/-- Row and column by a binary search, unless a row is looked up that the table does not have or
the difference would be below zero. -/
def lookUp? (table : LineTable) (offset : Nat) : Option (Nat × Nat) :=
  let row := bisect (· ≤ offset) table.starts - 1
  match table.starts[row]? with
  | some start => if start ≤ offset then some (row, offset - start) else none
  | none => none

/-- The offset of a line and a column. -/
def offset? (table : LineTable) (place : UInt32 × UInt32) : Option Nat :=
  (table.starts[(place.1 - 1).toNat]?).map (· + place.2.toNat)

end LineTable

theorem feedsBefore_le (text : List Char) (offset : Nat) : feedsBefore text offset ≤ offset :=
  List.count_le_length.trans (List.length_take_le offset _)

namespace LineTable

variable {text : List Char} {offset start : Nat}

theorem length_startsUpTo (text : List Char) (offset : Nat) :
    ((ofText text).startsUpTo offset).length = feedsBefore text offset + 1 := by
  rw [startsUpTo_eq, List.length_cons, length_startsAfter, feedsBefore]

theorem startsLine_startsUpTo (text : List Char) (offset : Nat) :
    StartsLine text offset (((ofText text).startsUpTo offset).getLastD 0) := by
  rw [startsUpTo_eq, List.getLastD_cons]
  obtain ⟨hafter, hfree⟩ := getLastD_startsAfter ((octets text).take offset)
  have hle : (startsAfter 0 ((octets text).take offset)).getLastD 0 ≤ offset := by
    obtain ⟨later, -, hbefore, -⟩ := exists_starts_eq text offset
    rcases List.mem_cons.mp (List.getLastD_mem_cons (l := startsAfter 0 _) (a := 0)) with h | h
    · rw [h]
      exact Nat.zero_le offset
    · exact hbefore _ h
  refine ⟨hle, hafter.imp id ?_, fun i hstart hi => ?_⟩
  · rintro ⟨i, hstart, hi⟩
    rw [List.getElem?_take] at hi
    split at hi
    · exact ⟨i, hstart, hi⟩
    · cases hi
  · have hne := hfree i hstart
    rwa [List.getElem?_take, if_pos hi] at hne

end LineTable

namespace StartsLine

variable {text : List Char} {offset start : Nat}

theorem unique {other : Nat} (h : StartsLine text offset start)
    (h' : StartsLine text offset other) : start = other := by
  have hle : ∀ {s t}, StartsLine text offset s → StartsLine text offset t → s ≤ t := by
    intro s t hs ht
    by_contra hlt
    rcases hs.after with hzero | ⟨i, hi, hfeed⟩
    · omega
    · have := hs.le
      exact ht.free i (by omega) (by omega) hfeed
  exact Nat.le_antisymm (hle h h') (hle h' h)

theorem eq_getLastD (h : StartsLine text offset start) :
    ((LineTable.ofText text).startsUpTo offset).getLastD 0 = start :=
  (LineTable.startsLine_startsUpTo text offset).unique h

end StartsLine

namespace LineTable

variable {text : List Char} {offset start : Nat}

/-- The line counts the line feeds before an offset, and the column the octets since the last. -/
theorem position_eq (h : StartsLine text offset start) :
    (ofText text).position offset =
      ((feedsBefore text offset + 1).toUInt32, (offset - start).toUInt32) := by
  simp only [position, length_startsUpTo, h.eq_getLastD]

theorem getElem?_starts (h : StartsLine text offset start) :
    (ofText text).starts[feedsBefore text offset]? = some start := by
  obtain ⟨later, hsplit, -, -⟩ := exists_starts_eq text offset
  have hstarts : (ofText text).starts = (ofText text).startsUpTo offset ++ later := by
    rw [starts, hsplit, startsUpTo_eq, List.cons_append]
  have hlength := length_startsUpTo text offset
  have hne : (ofText text).startsUpTo offset ≠ [] := List.cons_ne_nil _ _
  have hlast : ((ofText text).startsUpTo offset).getLast? = some start := by
    rw [← h.eq_getLastD, List.getLastD_eq_getLast?, List.getLast?_eq_some_getLast hne]
    rfl
  rw [hstarts, List.getElem?_append_left (by omega), ← hlast, List.getLast?_eq_getElem?, hlength,
    Nat.add_sub_cancel]

theorem bisect_starts (text : List Char) (offset : Nat) :
    bisect (· ≤ offset) (ofText text).starts = feedsBefore text offset + 1 := by
  obtain ⟨later, hsplit, hbefore, hbehind⟩ := exists_starts_eq text offset
  rw [starts, hsplit, ← List.cons_append, bisect_append, List.length_cons, length_startsAfter,
    feedsBefore]
  · simpa using hbefore
  · simpa using hbehind

/-- The search finds a row of the table, and the line that starts there does not start behind
the offset. -/
theorem lookUp?_eq (h : StartsLine text offset start) :
    (ofText text).lookUp? offset = some (feedsBefore text offset, offset - start) := by
  simp only [lookUp?, bisect_starts, Nat.add_sub_cancel, getElem?_starts h, h.le, if_true]

end LineTable

section Order

variable {text : List Char} {x y start : Nat}

theorem count_take_add_count (bs : List UInt8) (hle : x ≤ y) (b : UInt8) :
    (bs.take y).count b = (bs.take x).count b + ((bs.drop x).take (y - x)).count b := by
  rw [← List.count_append, ← List.take_add, Nat.add_sub_cancel' hle]

theorem feedsBefore_mono (hle : x ≤ y) : feedsBefore text x ≤ feedsBefore text y := by
  rw [feedsBefore, feedsBefore, count_take_add_count _ hle]
  exact Nat.le_add_right _ _

/-- A line goes on until the next line feed. -/
theorem StartsLine.extend (h : StartsLine text x start) (hle : x ≤ y)
    (hfeeds : feedsBefore text x = feedsBefore text y) : StartsLine text y start := by
  have hnone : ((octets text).drop x |>.take (y - x)).count lineFeed = 0 := by
    have hcount := count_take_add_count (octets text) hle lineFeed
    simp only [feedsBefore] at hfeeds
    omega
  refine ⟨h.le.trans hle, h.after, fun i hstart hi hfeed => ?_⟩
  by_cases hx : i < x
  · exact h.free i hstart hx hfeed
  · have hmem : lineFeed ∈ ((octets text).drop x).take (y - x) := by
      refine List.mem_of_getElem? (i := i - x) ?_
      rw [List.getElem?_take, if_pos (by omega), List.getElem?_drop, Nat.add_sub_cancel' (by omega),
        hfeed]
    exact absurd hnone (Nat.ne_of_gt (List.count_pos_iff.mpr hmem))

/-- After as many line feeds as 32 bits can count, and nothing else, a line number does not fit. -/
def Overfull (text : List Char) (offset : Nat) : Prop :=
  offset = UInt32.size - 1 ∧ text = List.replicate (UInt32.size - 1) '\n'

theorem feedsBefore_lineFeeds (n : Nat) : feedsBefore (List.replicate n '\n') n = n := by
  have hall := (count_take_octets (x := '\n') (by decide) n (List.replicate n '\n')).mpr
    (List.prefix_refl _)
  exact hall

theorem feedsBefore_lt_iff (hsize : width text < UInt32.size) (hx : x ≤ width text) :
    feedsBefore text x + 1 < UInt32.size ↔ ¬ Overfull text x := by
  have hle := feedsBefore_le text x
  constructor
  · rintro hlt ⟨rfl, rfl⟩
    rw [feedsBefore_lineFeeds] at hlt
    exact absurd hlt (by decide)
  · intro hfits
    by_contra hlt
    have hx' : x = UInt32.size - 1 := by omega
    have hcount : ((octets text).take (UInt32.size - 1)).count (octet '\n') = UInt32.size - 1 := by
      rw [← hx']
      change feedsBefore text x = x
      omega
    obtain ⟨rest, hrest⟩ := (count_take_octets (by decide) _ _).mp hcount
    have hwidth : width rest = 0 := by
      rw [← hrest, width_append, width_lineFeeds] at hsize
      omega
    rw [eq_nil_of_width hwidth, List.append_nil] at hrest
    exact hfits ⟨hx', hrest.symm⟩

theorem exists_startsLine (text : List Char) (offset : Nat) :
    ∃ start, StartsLine text offset start :=
  ⟨_, LineTable.startsLine_startsUpTo text offset⟩

/-- Beyond the text the last line goes on. -/
theorem feedsBefore_beyond (text : List Char) (more : Nat) :
    feedsBefore text (width text + more) = feedsBefore text (width text) := by
  have hlength := length_octets text
  rw [feedsBefore, feedsBefore, List.take_of_length_le (by omega),
    List.take_of_length_le (by omega)]

namespace LineTable

theorem position_beyond (h : StartsLine text (width text) start) (more : Nat) :
    (ofText text).position (width text + more) =
      (((ofText text).position (width text)).1, (width text - start + more).toUInt32) := by
  have hbeyond := h.extend (Nat.le_add_right _ more) (feedsBefore_beyond text more).symm
  have hle := h.le
  rw [position_eq hbeyond, position_eq h, feedsBefore_beyond, Nat.sub_add_comm hle]

theorem toNat_column (hsize : width text < UInt32.size) (hx : x ≤ width text)
    (h : StartsLine text x start) : ((ofText text).position x).2.toNat = x - start := by
  rw [position_eq h]
  exact UInt32.toNat_ofNat_of_lt' (by omega)

theorem toNat_line_of_lt (hx : feedsBefore text x + 1 < UInt32.size) :
    ((ofText text).position x).1.toNat = feedsBefore text x + 1 := by
  obtain ⟨start, h⟩ := exists_startsLine text x
  rw [position_eq h]
  exact UInt32.toNat_ofNat_of_lt' hx

theorem position_lt (hsize : width text < UInt32.size) (hxy : x < y) (hy : y ≤ width text)
    (hfits : feedsBefore text y + 1 < UInt32.size) :
    Prod.Lex (· < ·) (· < ·) ((ofText text).position x) ((ofText text).position y) := by
  have hmono : feedsBefore text x ≤ feedsBefore text y := feedsBefore_mono (Nat.le_of_lt hxy)
  have hline := toNat_line_of_lt hfits
  have hline' : ((ofText text).position x).1.toNat = feedsBefore text x + 1 :=
    toNat_line_of_lt (by omega)
  rw [Prod.lex_def, UInt32.lt_iff_toNat_lt, UInt32.lt_iff_toNat_lt, ← UInt32.toNat_inj, hline,
    hline']
  by_cases hsame : feedsBefore text x = feedsBefore text y
  · -- Both offsets lie on one line, so the columns decide.
    obtain ⟨start, h⟩ := exists_startsLine text x
    have h' := h.extend (Nat.le_of_lt hxy) hsame
    have hle := h.le
    rw [toNat_column hsize hy h', toNat_column hsize (by omega) h]
    omega
  · omega

/-- The line of an offset has its number, unless that does not fit. -/
theorem toNat_line_iff (hsize : width text < UInt32.size) (hx : x ≤ width text) :
    ((ofText text).position x).1.toNat = feedsBefore text x + 1 ↔ ¬ Overfull text x := by
  rw [← feedsBefore_lt_iff hsize hx]
  constructor
  · intro hline
    rw [← hline]
    exact UInt32.toNat_lt_size _
  · exact toNat_line_of_lt

/-- No place comes before one whose line is told as 0. -/
theorem position_lt_iff (hsize : width text < UInt32.size) (hxy : x < y) (hy : y ≤ width text) :
    Prod.Lex (· < ·) (· < ·) ((ofText text).position x) ((ofText text).position y) ↔
      ¬ Overfull text y := by
  constructor
  · rintro hlt ⟨rfl, rfl⟩
    have hlast : (ofText (List.replicate (UInt32.size - 1) '\n')).position (UInt32.size - 1) =
        (0, 0) := position_lineFeeds (Nat.le_refl _)
    rw [hlast, position_lineFeeds (Nat.le_of_lt hxy), Prod.lex_def] at hlt
    rcases hlt with hline | ⟨hline, -⟩
    · exact absurd hline UInt32.not_lt_zero
    · have hzero : (1 + x).toUInt32.toNat = 0 := congrArg UInt32.toNat hline
      rw [UInt32.toNat_ofNat_of_lt' (show 1 + x < UInt32.size by omega)] at hzero
      omega
  · intro hfits
    exact position_lt hsize hxy hy ((feedsBefore_lt_iff hsize hy).mpr hfits)

theorem offset?_position (hsize : width text < UInt32.size) (hx : x ≤ width text) :
    (ofText text).offset? ((ofText text).position x) = some x := by
  obtain ⟨start, h⟩ := exists_startsLine text x
  have hle := feedsBefore_le text x
  have hrow : (((ofText text).position x).1 - 1).toNat = feedsBefore text x := by
    have hone : UInt32.ofNat 1 = 1 := rfl
    rw [position_eq h]
    change (UInt32.ofNat (feedsBefore text x + 1) - 1).toNat = _
    rw [UInt32.ofNat_add, hone, UInt32.add_sub_cancel]
    exact UInt32.toNat_ofNat_of_lt' (by omega)
  have hstart := h.le
  rw [offset?, hrow, getElem?_starts h, Option.map_some, toNat_column hsize hx h,
    Nat.add_sub_cancel' hstart]

end LineTable

end Order

open LineTable (ofText)

/-- The table of a text tells the line and the column of every offset by a look-up that never
fails, later offsets of the text have later places, and each place tells its offset. Only for
`2 ^ 32 - 1` line feeds and nothing else the line of the last offset does not fit in 32 bits. -/
theorem places_invertible {text : List Char} (hsize : width text < UInt32.size) :
    (∀ offset, ∃ start, StartsLine text offset start ∧
      (ofText text).lookUp? offset = some (feedsBefore text offset, offset - start) ∧
      (ofText text).position offset =
        ((feedsBefore text offset + 1).toUInt32, (offset - start).toUInt32)) ∧
    (∀ offset ≤ width text, ∃ start, StartsLine text offset start ∧
      ((ofText text).position offset).2.toNat = offset - start ∧
      (((ofText text).position offset).1.toNat = feedsBefore text offset + 1 ↔
        ¬ Overfull text offset)) ∧
    (∀ more, ∃ start, StartsLine text (width text) start ∧
      (ofText text).position (width text + more) =
        (((ofText text).position (width text)).1, (width text - start + more).toUInt32)) ∧
    (∀ x y, x < y → y ≤ width text →
      (Prod.Lex (· < ·) (· < ·) ((ofText text).position x) ((ofText text).position y) ↔
        ¬ Overfull text y)) ∧
    (∀ x y, x ≤ width text → y ≤ width text →
      (ofText text).position x = (ofText text).position y → x = y) ∧
    ∀ offset ≤ width text, (ofText text).offset? ((ofText text).position offset) = some offset := by
  refine ⟨fun offset => ?_, fun offset hle => ?_, fun more => ?_,
    fun x y hxy hy => LineTable.position_lt_iff hsize hxy hy, fun x y hx hy hplace => ?_,
    fun offset hle => LineTable.offset?_position hsize hle⟩
  · obtain ⟨start, h⟩ := exists_startsLine text offset
    exact ⟨start, h, LineTable.lookUp?_eq h, LineTable.position_eq h⟩
  · obtain ⟨start, h⟩ := exists_startsLine text offset
    exact ⟨start, h, LineTable.toNat_column hsize hle h, LineTable.toNat_line_iff hsize hle⟩
  · obtain ⟨start, h⟩ := exists_startsLine text (width text)
    exact ⟨start, h, LineTable.position_beyond h more⟩
  · have hoffset := LineTable.offset?_position hsize hx
    rw [hplace, LineTable.offset?_position hsize hy] at hoffset
    exact (Option.some.inj hoffset).symm

theorem places_invertible_twoLines :
    let text := "ab\ncd\n".toList
    width text < UInt32.size ∧
    [0, 2, 3, 5, 6, 9].map (ofText text).position =
      [(1, 0), (1, 2), (2, 0), (2, 2), (3, 0), (3, 3)] ∧
    (∀ more, ∃ start, StartsLine text 6 start ∧ (ofText text).position (6 + more) =
      (((ofText text).position 6).1, (6 - start + more).toUInt32)) ∧
    (∀ x y, x ≤ 6 → y ≤ 6 → (ofText text).position x = (ofText text).position y → x = y) ∧
    ∀ offset ≤ 6, (ofText text).offset? ((ofText text).position offset) = some offset := by
  intro text
  have hsize : width text < UInt32.size := by decide
  obtain ⟨-, -, hbeyond, -, hinjective, hoffset⟩ := places_invertible hsize
  exact ⟨hsize, by decide, hbeyond, hinjective, hoffset⟩

/-- After `2 ^ 32 - 1` line feeds the last offset is told to be on line 0, before all others. -/
theorem lastLine_not_told :
    let text := List.replicate (UInt32.size - 1) '\n'
    width text < UInt32.size ∧
    (ofText text).position (width text) = (0, 0) ∧
    ((ofText text).position (width text)).1.toNat ≠ feedsBefore text (width text) + 1 ∧
    ¬ Prod.Lex (· < ·) (· < ·) ((ofText text).position 0)
      ((ofText text).position (width text)) := by
  intro text
  have hwidth : width text = UInt32.size - 1 := width_lineFeeds _
  have hsize : width text < UInt32.size := by rw [hwidth]; decide
  have hoverfull : Overfull text (width text) := ⟨hwidth, rfl⟩
  refine ⟨hsize, ?_, fun hline => ?_, fun hlt => ?_⟩
  · rw [hwidth]
    exact position_lineFeeds (Nat.le_refl _)
  · exact (LineTable.toNat_line_iff hsize (Nat.le_refl _)).mp hline hoverfull
  · have hpos : 0 < width text := by rw [hwidth]; decide
    exact (LineTable.position_lt_iff hsize hpos (Nat.le_refl _)).mp hlt hoverfull

end CodePattern
