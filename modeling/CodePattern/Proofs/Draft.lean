import CodePattern.Indentation
import CodePattern.Proofs.AsciiOctets
import CodePattern.Proofs.Copying
import CodePattern.Proofs.WayBack

/-! How a new text is put together from slices of an old one. A draft copies the old text up to a
place and replaces what stands there, and such slices exist only between characters. -/

namespace CodePattern

/-- A new text in the making: what there is of it, its edits, and the offset up to which the old
text has been used. -/
structure Draft where
  text : List Char
  edits : List Edit
  copied : Nat
  deriving DecidableEq, Repr

namespace Draft

def empty : Draft := ⟨[], [], 0⟩

/-- Copies the old text up to `start` and puts the new text for the octets up to `stop`. -/
def replace? (source : List Char) (d : Draft) (start stop : Nat) (new : List Char) :
    Option Draft :=
  (slice? source d.copied start).map fun gap =>
    let newStart := width d.text + width gap
    ⟨d.text ++ gap ++ new, d.edits ++ [⟨newStart, newStart + width new, start, stop⟩], stop⟩

def finish? (source : List Char) (d : Draft) : Option Revision :=
  (slice? source d.copied (width source)).map fun gap => ⟨d.text ++ gap, d.edits⟩

/-- The draft is what the segments make of the old text, but for a part that is yet to be
copied. -/
def Holds (d : Draft) (segments : List Segment) : Prop :=
  ∃ used pending, textBefore segments = used ++ pending ∧ width used = d.copied ∧
    textAfter segments = d.text ++ pending ∧ d.edits = editsOf segments

variable {d : Draft} {segments more : List Segment} {source old rest : List Char}

theorem holds_empty : empty.Holds [] := ⟨[], [], rfl, rfl, rfl, rfl⟩

theorem Holds.copies (more : List Segment) (h : d.Holds segments)
    (hmore : ∀ s ∈ more, ∃ t, s = Segment.copied t) :
    d.Holds (segments ++ more) := by
  obtain ⟨used, pending, hbefore, hused, hafter, hedits⟩ := h
  have hsame := textAfter_of_copied hmore
  refine ⟨used, pending ++ textBefore more, ?_, hused, ?_, ?_⟩
  · rw [textBefore, List.flatMap_append, ← textBefore, hbefore, List.append_assoc]
    rfl
  · rw [textAfter, List.flatMap_append, ← textAfter, hafter, List.append_assoc]
    exact congrArg _ (congrArg _ hsame)
  · rw [hedits, editsOf, editsOf, editsFrom_append, editsFrom_of_copied hmore, List.append_nil]

theorem Holds.replace? (h : d.Holds segments)
    (hsource : source = textBefore segments ++ old ++ rest) (new : List Char) :
    ∃ d', d.replace? source (width (textBefore segments))
        (width (textBefore segments) + width old) new = some d' ∧
      d'.Holds (segments ++ [.replaced old new]) := by
  obtain ⟨used, pending, hbefore, hused, hafter, hedits⟩ := h
  have hslice : slice? source d.copied (width (textBefore segments)) = some pending := by
    rw [hsource, hbefore, List.append_assoc _ old rest, ← hused]
    exact slice?_part used pending (old ++ rest)
  have hwidth : width (textAfter segments) = width d.text + width pending := by
    rw [hafter, width_append]
  refine ⟨_, by rw [Draft.replace?, hslice, Option.map_some], textBefore segments ++ old, [],
    ?_, ?_, ?_, ?_⟩
  · simp [textBefore]
  · rw [width_append]
  · simp [textAfter, ← hafter]
  · rw [editsOf, editsFrom_append, Nat.zero_add, Nat.zero_add, hwidth, hedits]
    rfl

theorem Holds.finish? (h : d.Holds segments) (hsource : source = textBefore segments) :
    d.finish? source = some (.ofSegments segments) := by
  obtain ⟨used, pending, hbefore, hused, hafter, hedits⟩ := h
  have hslice : slice? source d.copied (width source) = some pending := by
    have hpart := slice?_part used pending []
    rwa [List.append_nil, ← hbefore, ← hsource, hused] at hpart
  rw [Draft.finish?, hslice, Option.map_some, Revision.ofSegments, hafter, hedits]

end Draft

namespace Indentation

def isIndentOctet (b : UInt8) : Bool := b == octet ' ' || b == octet '\t'

def leadingOctets (line : List Char) : Nat := ((octets line).takeWhile isIndentOctet).length

/-- Drafts a piece that begins at `start` without up to `strip` octets of its indentation. -/
def draftPiece? (source : List Char) (strip start : Nat) (d : Draft) (piece : List Char) :
    Option Draft :=
  let lost := min (leadingOctets piece) strip
  if 0 < lost then d.replace? source start (start + lost) [] else some d

def draftPieces? (source : List Char) (strip : Nat) : Nat → Draft → List (List Char) → Option Draft
  | _, d, [] => some d
  | start, d, piece :: ps =>
    (draftPiece? source strip start d piece).bind fun d =>
      draftPieces? source strip (start + width piece) d ps

/-- Removes the common indentation by drafts, unless a slice that is needed is missing. -/
def draft? (text : List Char) : Option (Option Revision) :=
  match (((lines text).filter (fun l => !allBlank l)).map leadingOctets).min? with
  | none => some none
  | some 0 => some none
  | some (n + 1) =>
    ((draftPieces? text (n + 1) 0 .empty (pieces text)).bind (·.finish? text)).map some

theorem isAscii_of_isIndent {c : Char} (h : isIndent c = true) : IsAscii c := by
  rw [isIndent, Bool.or_eq_true, beq_iff_eq, beq_iff_eq] at h
  rcases h with rfl | rfl <;> decide

theorem isIndentOctet_eq {b : UInt8} {c : Char} (hb : b ∈ octetsOf c) :
    isIndentOctet b = isIndent c := by
  rw [isIndentOctet, isIndent, Bool.eq_iff_iff, Bool.or_eq_true, Bool.or_eq_true, beq_iff_eq,
    beq_iff_eq, beq_iff_eq, beq_iff_eq, eq_octet_iff (by decide) hb, eq_octet_iff (by decide) hb]

theorem mem_takeWhile_isIndent {c : Char} {line : List Char} (h : c ∈ line.takeWhile isIndent) :
    IsAscii c :=
  isAscii_of_isIndent (List.all_eq_true.mp List.all_takeWhile c h)

theorem leadingOctets_eq (line : List Char) : leadingOctets line = leading line := by
  rw [leadingOctets, length_takeWhile_octets (fun _ _ hb => isIndentOctet_eq hb), leading,
    width_ascii fun c hc => mem_takeWhile_isIndent hc]

theorem width_take_of_le_leading {n : Nat} {line : List Char} (h : n ≤ leading line) :
    width (line.take n) = n := by
  have hlength : n ≤ (line.takeWhile isIndent).length := h
  have htake : line.take n = (line.takeWhile isIndent).take n := by
    conv_lhs => rw [← List.takeWhile_append_dropWhile (p := isIndent) (l := line)]
    exact List.take_append_of_le_length hlength
  rw [htake, width_ascii fun c hc => mem_takeWhile_isIndent (List.mem_of_mem_take hc),
    List.length_take_of_le hlength]

theorem textBefore_stripSegments (strip : Nat) (piece : List Char) :
    textBefore (stripSegments strip piece) = piece := by
  rw [stripSegments]
  split <;> simp [textBefore]

variable {source rest piece : List Char} {ps : List (List Char)} {d : Draft}
  {segments : List Segment}

theorem draftPiece?_holds (strip : Nat) (h : d.Holds segments)
    (hsource : source = textBefore segments ++ (piece ++ rest)) :
    ∃ d', draftPiece? source strip (width (textBefore segments)) d piece = some d' ∧
      d'.Holds (segments ++ stripSegments strip piece) := by
  have hle := Nat.min_le_left (leading piece) strip
  rw [draftPiece?, leadingOctets_eq, stripSegments]
  generalize min (leading piece) strip = lost at hle ⊢
  rcases lost with _ | n
  · exact ⟨d, rfl, h.copies _ (by simp)⟩
  · have hsource' : source =
        textBefore segments ++ piece.take (n + 1) ++ (piece.drop (n + 1) ++ rest) := by
      rw [hsource, List.append_assoc, ← List.append_assoc (piece.take (n + 1)),
        List.take_append_drop]
    obtain ⟨d', hd', hholds⟩ := h.replace? hsource' []
    rw [width_take_of_le_leading hle] at hd'
    have hcopies := hholds.copies [.copied (piece.drop (n + 1))] (by simp)
    rw [List.append_assoc] at hcopies
    exact ⟨d', by rw [if_pos n.succ_pos, hd'], hcopies⟩

theorem draftPieces?_holds (strip : Nat) (h : d.Holds segments)
    (hsource : source = textBefore segments ++ ps.flatten) :
    ∃ d', draftPieces? source strip (width (textBefore segments)) d ps = some d' ∧
      d'.Holds (segments ++ ps.flatMap (stripSegments strip)) := by
  induction ps generalizing d segments with
  | nil => exact ⟨d, rfl, by rwa [List.flatMap_nil, List.append_nil]⟩
  | cons piece ps ih =>
    have hbefore : textBefore (segments ++ stripSegments strip piece) =
        textBefore segments ++ piece := by
      rw [textBefore, List.flatMap_append, ← textBefore, ← textBefore, textBefore_stripSegments]
    obtain ⟨d', hd', hholds⟩ := draftPiece?_holds strip h hsource
    obtain ⟨d'', hd'', hdone⟩ := ih hholds (by rw [hsource, hbefore, List.append_assoc]; rfl)
    refine ⟨d'', ?_, ?_⟩
    · rw [draftPieces?, hd', Option.bind_some, ← width_append, ← hbefore, hd'']
    · rwa [List.flatMap_cons, ← List.append_assoc]

/-- No slice is missing when the common indentation is removed. -/
theorem draft?_eq (text : List Char) : draft? text = some (remove? text) := by
  have hcommon : (((lines text).filter (fun l => !allBlank l)).map leadingOctets).min? =
      common? text := by
    rw [common?, show leadingOctets = leading from funext leadingOctets_eq]
  rw [draft?, hcommon, remove?]
  rcases common? text with _ | _ | n
  · rfl
  · rfl
  · obtain ⟨d, hd, hholds⟩ := draftPieces?_holds (n + 1) Draft.holds_empty
      (flatten_pieces text).symm
    have hfinish : d.finish? text = some (.ofSegments (segments (n + 1) text)) :=
      hholds.finish? (textBefore_segments _ _).symm
    show ((draftPieces? text (n + 1) 0 .empty (pieces text)).bind (·.finish? text)).map some = _
    rw [show draftPieces? text (n + 1) 0 .empty (pieces text) = some d from hd, Option.bind_some,
      hfinish]
    rfl

end Indentation

end CodePattern
