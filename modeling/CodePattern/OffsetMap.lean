import CodePattern.Edit

/-! A parsed text comes about from the caller's text by layers of edits and an
opening put in front. An offset map takes offsets of the parsed text back to the
caller's text. -/

namespace CodePattern

/-- Offsets are kept in 64 bits. -/
def wordSize : Nat := UInt64.size

/-- One halving after another, `size` entries from `base` on are searched for the end
of those that satisfy `p`. -/
def bisectFrom {α : Type} (p : α → Bool) (entries : List α) : Nat → Nat → Nat → Nat
  | 0, base, _ => base
  | fuel + 1, base, size =>
    if size ≤ 1 then
      match entries[base]? with
      | some e => if p e then base + 1 else base
      | none => base
    else
      let half := size / 2
      match entries[base + half]? with
      | some e =>
        if p e then bisectFrom p entries fuel (base + half) (size - half)
        else bisectFrom p entries fuel base (size - half)
      | none => base

def bisect {α : Type} (p : α → Bool) (entries : List α) : Nat :=
  bisectFrom p entries entries.length 0 entries.length

theorem bisectFrom_eq {α : Type} {p : α → Bool} {entries : List α} {count : Nat}
    (hp : ∀ i e, entries[i]? = some e → p e = decide (i < count)) :
    ∀ fuel base size, size ≤ fuel → base + size ≤ entries.length → base ≤ count →
      count ≤ base + size → bisectFrom p entries fuel base size = count := by
  intro fuel
  induction fuel with
  | zero =>
    intro base size hfuel _ hlow hhigh
    rw [bisectFrom]
    omega
  | succ fuel ih =>
    intro base size hfuel hlength hlow hhigh
    rw [bisectFrom]
    split
    · next hsize =>
      cases he : entries[base]? with
      | none =>
        have := List.getElem?_eq_none_iff.mp he
        simp only
        omega
      | some e =>
        have := hp base e he
        by_cases hbase : base < count <;> simp [this, hbase] <;> omega
    · next hsize =>
      have hlt : base + size / 2 < entries.length := by omega
      simp only [List.getElem?_eq_getElem hlt]
      have := hp _ _ (List.getElem?_eq_getElem hlt)
      by_cases hmid : base + size / 2 < count
      · simp only [this, hmid, decide_true, if_true]
        exact ih _ _ (by omega) (by omega) (by omega) (by omega)
      · simp only [this, hmid, decide_false, Bool.false_eq_true, if_false]
        exact ih _ _ (by omega) (by omega) (by omega) (by omega)

/-- The search counts the entries that satisfy `p` when all of them come first. -/
theorem bisect_append {α : Type} {p : α → Bool} {s t : List α} (hs : ∀ e ∈ s, p e = true)
    (ht : ∀ e ∈ t, p e = false) : bisect p (s ++ t) = s.length := by
  refine bisectFrom_eq ?_ _ _ _ (Nat.le_refl _) (by simp) (by simp) (by simp)
  intro i e he
  by_cases hi : i < s.length
  · rw [List.getElem?_append_left hi] at he
    simp [hs e (List.mem_of_getElem? he), hi]
  · rw [List.getElem?_append_right (by omega)] at he
    simp [ht e (List.mem_of_getElem? he), hi]

/-- Takes an offset back through one layer of edits, which are in order. Inside a
replacement, every offset but its start goes to the end of what was replaced. -/
def throughLayer (edits : List Edit) (offset : Nat) : Nat :=
  match bisect (·.newStart ≤ offset) edits with
  | 0 => offset
  | n + 1 =>
    match edits[n]? with
    | none => offset
    | some e =>
      if e.newStop ≤ offset then (offset - e.newStop + e.oldStop) % wordSize
      else if offset = e.newStart then e.oldStart
      else e.oldStop

/-- The length of the opening, the layers from first to last, and the length of the
caller's text. -/
structure OffsetMap where
  opening : Nat
  layers : List (List Edit)
  limit : Nat
  deriving DecidableEq, Repr

namespace OffsetMap

def identity (limit : Nat) : OffsetMap := ⟨0, [], limit⟩

def withOpening (m : OffsetMap) (opening : Nat) : OffsetMap := { m with opening }

/-- Puts a layer after the others. A layer without edits changes nothing. -/
def push (m : OffsetMap) (edits : List Edit) : OffsetMap :=
  if edits.isEmpty then m else { m with layers := m.layers ++ [edits] }

/-- The offset of the caller's text for an offset of the parsed text. The opening goes
to the start of the text and whatever lies beyond the text to its end. -/
def locate (m : OffsetMap) (offset : Nat) : Nat :=
  min (m.layers.foldr throughLayer (offset - m.opening)) m.limit

end OffsetMap

end CodePattern
