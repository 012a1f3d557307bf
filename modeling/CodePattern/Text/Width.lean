/-! Texts are lists of characters, while positions in them are counted in octets
of UTF-8. A slice between two positions exists exactly when both lie between
characters. -/

namespace CodePattern

def width : List Char → Nat
  | [] => 0
  | c :: cs => c.utf8Size + width cs

@[simp] theorem width_nil : width [] = 0 := rfl

@[simp] theorem width_cons (c : Char) (cs : List Char) :
    width (c :: cs) = c.utf8Size + width cs := rfl

@[simp] theorem width_append (s t : List Char) : width (s ++ t) = width s + width t := by
  induction s with
  | nil => simp
  | cons c s ih => simp [ih, Nat.add_assoc]

theorem length_le_width (cs : List Char) : cs.length ≤ width cs := by
  induction cs with
  | nil => simp
  | cons c cs ih =>
    have hc := c.utf8Size_pos
    simp only [width_cons, List.length_cons]
    omega

/-- What is left of a text after its first `n` octets, if a character ends there. -/
def dropWidth? : Nat → List Char → Option (List Char)
  | 0, cs => some cs
  | _ + 1, [] => none
  | n + 1, c :: cs =>
    if c.utf8Size ≤ n + 1 then dropWidth? (n + 1 - c.utf8Size) cs else none

/-- The first `n` octets of a text, if a character ends there. -/
def takeWidth? : Nat → List Char → Option (List Char)
  | 0, _ => some []
  | _ + 1, [] => none
  | n + 1, c :: cs =>
    if c.utf8Size ≤ n + 1 then (takeWidth? (n + 1 - c.utf8Size) cs).map (c :: ·) else none

def slice? (text : List Char) (start stop : Nat) : Option (List Char) :=
  if start ≤ stop then (dropWidth? start text).bind (takeWidth? (stop - start)) else none

theorem dropWidth?_width (s t : List Char) : dropWidth? (width s) (s ++ t) = some t := by
  induction s with
  | nil => cases t <;> rfl
  | cons c s ih =>
    have hc := c.utf8Size_pos
    obtain ⟨n, hn⟩ : ∃ n, width (c :: s) = n + 1 := ⟨width (c :: s) - 1, by simp; omega⟩
    have hrest : n + 1 - c.utf8Size = width s := by rw [← hn]; simp
    rw [hn, List.cons_append, dropWidth?, if_pos (by simp at hn; omega), hrest, ih]

theorem takeWidth?_width (s t : List Char) : takeWidth? (width s) (s ++ t) = some s := by
  induction s with
  | nil => cases t <;> rfl
  | cons c s ih =>
    have hc := c.utf8Size_pos
    obtain ⟨n, hn⟩ : ∃ n, width (c :: s) = n + 1 := ⟨width (c :: s) - 1, by simp; omega⟩
    have hrest : n + 1 - c.utf8Size = width s := by rw [← hn]; simp
    rw [hn, List.cons_append, takeWidth?, if_pos (by simp at hn; omega), hrest, ih]
    rfl

theorem slice?_width (s t u : List Char) :
    slice? (s ++ t ++ u) (width s) (width s + width t) = some t := by
  rw [slice?, if_pos (by omega), List.append_assoc, dropWidth?_width, Option.bind_some,
    Nat.add_sub_cancel_left, takeWidth?_width]

end CodePattern
