import CodePattern.Proofs.Lexical
import CodePattern.Proofs.Position
import Mathlib.Data.List.TakeWhile

/-! The syntax of patterns: metavariables, written with as long a name as possible, and
bare ellipses in PHP. -/

namespace CodePattern

namespace Lexical

def dots : List Char := ['.', '.', '.']

/-- A name of a metavariable that is not continued by the text after it. -/
def NameBefore (name rest : List Char) : Prop :=
  isMetavariableName name = true ∧ ∀ c ∈ rest.head?, isWordChar c = false

/-- A metavariable, or an ellipsis metavariable, and the text after it. -/
inductive Named (family : Family) : List Char → List Char → Prop
  | metavariable {name rest : List Char} (hf : family = .python) (h : NameBefore name rest) :
      Named family ('$' :: name) rest
  | ellipsis {name rest : List Char} (h : NameBefore name rest) :
      Named family ('$' :: (dots ++ name)) rest

/-- Three dots that spread nothing, and the text after them. -/
def Bare (family : Family) (written rest : List Char) : Prop :=
  family = .php ∧ written = dots ∧ ∀ c ∈ rest.head?, c ≠ '$' ∧ isWordChar c = false

def Syntax (family : Family) (written rest : List Char) : Prop :=
  Named family written rest ∨ Bare family written rest

def Dull (family : Family) (text after : List Char) : Prop :=
  ∀ s t, text = s ++ t → t ≠ [] → ∀ written rest, t ++ after = written ++ rest →
    ¬ Syntax family written rest

theorem isWordChar_of_isNameRest {c : Char} (h : isNameRest c = true) : isWordChar c = true := by
  show (((c.isUpper || c.isLower) || c.isDigit) || c == '_') = true
  simp only [isNameRest, Bool.or_eq_true] at h ⊢
  rcases h with (h | h) | h
  · exact .inl (.inl (.inl h))
  · exact .inl (.inr h)
  · exact .inr h

theorem isNameRest_of_isNameStart {c : Char} (h : isNameStart c = true) : isNameRest c = true := by
  simp only [isNameStart, isNameRest, Bool.or_eq_true] at h ⊢
  rcases h with h | h
  · exact .inl (.inl h)
  · exact .inr h

theorem all_word_of_name {name : List Char} (h : isMetavariableName name = true) :
    ∀ c ∈ name, isWordChar c = true := by
  cases name with
  | nil => simp
  | cons d name =>
    simp only [isMetavariableName, Bool.and_eq_true, List.all_eq_true] at h
    intro c hc
    rcases List.mem_cons.mp hc with rfl | hc
    · exact isWordChar_of_isNameRest (isNameRest_of_isNameStart h.1)
    · exact isWordChar_of_isNameRest (h.2 c hc)

theorem not_opener_of_word {c : Char} (h : isWordChar c = true) : isOpener c = false := by
  rw [Bool.eq_false_iff]
  intro ho
  simp only [isOpener, Bool.or_eq_true, beq_iff_eq] at ho
  rcases ho with ((rfl | rfl) | rfl) | rfl <;> exact absurd h (by decide)

theorem word_of_nameBefore {name rest : List Char} (h : NameBefore name rest) :
    word (name ++ rest) = name := by
  rw [word, List.takeWhile_append_of_pos (all_word_of_name h.1)]
  cases rest with
  | nil => simp
  | cons c rest => simp [h.2 c rfl]

theorem take_word (cs : List Char) : cs.take (word cs).length = word cs :=
  (List.prefix_iff_eq_take.mp (List.takeWhile_prefix _)).symm

theorem take_dots_word (more : List Char) :
    (dots ++ more).take (3 + (word more).length) = dots ++ word more := by
  rw [show 3 = dots.length from rfl, List.take_length_add_append, take_word]

theorem drop_word (cs : List Char) : cs.drop (word cs).length = cs.dropWhile isWordChar := by
  calc cs.drop (word cs).length
      = (cs.takeWhile isWordChar ++ cs.dropWhile isWordChar).drop
          (cs.takeWhile isWordChar).length := by rw [List.takeWhile_append_dropWhile, word]
    _ = cs.dropWhile isWordChar := List.drop_left

theorem nameBefore_word {cs : List Char} (h : isMetavariableName (word cs) = true) :
    NameBefore (word cs) (cs.drop (word cs).length) := by
  refine ⟨h, fun c hc => ?_⟩
  have hhead := List.head?_dropWhile_not isWordChar cs
  rw [← drop_word, Option.mem_def.mp hc] at hhead
  simpa using hhead

theorem Named.exists_cons {family : Family} {written rest : List Char}
    (h : Named family written rest) : ∃ w, written = '$' :: w := by
  cases h with
  | metavariable => exact ⟨_, rfl⟩
  | ellipsis => exact ⟨_, rfl⟩

theorem not_dots_of_name {name rest cs : List Char} (h : isMetavariableName name = true) :
    name ++ rest ≠ dots ++ cs := by
  intro he
  cases name with
  | nil => simp [isMetavariableName] at h
  | cons c name =>
    obtain ⟨rfl, -⟩ := List.cons.inj he
    exact absurd (all_word_of_name h '.' List.mem_cons_self) (by decide)

theorem Named.unique {family : Family} {written written' rest rest' : List Char}
    (h : Named family written rest) (h' : Named family written' rest')
    (he : written ++ rest = written' ++ rest') : written = written' := by
  cases h with
  | metavariable hf hn =>
    cases h' with
    | metavariable hf' hn' =>
      simp only [List.cons_append, List.cons.injEq, true_and] at he
      rw [← word_of_nameBefore hn, he, word_of_nameBefore hn']
    | ellipsis hn' =>
      simp only [List.cons_append, List.cons.injEq, true_and, List.append_assoc] at he
      exact absurd he (not_dots_of_name hn.1)
  | ellipsis hn =>
    cases h' with
    | metavariable hf' hn' =>
      simp only [List.cons_append, List.cons.injEq, true_and, List.append_assoc] at he
      exact absurd he.symm (not_dots_of_name hn'.1)
    | ellipsis hn' =>
      simp only [List.cons_append, List.cons.injEq, true_and, List.append_assoc] at he
      have he := List.append_cancel_left he
      rw [← word_of_nameBefore hn, he, word_of_nameBefore hn']

theorem Syntax.cases {family : Family} {written rest : List Char} (h : Syntax family written rest) :
    (∃ w, written = '$' :: w) ∨ family = .php ∧ written = dots := by
  rcases h with h | ⟨hf, hw, -⟩
  · exact .inl h.exists_cons
  · exact .inr ⟨hf, hw⟩

theorem Syntax.exists_cons {family : Family} {written rest : List Char}
    (h : Syntax family written rest) : ∃ c w, written = c :: w ∧ (c = '$' ∨ c = '.') := by
  rcases h.cases with ⟨w, rfl⟩ | ⟨-, rfl⟩
  · exact ⟨'$', w, rfl, .inl rfl⟩
  · exact ⟨'.', ['.', '.'], rfl, .inr rfl⟩

theorem Syntax.tail {family : Family} {c : Char} {w rest : List Char}
    (h : Syntax family (c :: w) rest) : ∀ d ∈ w, d = '.' ∨ isWordChar d = true := by
  intro d hd
  rcases h with h | ⟨-, hw, -⟩
  · cases h with
    | metavariable _ h => exact .inr (all_word_of_name h.1 d hd)
    | ellipsis h =>
      rcases List.mem_append.mp hd with hd | hd
      · exact .inl (by simpa [dots] using hd)
      · exact .inr (all_word_of_name h.1 d hd)
  · obtain ⟨-, rfl⟩ := List.cons.inj hw
    exact .inl (by simpa using hd)

theorem Syntax.tail_not_opener {family : Family} {c : Char} {w rest : List Char}
    (h : Syntax family (c :: w) rest) : ∀ d ∈ w, isOpener d = false := by
  intro d hd
  rcases h.tail d hd with rfl | hd
  · rfl
  · exact not_opener_of_word hd

theorem Syntax.unique {family : Family} {written written' rest rest' : List Char}
    (h : Syntax family written rest) (h' : Syntax family written' rest')
    (he : written ++ rest = written' ++ rest') : written = written' := by
  have hfirst : ∀ {w after after'}, Named family w after → w ++ after ≠ dots ++ after' := by
    intro w after after' hw he
    obtain ⟨w', rfl⟩ := hw.exists_cons
    exact absurd (List.cons.inj he).1 (by decide)
  rcases h with h | ⟨-, rfl, -⟩
  · rcases h' with h' | ⟨-, rfl, -⟩
    · exact h.unique h' he
    · exact absurd he (hfirst h)
  · rcases h' with h' | ⟨-, rfl, -⟩
    · exact absurd he.symm (hfirst h')
    · rfl

theorem dull_nil (family : Family) (after : List Char) : Dull family [] after := by
  intro s t h ht
  exact absurd (List.append_eq_nil_iff.mp h.symm).2 ht

theorem dull_cons {family : Family} {c : Char} {text after : List Char}
    (hc : ∀ written rest, c :: (text ++ after) = written ++ rest → ¬ Syntax family written rest)
    (h : Dull family text after) : Dull family (c :: text) after := by
  intro s t he ht
  cases s with
  | nil =>
    obtain rfl : c :: text = t := he
    exact hc
  | cons x s => exact h s t (List.cons.inj he).2 ht

theorem dull_word {family : Family} {name : List Char} (h : ∀ c ∈ name, isWordChar c = true)
    (after : List Char) : Dull family name after := by
  induction name with
  | nil => exact dull_nil family after
  | cons c name ih =>
    refine dull_cons ?_ (ih (fun d hd => h d (List.mem_cons_of_mem _ hd)))
    intro written rest he hs
    obtain ⟨d, w, rfl, hd⟩ := hs.exists_cons
    obtain rfl := (List.cons.inj he).1
    have hword := h c List.mem_cons_self
    rcases hd with rfl | rfl <;> exact absurd hword (by decide)

theorem word_all (cs : List Char) : ∀ c ∈ word cs, isWordChar c = true :=
  fun _ hc => List.mem_takeWhile_imp hc

/-- A part of the text that stands in code, with its place in octets. -/
def Stands (family : Family) (text : List Char) (written : List Char → List Char → Prop)
    (start stop : Nat) : Prop :=
  ∃ before part after, Code family text before (part ++ after) ∧ written part after ∧
    start = width before ∧ stop = start + width part

/-- Pattern syntax that is met when the text is read from the left. A bare ellipsis is
met unless it begins within syntax that was met before. -/
def Met (family : Family) (text : List Char) (start stop : Nat) : Prop :=
  Stands family text (Named family) start stop ∨
    Stands family text (Bare family) start stop ∧
      ∀ earlier, (_ : earlier < start) → ∀ stop', start < stop' → ¬ Met family text earlier stop'
termination_by start

namespace Stands

variable {family : Family} {text : List Char} {written written' : List Char → List Char → Prop}
  {start start' stop stop' : Nat}

theorem imp (h : Stands family text written start stop)
    (himp : ∀ {part after}, written part after → written' part after) :
    Stands family text written' start stop := by
  obtain ⟨before, part, after, hcode, hpart, hends⟩ := h
  exact ⟨before, part, after, hcode, himp hpart, hends⟩

theorem lt (h : Stands family text (Syntax family) start stop) : start < stop := by
  obtain ⟨before, part, after, -, hpart, rfl, rfl⟩ := h
  obtain ⟨c, w, rfl, -⟩ := hpart.exists_cons
  have := c.utf8Size_pos
  rw [width_cons]
  omega

theorem named_or_bare (h : Stands family text (Syntax family) start stop) :
    Stands family text (Named family) start stop ∨ Stands family text (Bare family) start stop := by
  obtain ⟨before, part, after, hcode, hpart | hpart, hends⟩ := h
  · exact .inl ⟨before, part, after, hcode, hpart, hends⟩
  · exact .inr ⟨before, part, after, hcode, hpart, hends⟩

theorem stop_unique (h : Stands family text (Syntax family) start stop)
    (h' : Stands family text (Syntax family) start stop') : stop = stop' := by
  obtain ⟨before, part, after, hcode, hpart, rfl, rfl⟩ := h
  obtain ⟨before', part', after', hcode', hpart', hstart, rfl⟩ := h'
  obtain ⟨-, he⟩ := append_inj_of_width (hcode.text_eq.symm.trans hcode'.text_eq) hstart
  rw [hpart.unique hpart' he]

/-- No metavariable begins within other pattern syntax. -/
theorem start_eq_of_named (h : Stands family text (Syntax family) start stop)
    (h' : Stands family text (Named family) start' stop') (hle : start ≤ start')
    (hlt : start' < stop) : start = start' := by
  obtain ⟨before, part, after, hcode, hpart, rfl, rfl⟩ := h
  obtain ⟨before', part', after', hcode', hpart', rfl, -⟩ := h'
  obtain ⟨w, rfl⟩ := hpart'.exists_cons
  obtain ⟨mid, rfl, he⟩ :=
    append_split_of_width (hcode.text_eq.symm.trans hcode'.text_eq) hle
  rw [width_append, Nat.add_lt_add_iff_left] at hlt
  obtain ⟨tail, rfl, hrest⟩ := append_split_of_width he.symm (Nat.le_of_lt hlt)
  cases mid with
  | nil => simp
  | cons c mid =>
    cases tail with
    | nil => simp at hlt
    | cons d tail =>
      obtain rfl := (List.cons.inj hrest).1
      rcases hpart.tail '$' (by simp) with h | h <;> exact absurd h (by decide)

end Stands

end Lexical

end CodePattern
