import CodePattern.Proofs.Restoration

/-! Identifiers in the program of a candidate. An identifier is a run of characters that
cannot be made longer. Where a placeholder stands alone, an identifier that overlaps it is
the placeholder, and whatever overlaps no placeholder stands in the text that was given. -/

namespace CodePattern

namespace Segment

theorem Restores.cons {segments : List Segment} {start stop : Nat} {part : List Char}
    (h : Restores segments start stop part) (s : Segment) :
    Restores (s :: segments) (width s.new + start) (width s.new + stop) part := by
  obtain ⟨before, after, htext, hstart, hstop⟩ := h
  have hback : ∀ offset, back (s :: segments) (width s.new + offset) =
      width s.old + back segments offset := by
    intro offset
    cases s with
    | copied text => exact back_copied text segments offset
    | replaced old new => exact back_replaced old new segments offset
  refine ⟨s.old ++ before, after, by simp [htext], ?_, ?_⟩
  · rw [hback, hstart, width_append]
  · rw [hback, hstop, List.append_assoc, width_append s.old]

/-- The part overlaps the new text of a replacement. -/
def Overlaps (segments : List Segment) (start stop : Nat) : Prop :=
  ∃ before old new after, segments = before ++ .replaced old new :: after ∧
    width (textAfter before) < stop ∧ start < width (textAfter before) + width new

theorem Overlaps.cons {segments : List Segment} {start stop : Nat}
    (h : Overlaps segments start stop) (s : Segment) :
    Overlaps (s :: segments) (width s.new + start) (width s.new + stop) := by
  obtain ⟨before, old, new, after, rfl, hstart, hstop⟩ := h
  refine ⟨s :: before, old, new, after, rfl, ?_, ?_⟩ <;>
    rw [textAfter_cons, width_append] <;> omega

theorem Overlaps.exists_edit {segments : List Segment} {start stop : Nat}
    (h : Overlaps segments start stop) :
    ∃ e ∈ editsOf segments, e.newStart < stop ∧ start < e.newStop := by
  obtain ⟨before, old, new, after, rfl, hstart, hstop⟩ := h
  rw [editsOf, editsFrom_append, editsFrom]
  exact ⟨_, List.mem_append_right _ List.mem_cons_self, by simpa using hstart, by simpa using hstop⟩

section Copied

variable {segments : List Segment} {before part more : List Char}

theorem restores_within (hzero : back segments 0 = 0) (hpart : part ≠ []) :
    Restores (.copied (before ++ (part ++ more)) :: segments) (width before)
      (width (before ++ part)) part := by
  have hpos := width_pos hpart
  refine ⟨before, more ++ textBefore segments, by simp, ?_, ?_⟩
  · rw [back, if_pos (by simp only [width_append]; omega)]
  · rw [← List.append_assoc]
    by_cases hmore : more = []
    · have hback := back_copied (before ++ part) segments 0
      rw [hzero] at hback
      simpa [hmore] using hback
    · have := width_pos hmore
      rw [back, if_pos (by rw [width_append _ more]; omega)]

theorem restores_across (hzero : back segments 0 = 0) (hpart : part ≠ [])
    (h : Restores segments 0 (width more) more) :
    Restores (.copied (before ++ part) :: segments) (width before)
      (width (before ++ (part ++ more))) (part ++ more) := by
  have hpos := width_pos hpart
  obtain ⟨first, last, htext, hstart, hstop⟩ := h
  obtain rfl : first = [] := eq_nil_of_width (hstart.symm.trans hzero)
  refine ⟨before, last, by simp [htext], ?_, ?_⟩
  · rw [back, if_pos (by rw [width_append]; omega)]
  · rw [← List.append_assoc, width_append _ more, back_copied, hstop]
    simp [Nat.add_assoc]

end Copied

theorem restores_or_overlaps {segments : List Segment} (hnew : ∀ s ∈ segments, s.new ≠ [])
    {before part after : List Char} (h : textAfter segments = before ++ (part ++ after))
    (hpart : part ≠ []) :
    Restores segments (width before) (width (before ++ part)) part ∨
      Overlaps segments (width before) (width (before ++ part)) := by
  induction segments generalizing before part with
  | nil =>
    have hnil := List.append_eq_nil_iff.mp (List.append_eq_nil_iff.mp h.symm).2
    exact absurd hnil.1 hpart
  | cons s segments ih =>
    have hrestNew : ∀ s ∈ segments, s.new ≠ [] := fun s hs => hnew s (List.mem_cons_of_mem _ hs)
    have hzero := back_zero hrestNew
    rw [textAfter_cons] at h
    by_cases hle : width s.new ≤ width before
    · obtain ⟨mid, rfl, hmid⟩ := append_split_of_width h hle
      rw [List.append_assoc, width_append, width_append s.new]
      exact (ih hrestNew hmid hpart).imp (Restores.cons · s) (Overlaps.cons · s)
    · cases s with
      | replaced old new =>
        have hpos := width_pos hpart
        refine .inr ⟨[], old, new, segments, rfl, ?_, ?_⟩
        · rw [width_append]
          exact Nat.lt_of_lt_of_le hpos (Nat.le_add_left _ _)
        · simpa [textAfter] using hle
      | copied text =>
        rw [new_copied] at h hle
        obtain ⟨tail, rfl, hrest⟩ := append_split_of_width h.symm (by omega)
        have htail : tail ≠ [] := by
          rintro rfl
          simp at hle
        by_cases hle' : width part ≤ width tail
        · obtain ⟨more, rfl, -⟩ := append_split_of_width hrest hle'
          exact .inl (restores_within hzero hpart)
        · -- The part goes on after the copied text, and there it begins at once.
          obtain ⟨more, rfl, hmore⟩ := append_split_of_width hrest.symm (by omega)
          have hne : more ≠ [] := by
            rintro rfl
            simp at hle'
          have hbegin : textAfter segments = [] ++ (more ++ after) := hmore
          rcases ih hrestNew hbegin hne with hrestores | hoverlaps
          · exact .inl (restores_across hzero htail hrestores)
          · obtain ⟨b, old, new, a, he, hstart, hstop⟩ := hoverlaps.cons (.copied (before ++ tail))
            refine .inr ⟨b, old, new, a, he, ?_, ?_⟩
            · simpa [Nat.add_assoc] using hstart
            · simp only [new_copied, width_append, width_nil] at hstop
              omega

end Segment

/-- A part of a program that is foreign to the wrapping stands in the body. -/
theorem part_inside {opening body closing before part after : List Char}
    (h : opening ++ body ++ closing = before ++ (part ++ after)) (hpart : part ≠ [])
    (hopening : ∀ c ∈ part.head?, c ∉ opening) (hclosing : ∀ c ∈ part, c ∉ closing) :
    ∃ b a, body = b ++ (part ++ a) ∧ before = opening ++ b ∧ after = a ++ closing := by
  obtain ⟨c, part, rfl⟩ := List.exists_cons_of_ne_nil hpart
  have hfirst : c ∉ closing := hclosing c List.mem_cons_self
  rw [List.append_assoc] at h
  obtain ⟨b, rfl, hb⟩ :
      ∃ b, before = opening ++ b ∧ body ++ closing = b ++ (c :: part ++ after) := by
    rcases List.append_eq_append_iff.mp h with ⟨b, rfl, hb⟩ | ⟨mid, rfl, hmid⟩
    · exact ⟨b, rfl, hb⟩
    · cases mid with
      | nil => exact ⟨[], by simp, hmid.symm⟩
      | cons d mid =>
        obtain rfl := (List.cons.inj hmid).1
        exact absurd (by simp) (hopening c rfl)
  obtain ⟨rest, rfl, hrest⟩ : ∃ rest, body = b ++ rest ∧ c :: part ++ after = rest ++ closing := by
    rcases List.append_eq_append_iff.mp hb with ⟨mid, rfl, rfl⟩ | ⟨rest, rfl, hrest⟩
    · exact absurd (by simp) hfirst
    · exact ⟨rest, rfl, hrest⟩
  rcases List.append_eq_append_iff.mp hrest with ⟨a, rfl, rfl⟩ | ⟨mid, hmid, rfl⟩
  · exact ⟨b, a, rfl, rfl, rfl⟩
  · cases mid with
    | nil => exact ⟨b, [], by simp [hmid], rfl, by simp⟩
    | cons d mid => exact absurd (by simp) (hclosing d (by simp [hmid]))

section Common

variable {before part after before' part' after' : List Char}

theorem exists_mem_of_overlap (hne : part' ≠ [])
    (h : before ++ (part ++ after) = before' ++ (part' ++ after'))
    (hle : width before ≤ width before') (hlt : width before' < width (before ++ part)) :
    ∃ c ∈ part, c ∈ part' := by
  obtain ⟨mid, rfl, hmid⟩ := append_split_of_width h hle
  simp only [width_append, Nat.add_lt_add_iff_left] at hlt
  obtain ⟨rest, rfl, hrest⟩ := append_split_of_width hmid.symm (Nat.le_of_lt hlt)
  cases rest with
  | nil => simp at hlt
  | cons c rest =>
    obtain ⟨d, part', rfl⟩ := List.exists_cons_of_ne_nil hne
    obtain rfl := (List.cons.inj hrest).1
    exact ⟨d, by simp, by simp⟩

theorem exists_common_of_overlap (hpart : part ≠ []) (hpart' : part' ≠ [])
    (h : before ++ (part ++ after) = before' ++ (part' ++ after'))
    (hlt : width before' < width (before ++ part))
    (hlt' : width before < width (before' ++ part')) : ∃ c ∈ part, c ∈ part' := by
  rcases Nat.le_total (width before) (width before') with hle | hle
  · exact exists_mem_of_overlap hpart' h hle hlt
  · obtain ⟨c, hc', hc⟩ := exists_mem_of_overlap hpart h.symm hle hlt'
    exact ⟨c, hc, hc'⟩

end Common

theorem toNat_lt_of_word {c : Char} (h : isWordChar c = true) : c.toNat < 128 := by
  have hupper : c.isUpper = true → c.toNat ≤ 'Z'.toNat := fun h => (of_decide_eq_true h).2
  have hlower : c.isLower = true → c.toNat ≤ 'z'.toNat :=
    fun h => of_decide_eq_true (Bool.and_eq_true_iff.mp h).2
  have hdigit : c.isDigit = true → c.toNat ≤ '9'.toNat :=
    fun h => of_decide_eq_true (Bool.and_eq_true_iff.mp h).2
  rcases Bool.or_eq_true_iff.mp h with h | h
  · rcases Bool.or_eq_true_iff.mp h with h | h
    · rcases Bool.or_eq_true_iff.mp h with h | h
      · exact Nat.lt_of_le_of_lt (hupper h) (by decide)
      · exact Nat.lt_of_le_of_lt (hlower h) (by decide)
    · exact Nat.lt_of_le_of_lt (hdigit h) (by decide)
  · rw [beq_iff_eq.mp h]
    decide

/-- The characters of identifiers. Of the ASCII characters these are the letters, the digits
and the underscore. -/
structure Alphabet where
  has : Char → Bool
  ascii : ∀ c : Char, c.toNat < 128 → has c = isWordChar c

namespace Alphabet

variable {alphabet : Alphabet}

def asciiOnly : Alphabet := ⟨isWordChar, fun _ _ => rfl⟩

theorem has_of_word (alphabet : Alphabet) {c : Char} (h : isWordChar c = true) :
    alphabet.has c = true := by
  rw [alphabet.ascii c (toNat_lt_of_word h), h]

/-- An identifier that cannot be made longer, and the text around it. -/
structure Whole (alphabet : Alphabet) (before run after : List Char) : Prop where
  ne_nil : run ≠ []
  all : ∀ c ∈ run, alphabet.has c = true
  first : ∀ c ∈ before.getLast?, alphabet.has c = false
  last : ∀ c ∈ after.head?, alphabet.has c = false

theorem Whole.of_wrapping {opening before run after closing : List Char}
    (h : alphabet.Whole (opening ++ before) run (after ++ closing)) :
    alphabet.Whole before run after := by
  refine ⟨h.ne_nil, h.all, fun c hc => h.first c ?_, fun c hc => h.last c ?_⟩
  · rw [List.getLast?_append, Option.mem_def.mp hc]
    rfl
  · rw [List.head?_append, Option.mem_def.mp hc]
    rfl

/-- Nothing before the part joins it to an identifier, and no identifier goes on after it.
A dollar sign at its beginning separates it from what is before, and in PHP one before it
makes a variable of it. -/
def Alone (alphabet : Alphabet) (family : Family) (before part after : List Char) : Prop :=
  (part.head? = some '$' ∨
    ∀ c ∈ before.getLast?, alphabet.has c = false ∧ (family = .php → c ≠ '$')) ∧
  ∀ c ∈ after.head?, alphabet.has c = false

instance (alphabet : Alphabet) (family : Family) (before part after : List Char) :
    Decidable (alphabet.Alone family before part after) :=
  decidable_of_iff ((part.head? = some '$' ∨ before.getLast?.all (fun c =>
      !alphabet.has c && (family != .php || c != '$')) = true) ∧
    after.head?.all (!alphabet.has ·) = true) (by
      simp only [Option.all_eq_true, Bool.and_eq_true, Bool.or_eq_true, bne_iff_ne,
        Bool.not_eq_true', Alone, Option.mem_def, ← imp_iff_not_or])

theorem run_unique {run run' after after' : List Char} (h : run ++ after = run' ++ after')
    (hrun : ∀ c ∈ run, alphabet.has c = true) (hrun' : ∀ c ∈ run', alphabet.has c = true)
    (hafter : ∀ c ∈ after.head?, alphabet.has c = false)
    (hafter' : ∀ c ∈ after'.head?, alphabet.has c = false) : run = run' := by
  have htake : ∀ {r a : List Char}, (∀ c ∈ r, alphabet.has c = true) →
      (∀ c ∈ a.head?, alphabet.has c = false) → (r ++ a).takeWhile alphabet.has = r := by
    intro r a hr ha
    rw [List.takeWhile_append_of_pos hr]
    cases a with
    | nil => simp
    | cons c a => simp [ha c rfl]
  rw [← htake hrun hafter, h, htake hrun' hafter']

theorem has_dollar (alphabet : Alphabet) : alphabet.has '$' = false :=
  alphabet.ascii '$' (by decide)

theorem mem_lead_or_has {lead run : List Char} (hlead : lead = [] ∨ lead = ['$'])
    (hall : ∀ c ∈ run, alphabet.has c = true) {c : Char} (h : c ∈ lead ++ run) :
    c = '$' ∨ alphabet.has c = true := by
  rcases List.mem_append.mp h with h | h
  · rcases hlead with rfl | rfl
    · cases h
    · exact .inl (List.mem_singleton.mp h)
  · exact .inr (hall c h)

section Overlap

variable {before lead run after before' lead' run' after' : List Char}

theorem eq_of_same_start (hlead : lead = [] ∨ lead = ['$']) (hlead' : lead' = [] ∨ lead' = ['$'])
    (hrun : ∀ c ∈ run, alphabet.has c = true) (hrun' : ∀ c ∈ run', alphabet.has c = true)
    (hne : run ≠ []) (hne' : run' ≠ []) (hafter : ∀ c ∈ after.head?, alphabet.has c = false)
    (hafter' : ∀ c ∈ after'.head?, alphabet.has c = false)
    (h : lead ++ (run ++ after) = lead' ++ (run' ++ after')) : lead = lead' ∧ run = run' := by
  have hdollar : ∀ {r a t : List Char}, r ≠ [] → (∀ c ∈ r, alphabet.has c = true) →
      r ++ a ≠ '$' :: t := by
    intro r a t hr hall he
    cases r with
    | nil => exact hr rfl
    | cons c r =>
      obtain rfl := (List.cons.inj he).1
      exact absurd (hall '$' List.mem_cons_self) (by simp [alphabet.has_dollar])
  rcases hlead with rfl | rfl
  · rcases hlead' with rfl | rfl
    · exact ⟨rfl, run_unique h hrun hrun' hafter hafter'⟩
    · rw [List.nil_append] at h
      exact absurd h (hdollar hne hrun)
  · rcases hlead' with rfl | rfl
    · rw [List.nil_append] at h
      exact absurd h.symm (hdollar hne' hrun')
    · exact ⟨rfl, run_unique (List.cons.inj h).2 hrun hrun' hafter hafter'⟩

theorem getLast?_append_of_ne_nil {s t : List Char} (h : t ≠ []) :
    ∃ c ∈ t, c ∈ t.getLast? ∧ c ∈ (s ++ t).getLast? := by
  refine ⟨t.getLast h, List.getLast_mem h, List.getLast?_eq_some_getLast h, ?_⟩
  rw [List.getLast?_append, List.getLast?_eq_some_getLast h]
  rfl

theorem exists_split_run {mid rest : List Char} (hlead : lead = [] ∨ lead = ['$'])
    (h : lead ++ run = mid ++ rest) (hmid : mid ≠ []) :
    ∃ mid', mid = lead ++ mid' ∧ run = mid' ++ rest := by
  rcases hlead with rfl | rfl
  · exact ⟨mid, rfl, h⟩
  · cases mid with
    | nil => exact absurd rfl hmid
    | cons c mid' =>
      obtain ⟨rfl, hrun⟩ := List.cons.inj h
      exact ⟨mid', rfl, hrun⟩

/-- An identifier, perhaps after a dollar sign, that overlaps a placeholder which stands
alone is the placeholder, unless only the placeholder has the dollar sign. -/
theorem Whole.eq_of_overlap (hlead : lead = [] ∨ lead = ['$'])
    (hlead' : lead' = [] ∨ lead' = ['$']) (hwhole : alphabet.Whole (before ++ lead) run after)
    (halone : alphabet.Alone family before' (lead' ++ run') after')
    (hfamily : lead = ['$'] → family = .php) (hne : run' ≠ [])
    (hall : ∀ c ∈ run', alphabet.has c = true)
    (h : before ++ (lead ++ (run ++ after)) = before' ++ (lead' ++ (run' ++ after')))
    (hstart : width before' < width before + width (lead ++ run))
    (hstop : width before < width before' + width (lead' ++ run')) :
    before = before' ∧ lead = lead' ∧ run = run' ∨ lead = [] ∧ lead' = ['$'] ∧ run = run' := by
  rcases Nat.le_total (width before) (width before') with hle | hle
  · obtain ⟨mid, rfl, hmid⟩ := append_split_of_width h hle
    by_cases hnil : mid = []
    · subst hnil
      obtain ⟨rfl, rfl⟩ := eq_of_same_start hlead hlead' hwhole.all hall hwhole.ne_nil hne
        hwhole.last halone.2 hmid
      exact .inl ⟨by simp, rfl, rfl⟩
    · -- The placeholder would begin after a character of the identifier.
      rw [width_append] at hstart
      rw [← List.append_assoc] at hmid
      obtain ⟨rest, hrest, hplace⟩ := append_split_of_width hmid.symm (by omega)
      rcases halone.1 with hdollar | hbefore
      · -- Its dollar sign would be a character of the identifier.
        obtain ⟨mid', rfl, rfl⟩ := exists_split_run hlead hrest hnil
        cases rest with
        | nil => simp at hstart
        | cons c rest =>
          obtain ⟨part, hpart⟩ := List.head?_eq_some_iff.mp hdollar
          rw [← List.append_assoc, hpart] at hplace
          obtain rfl := (List.cons.inj hplace).1
          exact absurd (hwhole.all '$' (by simp)) (by simp [alphabet.has_dollar])
      · obtain ⟨c, hc, -, hlast⟩ := getLast?_append_of_ne_nil (s := before) hnil
        obtain ⟨hhas, hphp⟩ := hbefore c hlast
        rcases List.mem_append.mp (hrest ▸ List.mem_append_left rest hc) with hc | hc
        · rcases hlead with rfl | rfl
          · cases hc
          · exact absurd (List.mem_singleton.mp hc) (hphp (hfamily rfl))
        · simp [hwhole.all c hc] at hhas
  · obtain ⟨mid, rfl, hmid⟩ := append_split_of_width h.symm hle
    by_cases hnil : mid = []
    · subst hnil
      obtain ⟨rfl, rfl⟩ := eq_of_same_start hlead' hlead hall hwhole.all hne hwhole.ne_nil
        halone.2 hwhole.last hmid
      exact .inl ⟨by simp, rfl, rfl⟩
    · rw [width_append] at hstop
      rw [← List.append_assoc] at hmid
      obtain ⟨rest, hrest, hafter⟩ := append_split_of_width hmid.symm (by omega)
      obtain ⟨mid', rfl, rfl⟩ := exists_split_run hlead' hrest hnil
      rcases hlead with rfl | rfl
      · -- What comes before the identifier is no identifier, so it is the dollar sign alone.
        rw [List.append_nil] at hwhole
        have hmid' : mid' = [] := by
          by_contra hne'
          obtain ⟨c, hc, -, hlast⟩ := getLast?_append_of_ne_nil (s := before' ++ lead') hne'
          have hhas := hall c (List.mem_append_left _ hc)
          rw [hwhole.first c (by simpa using hlast)] at hhas
          cases hhas
        subst hmid'
        have hlead' : lead' = ['$'] := hlead'.resolve_left (by simpa using hnil)
        exact .inr ⟨rfl, hlead', run_unique hafter hwhole.all hall hwhole.last halone.2⟩
      · cases rest with
        | nil => simp at hstop
        | cons c rest =>
          obtain rfl := (List.cons.inj hafter).1
          exact absurd (hall '$' (by simp)) (by simp [alphabet.has_dollar])

end Overlap

end Alphabet

end CodePattern
