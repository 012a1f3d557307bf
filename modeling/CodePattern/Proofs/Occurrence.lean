import CodePattern.Proofs.Copying
import CodePattern.Proofs.Literals
import CodePattern.Proofs.PatternSyntax
import CodePattern.Proofs.WayBack

/-! The edits of a text are exactly its pattern syntax that stands in code. Where bare
ellipses overlap, those are edited that are met first when reading from the left. -/

namespace CodePattern

namespace Placeholder

open Lexical

variable {family : Family} {c : Char} {cs : List Char}

theorem codeStep_of_noLiteral (hno : NoLiteral family (c :: cs)) :
    codeStep family c cs = plainStep family c cs := by
  rw [noLiteral_iff] at hno
  have hquote : ¬ (c = '\x27' ∨ c = '"') := fun hq => hno (.inl hq)
  have hhash : ¬ (c = '#' ∧ (family = .python ∨ (!startsWith ['['] cs) = true)) := by
    rintro ⟨rfl, h⟩
    refine hno (.inr (.inl ⟨rfl, h.imp_right fun h => ?_⟩))
    rwa [Bool.not_eq_true', ← Bool.not_eq_true, startsWith_iff] at h
  have hslashes : ¬ (c = '/' ∧ family = .php ∧ startsWith ['/'] cs = true) := by
    rintro ⟨rfl, rfl, h⟩
    exact hno (.inr (.inr ⟨rfl, rfl, .inl (startsWith_iff.mp h)⟩))
  have hblock : ¬ (c = '/' ∧ family = .php ∧ startsWith ['*'] cs = true) := by
    rintro ⟨rfl, rfl, h⟩
    exact hno (.inr (.inr ⟨rfl, rfl, .inr (startsWith_iff.mp h)⟩))
  rw [codeStep, if_neg hquote, if_neg hhash, if_neg hslashes, if_neg hblock]

/-- What is written in a pattern, and the placeholder for it. -/
inductive Marks (family : Family) : List Char → List Char → Prop
  | metavariable {name : List Char} (hf : family = .python)
      (h : isMetavariableName name = true) : Marks family ('$' :: name) (metavariableMark ++ name)
  | ellipsisMetavariable {name : List Char} (h : isMetavariableName name = true) :
      Marks family ('$' :: (dots ++ name)) (Placeholder.ellipsisMetavariable family name)
  | ellipsis (hf : family = .php) : Marks family dots phpEllipsis

theorem Marks.exists_run {written new : List Char}
    (h : Marks family written new) : ∃ lead run, new = lead ++ run ∧ (lead = [] ∨ lead = ['$']) ∧
      run ≠ [] ∧ ∀ c ∈ run, isWordChar c = true := by
  have hrun : ∀ mark name : List Char, mark ≠ [] → (∀ c ∈ mark, isWordChar c = true) →
      isMetavariableName name = true →
      mark ++ name ≠ [] ∧ ∀ c ∈ mark ++ name, isWordChar c = true := by
    intro mark name hne hmark hname
    refine ⟨List.append_ne_nil_of_left_ne_nil hne name, fun c hc => ?_⟩
    rcases List.mem_append.mp hc with hc | hc
    · exact hmark c hc
    · exact all_word_of_name hname c hc
  cases h with
  | metavariable _ h =>
    exact ⟨[], _, rfl, .inl rfl, hrun metavariableMark _ (by decide) (List.all_eq_true.mp rfl) h⟩
  | ellipsisMetavariable h =>
    have hall := hrun ellipsisMetavariableMark _ (by decide) (List.all_eq_true.mp rfl) h
    cases family with
    | python => exact ⟨[], _, rfl, .inl rfl, hall⟩
    | php => exact ⟨['$'], _, rfl, .inr rfl, hall⟩
  | ellipsis => exact ⟨[], phpEllipsis, rfl, .inl rfl, by decide, List.all_eq_true.mp rfl⟩

theorem Marks.not_dollar_python {written part : List Char} :
    ¬ Marks .python written ('$' :: part) := by
  intro h
  generalize he : '$' :: part = new at h
  cases h with
  | metavariable => exact absurd (List.cons.inj he).1 (by decide)
  | ellipsisMetavariable => exact absurd (List.cons.inj he).1 (by decide)
  | ellipsis hf => cases hf

/-- A step in code that replaces pattern syntax or copies text in which none begins. -/
inductive Advances (family : Family) (c : Char) (cs : List Char) : Step → Prop
  | replace {n : Nat} {new : List Char} (h : Syntax family (c :: cs.take n) (cs.drop n))
      (hm : Marks family (c :: cs.take n) new) : Advances family c cs (.replace c cs n new)
  | copy {n : Nat} (hw : ∀ d ∈ cs.take n, isOpener d = false)
      (h : Dull family (c :: cs.take n) (cs.drop n)) : Advances family c cs (.copy c cs n .code)

theorem dollarDotsStep_advances (family : Family) (more : List Char) :
    Advances family '$' (dots ++ more) (dollarDotsStep family '$' (dots ++ more)) := by
  rw [dollarDotsStep]
  simp only [show (dots ++ more).drop 3 = more from rfl]
  split
  · next hname =>
    have hwritten : Named family ('$' :: (dots ++ word more)) (more.drop (word more).length) :=
      .ellipsis (nameBefore_word hname)
    have htake : '$' :: (dots ++ more).take (3 + (word more).length) =
        '$' :: (dots ++ word more) := by simp [dots, Nat.add_comm 3, take_word]
    refine .replace (.inl ?_) ?_
    · rw [htake]
      simpa [dots, Nat.add_comm 3] using hwritten
    · rw [htake]
      exact .ellipsisMetavariable hname
  · next hname =>
    refine .copy (by simp) (dull_cons (fun written rest he hs => ?_) (dull_nil _ _))
    simp only [List.take_zero, List.drop_zero, List.nil_append] at he
    rcases hs with hs | ⟨-, rfl, -⟩
    · cases hs with
      | metavariable _ h => exact not_dots_of_name h.1 (List.cons.inj he).2.symm
      | ellipsis h =>
        simp only [List.cons_append, List.cons.injEq, true_and, List.append_assoc] at he
        rw [List.append_cancel_left he, word_of_nameBefore h] at hname
        exact hname h.1
    · exact absurd (List.cons.inj he).1 (by decide)

theorem dollarStep_advances {family : Family} {cs : List Char} (hdots : ¬ dots <+: cs) :
    Advances family '$' cs (dollarStep family '$' cs) := by
  rw [dollarStep]
  split
  · next h =>
    have hwritten : Named family ('$' :: word cs) (cs.drop (word cs).length) :=
      .metavariable h.1 (nameBefore_word h.2)
    refine .replace (.inl ?_) ?_
    · rwa [take_word]
    · rw [take_word]
      exact .metavariable h.1 h.2
  · next hname =>
    refine .copy (fun d hd => ?_) (dull_cons (fun written rest he hs => ?_) ?_)
    · rw [take_word] at hd
      exact not_opener_of_word (word_all cs d hd)
    · rw [List.take_append_drop] at he
      rcases hs with hs | ⟨-, rfl, -⟩
      · cases hs with
        | metavariable hf h =>
          rw [List.cons_append, List.cons.injEq] at he
          rw [he.2, word_of_nameBefore h] at hname
          exact hname ⟨hf, h.1⟩
        | ellipsis h =>
          rw [List.cons_append, List.append_assoc] at he
          exact hdots ⟨_, (List.cons.inj he).2.symm⟩
      · exact absurd (List.cons.inj he).1 (by decide)
    · rw [take_word]
      exact dull_word (word_all cs) _

theorem isSpread_eq_false_iff (after : List Char) :
    isSpread after = false ↔ ∀ c ∈ after.head?, c ≠ '$' ∧ isWordChar c = false := by
  cases after with
  | nil => simp [isSpread]
  | cons c after => simp [isSpread]

theorem dull_dots {more : List Char}
    (h : ¬ (family = .php ∧ ∀ c ∈ more.head?, c ≠ '$' ∧ isWordChar c = false)) :
    Dull family dots more := by
  have hdot : ∀ rest, family = .php → more ≠ '.' :: rest := by
    rintro rest hf rfl
    refine h ⟨hf, ?_⟩
    rintro c ⟨⟩
    decide
  have hbare : ∀ cs written rest, '.' :: cs = written ++ rest → Syntax family written rest →
      Bare family dots rest ∧ cs = '.' :: '.' :: rest := by
    intro cs written rest he hs
    rcases hs with hs | ⟨hf, rfl, hrest⟩
    · obtain ⟨w, rfl⟩ := hs.exists_cons
      exact absurd (List.cons.inj he).1 (by decide)
    · exact ⟨⟨hf, rfl, hrest⟩, (List.cons.inj he).2⟩
  refine dull_cons (fun written rest he hs => ?_) (dull_cons (fun written rest he hs => ?_)
    (dull_cons (fun written rest he hs => ?_) (dull_nil _ _)))
  · obtain ⟨⟨hf, -, hrest⟩, hmore⟩ := hbare _ _ _ he hs
    obtain rfl : more = rest := by simpa using hmore
    exact h ⟨hf, hrest⟩
  · obtain ⟨⟨hf, -⟩, hmore⟩ := hbare _ _ _ he hs
    exact hdot rest hf (by simpa using hmore)
  · obtain ⟨⟨hf, -⟩, hmore⟩ := hbare _ _ _ he hs
    exact hdot ('.' :: rest) hf (by simpa using hmore)

theorem dotsStep_advances (family : Family) (more : List Char) :
    Advances family '.' ('.' :: '.' :: more) (dotsStep family '.' ('.' :: '.' :: more)) := by
  rw [dotsStep]
  simp only [show ('.' :: '.' :: more).drop 2 = more from rfl, Bool.not_eq_true',
    isSpread_eq_false_iff]
  split
  · next h => exact .replace (.inr ⟨h.1, rfl, h.2⟩) (.ellipsis h.1)
  · next h =>
    exact .copy (by simp [isOpener]) (dull_dots h)

theorem plainStep_advances (family : Family) (c : Char) (cs : List Char) :
    Advances family c cs (plainStep family c cs) := by
  rw [plainStep]
  split
  · next h =>
    obtain ⟨rfl, h⟩ := h
    obtain ⟨more, rfl⟩ := startsWith_iff.mp h
    exact dollarDotsStep_advances family more
  · next hdollarDots =>
    split
    · next h =>
      subst h
      exact dollarStep_advances (fun h => hdollarDots ⟨rfl, startsWith_iff.mpr h⟩)
    · next hdollar =>
      split
      · next h =>
        obtain ⟨rfl, h⟩ := h
        obtain ⟨more, rfl⟩ := startsWith_iff.mp h
        exact dotsStep_advances family more
      · next hdots =>
        refine .copy (by simp) (dull_cons (fun written rest he hs => ?_) (dull_nil _ _))
        simp only [List.take_zero, List.drop_zero, List.nil_append] at he
        rcases hs.cases with ⟨w, rfl⟩ | ⟨-, rfl⟩
        · exact hdollar (List.cons.inj he).1
        · obtain ⟨rfl, rfl⟩ := List.cons.inj he
          exact hdots ⟨rfl, startsWith_iff.mpr ⟨rest, rfl⟩⟩

/-- In code where no string or comment begins, the scan either replaces pattern syntax or
copies text in which none begins. -/
theorem scan_code (hno : NoLiteral family (c :: cs)) :
    ∃ w after s, cs = w ++ after ∧ (∀ d ∈ w, isOpener d = false) ∧ s.old = c :: w ∧
      scan family 0 .code (c :: cs) = s :: scan family 0 .code after ∧
      ((∃ new, s = .replaced (c :: w) new) ∧ Syntax family (c :: w) after ∨
        s = .copied (c :: w) ∧ Dull family (c :: w) after) := by
  have hadvances := plainStep_advances family c cs
  rw [← codeStep_of_noLiteral hno] at hadvances
  generalize hstep : codeStep family c cs = s at hadvances
  cases hadvances with
  | @replace n new h =>
    refine ⟨cs.take n, cs.drop n, .replaced (c :: cs.take n) new,
      (List.take_append_drop n cs).symm, h.tail_not_opener, rfl, ?_, .inl ⟨⟨new, rfl⟩, h⟩⟩
    rw [scan, step, hstep, ← scan_covered]
    rfl
  | @copy n hw h =>
    refine ⟨cs.take n, cs.drop n, .copied (c :: cs.take n), (List.take_append_drop n cs).symm, hw,
      rfl, ?_, .inr ⟨rfl, h⟩⟩
    rw [scan, step, hstep, ← scan_covered]
    rfl

/-- Strings and comments have no edits. -/
theorem editsFrom_literal {lit rest : List Char} (h : Literal family lit rest)
    (newStart oldStart : Nat) :
    ∃ next, editsFrom newStart oldStart (scan family 0 .code (lit ++ rest)) =
      editsFrom next (oldStart + width lit) (scan family 0 .code rest) := by
  obtain ⟨segments, hscan, hcopied, hbefore⟩ := literal_copies h
  refine ⟨newStart + width (textAfter segments), ?_⟩
  rw [hscan, editsFrom_append, editsFrom_of_copied hcopied, hbefore]
  rfl

/-- Whatever the scan replaces is pattern syntax that stands in code. -/
theorem code_of_edit (family : Family) (text : List Char) (newStart oldStart : Nat) {e : Edit}
    (he : e ∈ editsFrom newStart oldStart (scan family 0 .code text)) :
    ∃ before written after, Code family text before (written ++ after) ∧
      Syntax family written after ∧ e.oldStart = oldStart + width before ∧
      e.oldStop = e.oldStart + width written := by
  -- The scan goes on after a whole literal or stretch of code, which is never empty.
  induction hn : text.length using Nat.strong_induction_on generalizing text newStart oldStart with
  | _ n ih =>
    by_cases hno : NoLiteral family text
    · cases text with
      | nil => simp [scan, editsFrom] at he
      | cons c cs =>
        obtain ⟨w, rest, s, rfl, hw, hold, hscan, hs⟩ := scan_code hno
        rw [hscan, editsFrom_cons] at he
        rcases List.mem_append.mp he with he | he
        · rcases hs with ⟨⟨new, rfl⟩, hwritten⟩ | ⟨rfl, -⟩
          · obtain rfl := List.mem_singleton.mp he
            exact ⟨[], c :: w, rest, .here _, hwritten, rfl, rfl⟩
          · simp [editsFrom] at he
        · obtain ⟨before, written, after, hcode, hwritten, hstart, hstop⟩ :=
            ih rest.length (by simp at hn; omega) rest _ _ he rfl
          refine ⟨s.old ++ before, written, after, ?_, hwritten, ?_, hstop⟩
          · rw [hold]
            exact .char hno (hcode.append hw)
          · rw [hstart, width_append, Nat.add_assoc]
    · simp only [NoLiteral, not_forall, not_not] at hno
      obtain ⟨lit, rest, rfl, hlit⟩ := hno
      obtain ⟨next, hedits⟩ := editsFrom_literal hlit newStart oldStart
      rw [hedits] at he
      obtain ⟨before, written, after, hcode, hwritten, hstart, hstop⟩ :=
        ih rest.length (hn ▸ hlit.length_lt) rest _ _ he rfl
      refine ⟨lit ++ before, written, after, .literal hlit hcode, hwritten, ?_, hstop⟩
      rw [hstart, width_append, Nat.add_assoc]

/-- Pattern syntax that stands in code begins within an edit. -/
theorem exists_edit_of_code {text before written after : List Char}
    (hcode : Code family text before (written ++ after)) (hwritten : Syntax family written after)
    (newStart oldStart : Nat) :
    ∃ e ∈ editsFrom newStart oldStart (scan family 0 .code text),
      e.oldStart ≤ oldStart + width before ∧ oldStart + width before < e.oldStop := by
  obtain ⟨x, w', rfl, hx⟩ := hwritten.exists_cons
  induction hn : text.length using Nat.strong_induction_on
    generalizing text before newStart oldStart with
  | _ n ih =>
    by_cases hno : NoLiteral family text
    · cases text with
      | nil => exact absurd hcode.text_eq (by simp)
      | cons c cs =>
        obtain ⟨w, rest, s, rfl, hw, hold, hscan, hs⟩ := scan_code hno
        rw [hscan, editsFrom_cons]
        rcases hcode.cons_append_inv hno hw with ⟨t, ht, hne, hafter⟩ | ⟨b, rfl, hb⟩
        · rcases hs with ⟨⟨new, rfl⟩, -⟩ | ⟨-, hdull⟩
          · have hpos : width before < width (c :: w) := by
              have := length_le_width t
              have := List.length_pos_iff.mpr hne
              rw [ht, width_append]
              omega
            exact ⟨_, List.mem_append_left _ List.mem_cons_self, Nat.le_add_right _ _,
              Nat.add_lt_add_left hpos _⟩
          · exact absurd hwritten (hdull before t ht hne _ after hafter.symm)
        · obtain ⟨e, he, hcover⟩ := ih rest.length (by simp at hn; omega)
            (newStart + width s.new) (oldStart + width s.old) hb rfl
          rw [hold, Nat.add_assoc, ← width_append] at hcover
          exact ⟨e, List.mem_append_right _ he, hcover⟩
    · cases hcode with
      | here =>
        refine absurd (noLiteral_of_not_opener ?_ _) hno
        rcases hx with rfl | rfl <;> rfl
      | @literal lit rest before _ hlit h =>
        obtain ⟨next, hedits⟩ := editsFrom_literal hlit newStart oldStart
        obtain ⟨e, he, hcover⟩ := ih rest.length (hn ▸ hlit.length_lt) next
          (oldStart + width lit) h rfl
        rw [Nat.add_assoc, ← width_append] at hcover
        exact ⟨e, hedits ▸ he, hcover⟩
      | char hno' => exact absurd hno' hno

theorem exists_edit_of_stands {text : List Char} {start stop : Nat}
    (h : Stands family text (Syntax family) start stop) :
    ∃ e ∈ (insert family text).edits, e.oldStart ≤ start ∧ start < e.oldStop := by
  obtain ⟨before, part, after, hcode, hwritten, rfl, -⟩ := h
  obtain ⟨e, he, hstart, hstop⟩ := exists_edit_of_code hcode hwritten 0 0
  exact ⟨e, he, by omega, by omega⟩

theorem stands_of_edit {text : List Char} {e : Edit} (he : e ∈ (insert family text).edits) :
    Stands family text (Syntax family) e.oldStart e.oldStop := by
  obtain ⟨before, written, after, hcode, hwritten, hstart, hstop⟩ := code_of_edit family text 0 0 he
  exact ⟨before, written, after, hcode, hwritten, by omega, hstop⟩

theorem edits_apart {text : List Char} {d e : Edit} (hd : d ∈ (insert family text).edits)
    (he : e ∈ (insert family text).edits) (h : d.oldStart < e.oldStart) :
    d.oldStop ≤ e.oldStart := by
  have hordered := List.pairwise_iff_getElem.mp (editsFrom_ordered (segments family text) 0 0)
  have hlt := (stands_of_edit he).lt
  obtain ⟨i, hi, rfl⟩ := List.getElem_of_mem hd
  obtain ⟨j, hj, rfl⟩ := List.getElem_of_mem he
  rcases Nat.lt_trichotomy i j with hij | rfl | hij
  · exact hordered i j hi hj hij
  · omega
  · have := hordered j i hj hi hij
    simp only [insert, Revision.ofSegments, editsOf] at h hlt ⊢
    omega

theorem edit_iff_met (family : Family) (text : List Char) (start stop : Nat) :
    (∃ e ∈ (insert family text).edits, e.oldStart = start ∧ e.oldStop = stop) ↔
      Met family text start stop := by
  induction start using Nat.strong_induction_on generalizing stop with
  | _ start ih =>
    rw [Met]
    constructor
    · rintro ⟨e, he, rfl, rfl⟩
      rcases (stands_of_edit he).named_or_bare with hnamed | hbare
      · exact .inl hnamed
      · refine .inr ⟨hbare, fun earlier hlt stop' hstop hmet => ?_⟩
        obtain ⟨d, hd, rfl, rfl⟩ := (ih earlier hlt stop').mpr hmet
        have := edits_apart hd he hlt
        omega
    · rintro (hnamed | ⟨hbare, hfirst⟩)
      · obtain ⟨e, he, hstart, hstop⟩ := exists_edit_of_stands (hnamed.imp .inl)
        have hstands := stands_of_edit he
        have hsame := hstands.start_eq_of_named hnamed hstart hstop
        rw [hsame] at hstands
        exact ⟨e, he, hsame, hstands.stop_unique (hnamed.imp .inl)⟩
      · obtain ⟨e, he, hstart, hstop⟩ := exists_edit_of_stands (hbare.imp .inr)
        have hstands := stands_of_edit he
        have hsame : e.oldStart = start := by
          by_contra hne
          have hlt : e.oldStart < start := by omega
          exact hfirst e.oldStart hlt e.oldStop hstop ((ih _ hlt _).mp ⟨e, he, rfl, rfl⟩)
        rw [hsame] at hstands
        exact ⟨e, he, hsame, hstands.stop_unique (hbare.imp .inr)⟩

/-- The edits are, in order, the pattern syntax that is met in code. -/
theorem edits_iff_met (family : Family) (text : List Char) :
    (insert family text).edits.Pairwise (fun d e => d.oldStop ≤ e.oldStart) ∧
      ∀ start stop, (∃ e ∈ (insert family text).edits, e.oldStart = start ∧ e.oldStop = stop) ↔
        Met family text start stop :=
  ⟨editsFrom_ordered (segments family text) 0 0, edit_iff_met family text⟩

example : (insert .php "$.....".toList).edits = [⟨1, 13, 1, 4⟩] := by decide

end Placeholder

end CodePattern
