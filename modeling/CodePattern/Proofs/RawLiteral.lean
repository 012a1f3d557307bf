import CodePattern.Proofs.Occurrence

/-! Strings of PHP that the scan does not know: heredocs, nowdocs and backtick strings. It reads
them as code, so whatever looks like pattern syntax in them is replaced and a lone quote hides the
text after them. Such a string is safe before every text if it is safe before an ellipsis. -/

namespace CodePattern

namespace Lexical

/-- Labels also have characters beyond ASCII. -/
def isLabelChar (c : Char) : Bool := isWordChar c || 0x80 ≤ c.toNat

def IsLabel (label : List Char) : Prop :=
  ∃ c cs, label = c :: cs ∧ c.isDigit = false ∧ ∀ d ∈ c :: cs, isLabelChar d = true

/-- A line that ends a heredoc. -/
def Closes (label line : List Char) : Prop :=
  ∃ indent after, line = indent ++ (label ++ after) ∧ (∀ c ∈ indent, c = ' ' ∨ c = '\t') ∧
    ∀ c ∈ after.head?, isLabelChar c = false

theorem Closes.label_within {label line : List Char} (h : Closes label line) : label <:+: line := by
  obtain ⟨indent, after, rfl, -⟩ := h
  exact ⟨indent, after, List.append_assoc _ _ _⟩

/-- A heredoc, a nowdoc or a backtick string, and the text after it. -/
inductive RawLiteral : List Char → List Char → Prop
  | heredoc {quote label newline indent rest : List Char} {lines : List (List Char)}
      (hquote : quote = [] ∨ quote = ['\x27'] ∨ quote = ['"']) (hlabel : IsLabel label)
      (hnewline : newline = ['\n'] ∨ newline = ['\r', '\n'])
      (hlines : ∀ line ∈ lines, '\n' ∉ line ∧ ¬ Closes label line)
      (hindent : ∀ c ∈ indent, c = ' ' ∨ c = '\t')
      (hrest : ∀ c ∈ rest.head?, isLabelChar c = false) :
      RawLiteral ("<<<".toList ++ quote ++ label ++ quote ++
        (newline ++ lines.flatMap (· ++ ['\n']) ++ indent) ++ label) rest
  | backticks {body rest : List Char} (hbody : Inside ['\x60'] body ('\x60' :: rest)) :
      RawLiteral ('\x60' :: (body ++ ['\x60'])) rest

section Rest

variable {mark body delimiter rest rest' lit before after after' text : List Char} {c q : Char}

theorem Literal.congr_rest (h : Literal .php lit rest) (hne : rest ≠ [])
    (hhash : lit.getLast? = some '#' → rest.head? = rest'.head?)
    (hline : rest.head? = some '\n' → rest'.head? = some '\n') : Literal .php lit rest' := by
  cases h with
  | string hd hbody =>
    obtain ⟨q, hq, ⟨-, hf⟩ | ⟨rfl, -⟩⟩ := hd
    · cases hf
    · exact .string ⟨q, hq, .inr ⟨rfl, fun h => nomatch h.1⟩⟩ (hbody.congr_rest (by simp))
  | openString => exact absurd rfl hne
  | @line lead body _ hlead hbody hrest =>
    refine .line ?_ (Free.congr_rest [] (by simp) hbody) (.inr ?_)
    · rcases hlead with ⟨rfl, hopen⟩ | hlead
      · refine .inl ⟨rfl, .inr ?_⟩
        replace hopen := hopen.resolve_left nofun
        rw [singleton_prefix_iff] at hopen ⊢
        cases body with
        | nil => rwa [List.nil_append, ← hhash rfl]
        | cons => exact hopen
      · exact .inr hlead
    · exact singleton_prefix_iff.mpr (hline (singleton_prefix_iff.mp (hrest.resolve_left hne)))
  | block hf hbody => exact .block hf (hbody.congr_rest _ (by simp))
  | openBlock => exact absurd rfl hne

theorem NoLiteral.congr_head (h : NoLiteral .php (c :: after))
    (hhead : isOpener c = true → after.head? = after'.head?) : NoLiteral .php (c :: after') := by
  by_cases ho : isOpener c = true
  · rw [noLiteral_iff] at h ⊢
    rw [Begins, singleton_prefix_iff, singleton_prefix_iff, singleton_prefix_iff] at h ⊢
    rwa [← hhead ho]
  · exact noLiteral_of_not_opener (by simpa using ho) _

/-- What comes after a place in code matters only to a number sign, a slash or a comment right
before it, and to them only by its first character. -/
theorem Code.congr_rest (h : Code .php text before after) (hne : after ≠ [])
    (hlook : ∀ c ∈ before.getLast?, isOpener c = true → after.head? = after'.head?)
    (hline : after.head? = some '\n' → after'.head? = some '\n') :
    Code .php (before ++ after') before after' := by
  induction h with
  | here => exact .here _
  | @literal lit rest before after hlit h ih =>
    rw [h.text_eq] at hlit
    obtain ⟨x, lit', rfl, hx⟩ := hlit.exists_cons
    have hnext : (before ++ after) ≠ [] := by simp [hne]
    have hlast : ∀ c ∈ before.getLast?, isOpener c = true → after.head? = after'.head? := by
      intro c hc
      refine hlook c ?_
      rw [List.getLast?_append, Option.mem_def.mp hc]
      rfl
    rw [List.append_assoc]
    refine .literal (hlit.congr_rest hnext ?_ ?_) (ih hne hlast hline)
    · intro hend
      cases before with
      | nil => exact hlook '#' (by simpa using hend) rfl
      | cons => rfl
    · cases before with
      | nil => exact hline
      | cons => exact id
  | @char c rest before after hno h ih =>
    rw [h.text_eq] at hno
    have hlast : ∀ c ∈ before.getLast?, isOpener c = true → after.head? = after'.head? := by
      intro d hd
      refine hlook d ?_
      rw [List.getLast?_cons, Option.mem_def.mp hd]
      rfl
    refine .char (hno.congr_head fun ho => ?_) (ih hne hlast hline)
    cases before with
    | nil => exact hlook c rfl ho
    | cons => rfl

theorem Syntax.congr_head {family : Family} {written : List Char}
    (h : Syntax family written after) (hhead : after.head? = after'.head?) :
    Syntax family written after' := by
  rcases h with h | ⟨hf, hw, hspread⟩
  · cases h with
    | metavariable hf h => exact .inl (.metavariable hf ⟨h.1, hhead ▸ h.2⟩)
    | ellipsis h => exact .inl (.ellipsis ⟨h.1, hhead ▸ h.2⟩)
  · exact .inr ⟨hf, hw, hhead ▸ hspread⟩

end Rest

/-- Read as code before the rest, the text ends in code and no pattern syntax begins in it. -/
def Quiet (lit rest : List Char) : Prop :=
  Code .php (lit ++ rest) lit rest ∧
    ∀ s t written after, lit = s ++ t → t ≠ [] → Code .php (lit ++ rest) s (t ++ rest) →
      t ++ rest = written ++ after → ¬ Syntax .php written after

/-- From a dollar sign or a dot in the text on, something that is neither a dot nor part of a word
comes no later than right after the text. -/
def Severed (text rest : List Char) : Prop :=
  ∀ s c t, text = s ++ c :: t → (c = '$' ∨ c = '.') →
    ∃ d, (d ∈ t ∨ rest.head? = some d) ∧ isWordChar d = false ∧ d ≠ '.'

theorem Severed.of_append {text rest : List Char} (before : List Char)
    (h : Severed (before ++ text) rest) : Severed text rest := by
  intro s c t he hc
  exact h (before ++ s) c t (by rw [he, List.append_assoc]) hc

/-- What cuts a text off from the text after it. -/
def IsBarrier (c : Char) : Prop := isWordChar c = false ∧ c ≠ '.' ∧ c ≠ '$' ∧ isOpener c = false

namespace RawLiteral

variable {lit rest rest' : List Char}

theorem not_dot_of_isLabelChar {c : Char} (h : isLabelChar c = true) :
    c ≠ '$' ∧ c ≠ '.' ∧ isOpener c = false := by
  refine ⟨?_, ?_, ?_⟩
  · rintro rfl
    exact absurd h (by decide)
  · rintro rfl
    exact absurd h (by decide)
  · rw [Bool.eq_false_iff]
    intro ho
    simp only [isOpener, Bool.or_eq_true, beq_iff_eq] at ho
    rcases ho with ((rfl | rfl) | rfl) | rfl <;> exact absurd h (by decide)

theorem exists_cons (h : RawLiteral lit rest) :
    ∃ c cs, lit = c :: cs ∧ isWordChar c = false ∧ c ≠ '.' := by
  cases h with
  | heredoc => exact ⟨'<', _, rfl, rfl, by decide⟩
  | backticks => exact ⟨'\x60', _, rfl, rfl, by decide⟩

theorem exists_lineEnd {newline indent : List Char} (lines : List (List Char))
    (hnewline : newline = ['\n'] ∨ newline = ['\r', '\n'])
    (hindent : ∀ c ∈ indent, c = ' ' ∨ c = '\t') :
    ∃ front c, newline ++ lines.flatMap (· ++ ['\n']) ++ indent = front ++ [c] ∧ IsBarrier c := by
  rcases List.eq_nil_or_concat indent with rfl | ⟨indent, c, rfl⟩
  · rcases List.eq_nil_or_concat lines with rfl | ⟨lines, line, rfl⟩
    · rcases hnewline with rfl | rfl
      · exact ⟨[], '\n', rfl, by decide, by decide, by decide, by decide⟩
      · exact ⟨['\r'], '\n', rfl, by decide, by decide, by decide, by decide⟩
    · exact ⟨newline ++ (lines.flatMap (· ++ ['\n']) ++ line), '\n', by simp, by decide, by decide,
        by decide, by decide⟩
  · refine ⟨newline ++ lines.flatMap (· ++ ['\n']) ++ indent, c, by simp, ?_⟩
    rcases hindent c (by simp) with rfl | rfl
    · exact ⟨by decide, by decide, by decide, by decide⟩
    · exact ⟨by decide, by decide, by decide, by decide⟩

/-- After some barrier there is only the label, if anything. -/
theorem exists_tail (h : RawLiteral lit rest) : ∃ front c tail, lit = front ++ c :: tail ∧
    IsBarrier c ∧ ∀ d ∈ tail, d ≠ '$' ∧ d ≠ '.' ∧ isOpener d = false := by
  cases h with
  | @heredoc quote label newline indent _ lines _ hlabel hnewline _ hindent =>
    obtain ⟨c, cs, rfl, -, hchars⟩ := hlabel
    obtain ⟨front, b, hend, hb⟩ := exists_lineEnd lines hnewline hindent
    refine ⟨"<<<".toList ++ quote ++ (c :: cs) ++ quote ++ front, b, c :: cs, ?_, hb,
      fun d hd => not_dot_of_isLabelChar (hchars d hd)⟩
    rw [hend]
    simp
  | @backticks body =>
    exact ⟨'\x60' :: body, '\x60', [], rfl, ⟨by decide, by decide, by decide, by decide⟩, by simp⟩

theorem not_opener_of_getLast? (h : RawLiteral lit rest) :
    ∀ c ∈ lit.getLast?, isOpener c = false := by
  obtain ⟨front, b, tail, rfl, hb, htail⟩ := h.exists_tail
  intro c hc
  have hend : (front ++ b :: tail).getLast? = (b :: tail).getLast? := by
    rw [List.getLast?_append, List.getLast?_cons, Option.some_or]
  rcases List.mem_cons.mp (List.mem_of_getLast? (hend ▸ hc)) with rfl | hc
  · exact hb.2.2.2
  · exact (htail c hc).2.2

theorem severed (h : RawLiteral lit rest) (rest' : List Char) : Severed lit rest' := by
  obtain ⟨front, b, tail, rfl, hb, htail⟩ := h.exists_tail
  intro s c t he hc
  rcases List.append_eq_append_iff.mp he with ⟨mid, rfl, hmid⟩ | ⟨mid, rfl, hmid⟩
  · cases mid with
    | nil =>
      obtain ⟨rfl, -⟩ := List.cons.inj hmid
      exact absurd hc (not_or.mpr ⟨hb.2.2.1, hb.2.1⟩)
    | cons x mid =>
      have hmem : c ∈ tail := (List.cons.inj hmid).2 ▸ by simp
      exact absurd hc (not_or.mpr ⟨(htail c hmem).1, (htail c hmem).2.1⟩)
  · cases mid with
    | nil =>
      obtain ⟨rfl, -⟩ := List.cons.inj hmid
      exact absurd hc (not_or.mpr ⟨hb.2.2.1, hb.2.1⟩)
    | cons x mid =>
      have hmem : b ∈ t := (List.cons.inj hmid).2 ▸ by simp
      exact ⟨b, .inl hmem, hb.1, hb.2.1⟩

theorem before_dots (h : RawLiteral lit rest) : RawLiteral lit dots := by
  cases h with
  | heredoc hquote hlabel hnewline hlines hindent =>
    exact .heredoc hquote hlabel hnewline hlines hindent (by rintro c ⟨⟩; rfl)
  | backticks hbody => exact .backticks (hbody.congr_rest (by simp))

end RawLiteral

theorem quiet_of_plain {lit : List Char} (h : ∀ c ∈ lit, isOpener c = false ∧ c ≠ '$' ∧ c ≠ '.')
    (rest : List Char) : Quiet lit rest := by
  constructor
  · have hhere : Code .php rest [] rest := .here rest
    simpa using hhere.append fun c hc => (h c hc).1
  · rintro s t written after rfl ht - he hwritten
    obtain ⟨c, w, rfl, hc⟩ := hwritten.exists_cons
    obtain ⟨d, t, rfl⟩ := List.exists_cons_of_ne_nil ht
    obtain rfl := (List.cons.inj he).1
    exact absurd hc (not_or.mpr (h d (by simp)).2)

theorem Quiet.congr_rest {lit rest : List Char} (hlit : RawLiteral lit rest)
    (h : Quiet lit dots) : Quiet lit rest := by
  obtain ⟨hcode, hquiet⟩ := h
  refine ⟨hcode.congr_rest (by decide) ?_ (fun h => absurd h (by decide)), ?_⟩
  · intro c hc ho
    rw [hlit.not_opener_of_getLast? c hc] at ho
    cases ho
  · rintro s t written after rfl ht hstands he hwritten
    have hhead : (t ++ rest).head? = (t ++ dots).head? := by
      obtain ⟨c, t, rfl⟩ := List.exists_cons_of_ne_nil ht
      rfl
    obtain ⟨c, w, rfl, hc⟩ := hwritten.exists_cons
    obtain ⟨d, t, rfl⟩ := List.exists_cons_of_ne_nil ht
    obtain ⟨rfl, htail⟩ := List.cons.inj he
    have htail : t ++ rest = w ++ after := htail
    -- The syntax ends before the barrier, so the text after it begins in the literal.
    obtain ⟨b, hb, hword, hdot⟩ := hlit.severed [] s d t rfl hc
    have hb : b ∈ t := by simpa using hb
    have hw : b ∉ w := fun hmem => by
      rcases hwritten.tail b hmem with rfl | h
      · exact hdot rfl
      · rw [hword] at h
        cases h
    obtain ⟨x, more, rfl, rfl⟩ : ∃ x more, t = w ++ x :: more ∧ after = x :: more ++ rest := by
      rcases List.append_eq_append_iff.mp htail with ⟨mid, rfl, -⟩ | ⟨mid, rfl, hmid⟩
      · exact absurd (List.mem_append_left _ hb) hw
      · cases mid with
        | nil => exact absurd (by simpa using hb) hw
        | cons x more => exact ⟨x, more, rfl, hmid⟩
    refine hquiet s _ (d :: w) (x :: more ++ dots) rfl ht ?_ (by simp) (hwritten.congr_head rfl)
    rw [List.append_assoc]
    exact hstands.congr_rest (by simp) (fun _ _ _ => hhead) (fun h => hhead ▸ h)

end Lexical

/-- The edit further to the right in both texts. -/
def Edit.shift (new old : Nat) (e : Edit) : Edit :=
  ⟨e.newStart + new, e.newStop + new, e.oldStart + old, e.oldStop + old⟩

theorem editsFrom_shift (newStart oldStart new old : Nat) (segments : List Segment) :
    editsFrom (newStart + new) (oldStart + old) segments =
      (editsFrom newStart oldStart segments).map (.shift new old) := by
  induction segments generalizing newStart oldStart with
  | nil => rfl
  | cons s segments ih =>
    cases s with
    | copied text =>
      rw [editsFrom, editsFrom, ← ih, Nat.add_right_comm, Nat.add_right_comm oldStart]
    | replaced a b =>
      rw [editsFrom, editsFrom, List.map_cons, ← ih, Edit.shift, Nat.add_right_comm,
        Nat.add_right_comm oldStart]

theorem oldStop_le_of_mem {e : Edit} {newStart oldStart : Nat} {segments : List Segment}
    (h : e ∈ editsFrom newStart oldStart segments) :
    e.oldStop ≤ oldStart + width (textBefore segments) := by
  obtain ⟨before, old, new, after, rfl, -, -, hstart, hstop⟩ := mem_editsFrom h
  simp only [textBefore, List.flatMap_append, List.flatMap_cons, width_append] at hstart ⊢
  rw [hstop, hstart, Segment.old_replaced]
  omega

namespace Placeholder

open Lexical

variable {family : Family} {text rest : List Char} {c : Char} {cs : List Char}

/-- Beyond its first character, a step in code covers only words and dots, and those only after a
dollar sign or a dot. -/
def Covers (c : Char) (cs : List Char) (s : Step) : Prop :=
  s.region = .code ∧ (∀ d ∈ cs.take s.more, isWordChar d = true ∨ d = '.') ∧
    (s.more = 0 ∨ c = '$' ∨ c = '.')

theorem dollarDotsStep_covers (family : Family) (more : List Char) :
    Covers '$' (dots ++ more) (dollarDotsStep family '$' (dots ++ more)) := by
  rw [dollarDotsStep, show (dots ++ more).drop 3 = more from rfl]
  split
  · refine ⟨rfl, fun d hd => ?_, .inr (.inl rfl)⟩
    rcases List.mem_append.mp (take_dots_word more ▸ hd) with hd | hd
    · exact .inr (by simpa [dots] using hd)
    · exact .inl (word_all more d hd)
  · exact ⟨rfl, fun d hd => absurd hd (by simp [Step.copy]), .inl rfl⟩

theorem dollarStep_covers (family : Family) (cs : List Char) :
    Covers '$' cs (dollarStep family '$' cs) := by
  have htake : ∀ d ∈ cs.take (word cs).length, isWordChar d = true ∨ d = '.' :=
    fun d hd => .inl (word_all cs d (take_word cs ▸ hd))
  rw [dollarStep]
  split <;> exact ⟨rfl, htake, .inr (.inl rfl)⟩

theorem dotsStep_covers (family : Family) (more : List Char) :
    Covers '.' (['.', '.'] ++ more) (dotsStep family '.' (['.', '.'] ++ more)) := by
  have htake : ∀ d ∈ (['.', '.'] ++ more).take 2, isWordChar d = true ∨ d = '.' := by simp
  rw [dotsStep]
  split <;> exact ⟨rfl, htake, .inr (.inr rfl)⟩

theorem plainStep_covers (family : Family) (c : Char) (cs : List Char) :
    Covers c cs (plainStep family c cs) := by
  unfold plainStep
  split_ifs with hdollarDots hdollar hdots
  · obtain ⟨rfl, hstarts⟩ := hdollarDots
    obtain ⟨more, rfl⟩ := startsWith_iff.mp hstarts
    exact dollarDotsStep_covers family more
  · exact hdollar ▸ dollarStep_covers family cs
  · obtain ⟨rfl, hstarts⟩ := hdots
    obtain ⟨more, rfl⟩ := startsWith_iff.mp hstarts
    exact dotsStep_covers family more
  · exact ⟨rfl, fun d hd => absurd hd (by simp [Step.copy]), .inl rfl⟩

theorem not_opener_of_word_or_dot {d : Char} (h : isWordChar d = true ∨ d = '.') :
    isOpener d = false := by
  rcases h with h | rfl
  · exact not_opener_of_word h
  · rfl

/-- The scan comes to stand at a place in code, unless a step goes over it. -/
theorem scan_splits {whole : List Char} (hcode : Code family whole text rest)
    (hsevered : Severed text rest) : ∃ segments,
      scan family 0 .code whole = segments ++ scan family 0 .code rest ∧
        textBefore segments = text := by
  induction hn : text.length using Nat.strong_induction_on generalizing whole text with
  | _ n ih =>
    cases hcode with
    | here => exact ⟨[], rfl, rfl⟩
    | @literal lit _ before _ hlit h =>
      obtain ⟨copied, hscan, -, hcopied⟩ := literal_copies hlit
      have hshorter : before.length < n := by
        obtain ⟨c, lit, rfl, -⟩ := hlit.exists_cons
        simp only [List.length_append, List.length_cons] at hn
        omega
      obtain ⟨segments, hrest, hbefore⟩ := ih _ hshorter h (hsevered.of_append lit) rfl
      refine ⟨copied ++ segments, by rw [hscan, hrest, List.append_assoc], ?_⟩
      rw [textBefore, List.flatMap_append, ← textBefore, ← textBefore, hcopied, hbefore]
    | @char c cs before _ hno h =>
      obtain ⟨hregion, hwords, hmore⟩ := plainStep_covers family c cs
      rw [← codeStep_of_noLiteral hno] at hregion hwords hmore
      generalize hstep : codeStep family c cs = s at hregion hwords hmore
      obtain rfl := h.text_eq
      -- A step over the place would cover what severs the text from the rest.
      have hle : s.more ≤ before.length := by
        by_contra hlt
        obtain ⟨d, hd, hword, hdot⟩ := hsevered [] c before rfl (hmore.resolve_left (by omega))
        have hmem : d ∈ (before ++ rest).take s.more := by
          rw [List.take_append, List.take_of_length_le (by omega)]
          rcases hd with hd | hd
          · exact List.mem_append_left _ hd
          · obtain ⟨k, hk⟩ := Nat.exists_eq_add_of_lt (Nat.lt_of_not_le hlt)
            obtain ⟨rest, rfl⟩ := List.head?_eq_some_iff.mp hd
            refine List.mem_append_right _ ?_
            rw [hk, show before.length + k + 1 - before.length = k + 1 by omega]
            exact List.mem_cons_self
        rcases hwords d hmem with h | h
        · rw [hword] at h
          cases h
        · exact hdot h
      have htake : (before ++ rest).take s.more = before.take s.more :=
        List.take_append_of_le_length hle
      have hold : s.segment.old = c :: before.take s.more := by
        have h := step_old family .code c (before ++ rest)
        rwa [step, hstep, htake] at h
      have hafter : Code family (before.drop s.more ++ rest) (before.drop s.more) rest := by
        have hsplit : Code family (before.take s.more ++ (before.drop s.more ++ rest)) before
            rest := by
          rwa [← List.append_assoc, List.take_append_drop]
        have hplain : ∀ d ∈ before.take s.more, isOpener d = false :=
          fun d hd => not_opener_of_word_or_dot (hwords d (htake ▸ hd))
        rcases hsplit.append_inv hplain with ⟨t, ht, hne, -⟩ | ⟨b, hb, hcode⟩
        · have hlength := congrArg List.length ht
          have hpos := List.length_pos_iff.mpr hne
          rw [List.length_append, List.length_take] at hlength
          omega
        · have hdrop : before.drop s.more = b :=
            List.append_cancel_left ((List.take_append_drop _ _).trans hb)
          rwa [hdrop] at hcode ⊢
      have hscan : scan family 0 .code (c :: (before ++ rest)) =
          s.segment :: scan family 0 .code (before.drop s.more ++ rest) := by
        rw [scan, step, hstep, scan_covered, hregion, List.drop_append_of_le_length hle]
      have hshorter : (before.drop s.more).length < n := by
        simp only [List.length_cons, List.length_drop] at hn ⊢
        omega
      have hsevered' : Severed (before.drop s.more) rest := by
        refine Severed.of_append (c :: before.take s.more) ?_
        rwa [List.cons_append, List.take_append_drop]
      obtain ⟨segments, hrest, hbefore⟩ := ih _ hshorter hafter hsevered' rfl
      refine ⟨s.segment :: segments, by rw [hscan, hrest, List.cons_append], ?_⟩
      rw [textBefore_cons, hold, hbefore, List.cons_append, List.take_append_drop]

variable {before lit : List Char}

/-- No edit lies in the literal, and the edits after it are those of the rest, shifted. -/
def Untouched (before lit rest : List Char) : Prop :=
  ∃ earlier shift, (insert .php (before ++ (lit ++ rest))).edits =
      earlier ++ (insert .php rest).edits.map (.shift shift (width (before ++ lit))) ∧
    ∀ e ∈ earlier, e.oldStop ≤ width before

theorem editsFrom_quiet (hquiet : Quiet lit rest) {segments : List Segment}
    (hscan : scan .php 0 .code (lit ++ rest) = segments ++ scan .php 0 .code rest)
    (hbefore : textBefore segments = lit) (newStart oldStart : Nat) :
    editsFrom newStart oldStart segments = [] := by
  refine List.eq_nil_iff_forall_not_mem.mpr fun e he => ?_
  have hmem : e ∈ editsFrom newStart oldStart (scan .php 0 .code (lit ++ rest)) := by
    rw [hscan, editsFrom_append]
    exact List.mem_append_left _ he
  obtain ⟨s, written, after, hcode, hwritten, hstart, hstop⟩ :=
    code_of_edit .php (lit ++ rest) newStart oldStart hmem
  have hle : width (s ++ written) ≤ width lit := by
    have := oldStop_le_of_mem he
    rw [hbefore] at this
    rw [width_append]
    omega
  have hsplit : (s ++ written) ++ after = lit ++ rest := by
    rw [hcode.text_eq, List.append_assoc]
  obtain ⟨more, rfl, rfl⟩ := append_split_of_width hsplit hle
  obtain ⟨x, w, rfl, -⟩ := hwritten.exists_cons
  refine hquiet.2 s (x :: w ++ more) (x :: w) (more ++ rest) (List.append_assoc _ _ _) (by simp) ?_
    (List.append_assoc _ _ _) hwritten
  rwa [List.append_assoc (x :: w)]

theorem untouched_of_quiet (hlit : RawLiteral lit rest) (hquiet : Quiet lit rest)
    (hcode : Code .php (before ++ (lit ++ rest)) before (lit ++ rest)) :
    Untouched before lit rest := by
  have hsevered : Severed before (lit ++ rest) := by
    obtain ⟨c, cs, rfl, hword, hdot⟩ := hlit.exists_cons
    exact fun _ _ _ _ _ => ⟨c, .inr rfl, hword, hdot⟩
  obtain ⟨earlier, hscan, hbefore⟩ := scan_splits hcode hsevered
  obtain ⟨within, hscan', hlit'⟩ := scan_splits hquiet.1 (hlit.severed rest)
  refine ⟨editsOf earlier, width (textAfter earlier) + width (textAfter within), ?_, fun e he => ?_⟩
  · have hshift := editsFrom_shift 0 0 (width (textAfter earlier) + width (textAfter within))
      (width (before ++ lit)) (segments .php rest)
    rw [Nat.zero_add, Nat.zero_add] at hshift
    show editsFrom 0 0 (scan .php 0 .code (before ++ (lit ++ rest))) =
      editsFrom 0 0 earlier ++ (editsFrom 0 0 (segments .php rest)).map _
    rw [← hshift, hscan, hscan', editsFrom_append, editsFrom_append,
      editsFrom_quiet hquiet hscan' hlit', hbefore, hlit', width_append, Nat.zero_add, Nat.zero_add,
      List.nil_append]
    rfl
  · have hle := oldStop_le_of_mem he
    rwa [Nat.zero_add, hbefore] at hle

theorem quiet_of_untouched (h : Untouched [] lit dots) : Quiet lit dots := by
  obtain ⟨earlier, shift, hedits, hearlier⟩ := h
  rw [List.nil_append] at hedits
  have hnone : earlier = [] := by
    refine List.eq_nil_iff_forall_not_mem.mpr fun e he => ?_
    have hlt := (stands_of_edit (hedits ▸ List.mem_append_left _ he)).lt
    have hle := hearlier e he
    rw [width_nil] at hle
    omega
  have hdots : (insert .php dots).edits = [⟨0, 12, 0, 3⟩] := by decide
  rw [hnone, hdots, List.nil_append, List.map_singleton] at hedits
  -- The ellipsis is the only edit, so its place is in code and nothing before it is replaced.
  have hstart : ∀ e ∈ (insert .php (lit ++ dots)).edits, e.oldStart = width lit := by
    intro e he
    rw [hedits, List.mem_singleton] at he
    rw [he]
    exact Nat.zero_add _
  constructor
  · obtain ⟨s, written, after, hcode, -, hplace, -⟩ := code_of_edit .php (lit ++ dots) 0 0
      (hedits ▸ List.mem_singleton_self _)
    have hwidth : width lit = width s := by
      simpa [Edit.shift] using hplace
    obtain ⟨rfl, hrest⟩ := append_inj_of_width hcode.text_eq hwidth
    rwa [← hrest] at hcode
  · rintro s t written after rfl ht hcode he hwritten
    rw [he] at hcode
    obtain ⟨e, hmem, hle, -⟩ := exists_edit_of_code hcode hwritten 0 0
    have hpos := width_pos ht
    have hat := hstart e hmem
    rw [width_append] at hat
    omega

/-- A heredoc, nowdoc or backtick string is untouched wherever it stands in code exactly if it is
quiet before an ellipsis. -/
theorem rawLiteral_untouched_iff (hlit : RawLiteral lit rest) :
    (∀ before rest, RawLiteral lit rest →
      Code .php (before ++ (lit ++ rest)) before (lit ++ rest) → Untouched before lit rest) ↔
        Quiet lit dots :=
  ⟨fun h => quiet_of_untouched (h [] dots hlit.before_dots (.here _)),
    fun h _ _ hlit' hcode => untouched_of_quiet hlit' (h.congr_rest hlit') hcode⟩

theorem rawLiteral_heredoc (line : List Char) (hline : '\n' ∉ line) (hlabel : ¬ ['A'] <:+: line) :
    RawLiteral ("<<<A\n".toList ++ line ++ "\nA".toList) ";\n".toList := by
  have h : RawLiteral ("<<<".toList ++ [] ++ ['A'] ++ [] ++
      (['\n'] ++ [line].flatMap (· ++ ['\n']) ++ []) ++ ['A']) ";\n".toList :=
    .heredoc (.inl rfl) ⟨'A', [], rfl, rfl, List.forall_mem_singleton.mpr rfl⟩ (.inl rfl)
      (by simpa using ⟨hline, fun h => hlabel h.label_within⟩) (by simp) (by rintro c ⟨⟩; rfl)
  simpa using h

theorem rawLiteral_untouched_call : RawLiteral "<<<A\nf(x)\nA".toList ";\n".toList ∧
    ∀ before rest, RawLiteral "<<<A\nf(x)\nA".toList rest →
      Code .php (before ++ ("<<<A\nf(x)\nA".toList ++ rest)) before
          ("<<<A\nf(x)\nA".toList ++ rest) →
        Untouched before "<<<A\nf(x)\nA".toList rest := by
  have hlit : RawLiteral "<<<A\nf(x)\nA".toList ";\n".toList :=
    rawLiteral_heredoc "f(x)".toList (by decide) (by decide)
  exact ⟨hlit, (rawLiteral_untouched_iff hlit).mpr (quiet_of_plain (by simp [isOpener]) _)⟩

/-- An ellipsis metavariable in a heredoc is replaced. -/
theorem heredoc_edited : RawLiteral "<<<A\n$...X\nA".toList ";\n".toList ∧
    Code .php "<<<A\n$...X\nA;\n".toList [] "<<<A\n$...X\nA;\n".toList ∧
    ¬ Untouched [] "<<<A\n$...X\nA".toList ";\n".toList := by
  refine ⟨rawLiteral_heredoc "$...X".toList (by decide) (by decide), .here _, ?_⟩
  rintro ⟨earlier, shift, hedits, hearlier⟩
  have hall : (insert .php ([] ++ ("<<<A\n$...X\nA".toList ++ ";\n".toList))).edits =
      [⟨5, 13, 5, 10⟩] := by decide
  have hrest : (insert .php ";\n".toList).edits = [] := by decide
  rw [hall, hrest, List.map_nil, List.append_nil] at hedits
  have hle := hearlier ⟨5, 13, 5, 10⟩ (hedits ▸ List.mem_singleton_self _)
  exact absurd hle (by decide)

end Placeholder

end CodePattern
