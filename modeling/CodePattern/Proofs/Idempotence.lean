import CodePattern.Proofs.Occurrence

/-! Inserting placeholders once more changes nothing. A text with placeholders in it has the
strings and comments of the text that was given, and nothing between them is pattern syntax: a
placeholder is no name of a metavariable, and no dollar sign or dot that was left looks at
anything but what it looked at before. -/

namespace CodePattern

namespace Lexical

variable {family : Family} {c : Char} {w lit rest text : List Char}

/-- No pattern syntax stands in code. -/
def Clean (family : Family) (text : List Char) : Prop :=
  ∀ before written after, Code family text before (written ++ after) →
    ¬ Syntax family written after

theorem clean_nil (family : Family) : Clean family [] := by
  intro before written after hcode hwritten
  obtain ⟨x, w, rfl, -⟩ := hwritten.exists_cons
  exact absurd hcode.text_eq (by simp)

theorem Clean.literal (hlit : Literal family lit rest) (h : Clean family rest) :
    Clean family (lit ++ rest) := by
  intro before written after hcode hwritten
  rcases hcode.literal_inv hlit with ⟨rfl, he⟩ | ⟨b, rfl, hb⟩
  · obtain ⟨x, w, rfl, hx⟩ := hwritten.exists_cons
    obtain ⟨y, lit, rfl, hy⟩ := hlit.exists_cons
    obtain rfl := (List.cons.inj he).1
    rcases hx with rfl | rfl <;> exact absurd hy (by decide)
  · exact h b written after hb hwritten

theorem Clean.append (hno : NoLiteral family (c :: (w ++ rest)))
    (hw : ∀ d ∈ w, isOpener d = false) (hdull : Dull family (c :: w) rest)
    (h : Clean family rest) : Clean family (c :: (w ++ rest)) := by
  intro before written after hcode hwritten
  rcases hcode.cons_append_inv hno hw with ⟨t, ht, hne, he⟩ | ⟨b, rfl, hb⟩
  · exact hdull before t ht hne written after he.symm hwritten
  · exact h b written after hb hwritten

/-- No string or comment can tell the texts apart by how they begin. -/
def Alike (rest rest' : List Char) : Prop :=
  rest'.head? = rest.head? ∨ (∃ c w, rest = c :: w ∧ (c = '$' ∨ c = '.')) ∧
    ∃ c w, rest' = c :: w ∧ (c = '$' ∨ c = '_')

section Alike

variable {rest' : List Char}

theorem Alike.nil (h : Alike [] rest') : rest' = [] := by
  rcases h with h | ⟨⟨c, w, he, -⟩, -⟩
  · exact List.head?_eq_none_iff.mp h
  · cases he

theorem Alike.append (h : Alike rest rest') (w : List Char) : Alike (w ++ rest) (w ++ rest') := by
  cases w with
  | nil => exact h
  | cons c w => exact .inl rfl

theorem Alike.prefix_iff {x : Char} (hx : x ≠ '$' ∧ x ≠ '.' ∧ x ≠ '_') (h : Alike rest rest') :
    [x] <+: rest' ↔ [x] <+: rest := by
  rw [singleton_prefix_iff, singleton_prefix_iff]
  rcases h with h | ⟨⟨c, w, rfl, hc⟩, d, w', rfl, hd⟩
  · rw [h]
  · simp only [List.head?_cons, Option.some.injEq]
    constructor
    · rintro rfl
      exact absurd hd (not_or.mpr ⟨hx.1, hx.2.2⟩)
    · rintro rfl
      exact absurd hc (not_or.mpr ⟨hx.1, hx.2.1⟩)

theorem NoLiteral.alike (hno : NoLiteral family (c :: rest)) (h : Alike rest rest') :
    NoLiteral family (c :: rest') := by
  rw [noLiteral_iff] at hno ⊢
  rw [Begins] at hno ⊢
  rwa [h.prefix_iff (by decide), h.prefix_iff (by decide), h.prefix_iff (by decide)]

theorem Opens.alike {d body : List Char} (hd : Opens family d (body ++ (d ++ rest)))
    (h : Alike rest rest') : Opens family d (body ++ (d ++ rest')) := by
  obtain ⟨q, hq, ⟨rfl, hf⟩ | ⟨rfl, hlone⟩⟩ := hd
  · exact ⟨q, hq, .inl ⟨rfl, hf⟩⟩
  · refine ⟨q, hq, .inr ⟨rfl, ?_⟩⟩
    have hloose : q ≠ '$' ∧ q ≠ '.' ∧ q ≠ '_' := by rcases hq with rfl | rfl <;> decide
    have hnext : Alike ([q] ++ rest) ([q] ++ rest') := h.append [q]
    rintro ⟨hf, htriple⟩
    refine hlone ⟨hf, ?_⟩
    cases body with
    | nil =>
      obtain ⟨-, htail⟩ := List.cons_prefix_cons.mp htriple
      exact List.cons_prefix_cons.mpr ⟨rfl, (h.prefix_iff hloose).mp htail⟩
    | cons c body =>
      obtain ⟨hc, htail⟩ := List.cons_prefix_cons.mp htriple
      exact List.cons_prefix_cons.mpr ⟨hc, ((hnext.append body).prefix_iff hloose).mp htail⟩

theorem Literal.alike (hlit : Literal family lit rest) (h : Alike rest rest') :
    Literal family lit rest' := by
  cases hlit with
  | string hd hbody => exact .string (hd.alike h) (hbody.congr_rest hd.ne_nil)
  | openString hd hbody =>
    obtain rfl := h.nil
    exact .openString hd hbody
  | @line lead body _ hlead hbody hrest =>
    refine .line ?_ (Free.congr_rest [] (by simp) hbody) ?_
    · rcases hlead with ⟨rfl, hopen⟩ | hlead
      · refine .inl ⟨rfl, ?_⟩
        rwa [(h.append body).prefix_iff (by decide)]
      · exact .inr hlead
    · rcases hrest with rfl | hrest
      · exact .inl h.nil
      · exact .inr ((h.prefix_iff (by decide)).mpr hrest)
  | block hf hbody => exact .block hf (hbody.congr_rest _ (by simp))
  | openBlock hf hbody =>
    obtain rfl := h.nil
    exact .openBlock hf hbody

end Alike

end Lexical

namespace Placeholder

open Lexical

variable {family : Family} {c : Char} {cs p rest out text : List Char}

/-- Text in code that a step copies, and the text after it. -/
inductive Passed (family : Family) : List Char → List Char → Prop
  | dollar {more : List Char} (h : isMetavariableName (word more) = false) :
      Passed family ['$'] (dots ++ more)
  | name {name rest : List Char} (hname : ∀ c ∈ name, isWordChar c = true)
      (hdots : ¬ dots <+: name ++ rest)
      (h : family = .python → isMetavariableName (word (name ++ rest)) = false) :
      Passed family ('$' :: name) rest
  | spread {rest : List Char} (h : family = .php → isSpread rest = true) : Passed family dots rest
  | plain {c : Char} {rest : List Char} (hdollar : c ≠ '$') (hdots : ¬ dots <+: c :: rest) :
      Passed family [c] rest

theorem Passed.exists_cons (h : Passed family p rest) :
    ∃ c w, p = c :: w ∧ ∀ d ∈ w, isOpener d = false := by
  cases h with
  | dollar => exact ⟨'$', [], rfl, by simp⟩
  | name hname => exact ⟨'$', _, rfl, fun d hd => not_opener_of_word (hname d hd)⟩
  | spread => exact ⟨'.', ['.', '.'], rfl, by simp [isOpener]⟩
  | @plain c => exact ⟨c, [], rfl, by simp⟩

/-- What the scan makes of a text in code, string by string and step by step. -/
inductive Becomes (family : Family) : List Char → List Char → Prop
  | nil : Becomes family [] []
  | literal {lit rest out : List Char} (hlit : Literal family lit rest)
      (h : Becomes family rest out) : Becomes family (lit ++ rest) (lit ++ out)
  | replaced {written new rest out : List Char} (hno : NoLiteral family (written ++ rest))
      (hwritten : Syntax family written rest) (hm : Marks family written new)
      (h : Becomes family rest out) : Becomes family (written ++ rest) (new ++ out)
  | passed {p rest out : List Char} (hno : NoLiteral family (p ++ rest))
      (hp : Passed family p rest) (h : Becomes family rest out) :
      Becomes family (p ++ rest) (p ++ out)

theorem passed_of_copy {n : Nat} (h : plainStep family c cs = .copy c cs n .code) :
    Passed family (c :: cs.take n) (cs.drop n) := by
  have hcopy : ∀ {m k : Nat}, Step.copy c cs m .code = .copy c cs k .code → m = k :=
    fun h => congrArg Step.more h
  have hreplace : ∀ {m : Nat} {new : List Char}, Step.replace c cs m new ≠ .copy c cs n .code :=
    fun h => nomatch congrArg Step.segment h
  unfold plainStep at h
  split_ifs at h with hdollarDots hdollar hdots
  · obtain ⟨rfl, hstarts⟩ := hdollarDots
    obtain ⟨more, rfl⟩ := startsWith_iff.mp hstarts
    rw [dollarDotsStep] at h
    split at h
    · exact absurd h hreplace
    · next hname =>
      obtain rfl := hcopy h
      exact .dollar (by simpa using hname)
  · subst hdollar
    rw [dollarStep] at h
    split at h
    · exact absurd h hreplace
    · next hname =>
      obtain rfl := hcopy h
      rw [take_word]
      have hwhole : word cs ++ cs.drop (word cs).length = cs := by
        rw [drop_word, word, List.takeWhile_append_dropWhile]
      refine .name (word_all cs) ?_ ?_ <;> rw [hwhole]
      · exact fun hd => hdollarDots ⟨rfl, startsWith_iff.mpr hd⟩
      · exact fun hf => by simpa [hf] using hname
  · obtain ⟨rfl, hstarts⟩ := hdots
    obtain ⟨more, rfl⟩ := startsWith_iff.mp hstarts
    rw [dotsStep] at h
    split at h
    · exact absurd h hreplace
    · next hspread =>
      obtain rfl := hcopy h
      exact .spread fun hf => by simpa [hf] using hspread
  · obtain rfl := hcopy h
    refine .plain hdollar fun hd => hdots ?_
    obtain ⟨hdot, htail⟩ := List.cons_prefix_cons.mp hd
    exact ⟨hdot.symm, startsWith_iff.mpr htail⟩

theorem becomes_insert (family : Family) (text : List Char) :
    Becomes family text (insert family text).text := by
  -- A string, a comment or a step may cover any number of characters.
  induction hn : text.length using Nat.strong_induction_on generalizing text with
  | _ n ih =>
    by_cases hno : NoLiteral family text
    · cases text with
      | nil => exact .nil
      | cons c cs =>
        have hadvances := plainStep_advances family c cs
        generalize hstep : plainStep family c cs = s at hadvances
        have hscan : (insert family (c :: cs)).text =
            s.segment.new ++ textAfter (scan family s.more s.region cs) := by
          rw [← hstep, ← codeStep_of_noLiteral hno]
          exact textAfter_cons _ _
        rw [hscan]
        have hrest : ∀ k, Becomes family (cs.drop k) (textAfter (scan family k .code cs)) := by
          intro k
          rw [scan_covered]
          exact ih _ (by simp only [List.length_cons, List.length_drop] at hn ⊢; omega) _ rfl
        cases hadvances with
        | @replace k new hwritten hm =>
          have hsplit : c :: cs = (c :: cs.take k) ++ cs.drop k := by simp
          rw [hsplit] at hno ⊢
          exact .replaced hno hwritten hm (hrest k)
        | @copy k =>
          have hsplit : c :: cs = (c :: cs.take k) ++ cs.drop k := by simp
          rw [hsplit] at hno ⊢
          exact .passed hno (passed_of_copy hstep) (hrest k)
    · simp only [NoLiteral, not_forall, not_not] at hno
      obtain ⟨lit, rest, rfl, hlit⟩ := hno
      obtain ⟨copied, hscan, hcopied, hbefore⟩ := literal_copies hlit
      have hout : (insert family (lit ++ rest)).text = lit ++ (insert family rest).text := by
        show textAfter (scan family 0 .code (lit ++ rest)) = _
        rw [hscan, textAfter, List.flatMap_append, ← textAfter, textAfter_of_copied hcopied,
          hbefore]
        rfl
      rw [hout]
      exact .literal hlit (ih rest.length (hn ▸ hlit.length_lt) rest rfl)

theorem Marks.heads {written new : List Char} (h : Marks family written new) :
    (∃ c w, written = c :: w ∧ (c = '$' ∨ c = '.')) ∧
      ∃ c w, new = c :: w ∧ (c = '$' ∨ c = '_') := by
  cases h with
  | metavariable => exact ⟨⟨'$', _, rfl, .inl rfl⟩, '_', _, rfl, .inr rfl⟩
  | ellipsisMetavariable =>
    refine ⟨⟨'$', _, rfl, .inl rfl⟩, ?_⟩
    cases family with
    | python => exact ⟨'_', _, rfl, .inr rfl⟩
    | php => exact ⟨'$', _, rfl, .inl rfl⟩
  | ellipsis => exact ⟨⟨'.', _, rfl, .inr rfl⟩, '_', _, rfl, .inr rfl⟩

theorem Marks.not_opener {written new : List Char} (h : Marks family written new) :
    ∀ c ∈ new, isOpener c = false := by
  obtain ⟨lead, run, rfl, hlead, -, hrun⟩ := h.exists_run
  intro c hc
  rcases List.mem_append.mp hc with hc | hc
  · rcases hlead with rfl | rfl
    · cases hc
    · obtain rfl := List.mem_singleton.mp hc
      rfl
  · exact not_opener_of_word (hrun c hc)

theorem Marks.dull {written new : List Char} (h : Marks family written new) (rest : List Char) :
    Dull family new rest := by
  obtain ⟨lead, run, rfl, rfl | rfl, hne, hrun⟩ := h.exists_run
  · exact dull_word hrun rest
  · refine dull_cons (fun written' after he hs => ?_) (dull_word hrun rest)
    rcases hs with hs | ⟨-, rfl, -⟩
    · cases hs with
      | metavariable hf =>
        subst hf
        exact Marks.not_dollar_python h
      | ellipsis =>
        obtain ⟨c, run, rfl⟩ := List.exists_cons_of_ne_nil hne
        obtain rfl : c = '.' := (List.cons.inj (List.cons.inj he).2).1
        exact absurd (hrun '.' List.mem_cons_self) (by decide)
    · exact absurd (List.cons.inj he).1 (by decide)

theorem Becomes.plain_inv (h : Becomes family (c :: cs) out) (hopener : isOpener c = false)
    (hdollar : c ≠ '$') (hdots : ¬ dots <+: c :: cs) :
    ∃ out', out = c :: out' ∧ Becomes family cs out' := by
  generalize htext : c :: cs = text at h
  cases h with
  | nil => cases htext
  | literal hlit =>
    obtain ⟨x, lit, rfl, hx⟩ := hlit.exists_cons
    obtain rfl := (List.cons.inj htext).1
    rw [hopener] at hx
    cases hx
  | @replaced written new rest out _ hwritten =>
    rcases hwritten.cases with ⟨w, rfl⟩ | ⟨-, rfl⟩
    · exact absurd (List.cons.inj htext).1 hdollar
    · exact absurd ⟨rest, htext.symm⟩ hdots
  | @passed p rest out _ hp h =>
    cases hp with
    | dollar => exact absurd (List.cons.inj htext).1 hdollar
    | name => exact absurd (List.cons.inj htext).1 hdollar
    | spread => exact absurd ⟨rest, htext.symm⟩ hdots
    | plain =>
      obtain ⟨rfl, rfl⟩ := List.cons.inj htext
      exact ⟨out, rfl, h⟩

theorem Becomes.word_inv {name : List Char} (hname : ∀ c ∈ name, isWordChar c = true)
    (h : Becomes family (name ++ rest) out) :
    ∃ out', out = name ++ out' ∧ Becomes family rest out' := by
  induction name generalizing out with
  | nil => exact ⟨out, rfl, h⟩
  | cons c name ih =>
    have hword := hname c List.mem_cons_self
    have hdollar : c ≠ '$' := by
      rintro rfl
      exact absurd hword (by decide)
    have hdots : ¬ dots <+: c :: (name ++ rest) := by
      intro hd
      obtain ⟨rfl, -⟩ := List.cons_prefix_cons.mp hd
      exact absurd hword (by decide)
    obtain ⟨more, rfl, hmore⟩ := h.plain_inv (not_opener_of_word hword) hdollar hdots
    obtain ⟨out', rfl, hrest⟩ := ih (fun d hd => hname d (List.mem_cons_of_mem _ hd)) hmore
    exact ⟨out', rfl, hrest⟩

theorem Becomes.dots_inv (h : Becomes family (dots ++ rest) (dots ++ out)) :
    Becomes family rest out ∧ (family = .php → isSpread rest = true) := by
  generalize htext : dots ++ rest = text at h
  generalize hout : dots ++ out = text' at h
  cases h with
  | nil => cases htext
  | literal hlit =>
    obtain ⟨x, lit, rfl, hx⟩ := hlit.exists_cons
    obtain rfl := (List.cons.inj htext).1
    cases hx
  | @replaced written new rest' out' _ _ hm =>
    obtain ⟨c, new, rfl, rfl | rfl⟩ := hm.heads.2
    · exact absurd (List.cons.inj hout).1 (by decide)
    · exact absurd (List.cons.inj hout).1 (by decide)
  | @passed p rest' out' _ hp h =>
    cases hp with
    | dollar => exact absurd (List.cons.inj htext).1 (by decide)
    | name => exact absurd (List.cons.inj htext).1 (by decide)
    | spread hspread =>
      obtain rfl := List.append_cancel_left htext
      obtain rfl := List.append_cancel_left hout
      exact ⟨h, hspread⟩
    | plain _ hdots => exact absurd ⟨rest, htext⟩ hdots

/-- The first character stays, unless a placeholder is put for what begins with it. -/
theorem Becomes.head (h : Becomes family text out) : out.head? = text.head? ∨
    ∃ written rest new out', text = written ++ rest ∧ Marks family written new ∧
      out = new ++ out' := by
  cases h with
  | nil => exact .inl rfl
  | literal hlit =>
    obtain ⟨x, lit, rfl, -⟩ := hlit.exists_cons
    exact .inl rfl
  | replaced _ _ hm => exact .inr ⟨_, _, _, _, rfl, hm, rfl⟩
  | passed _ hp =>
    obtain ⟨c, w, rfl, -⟩ := hp.exists_cons
    exact .inl rfl

theorem Becomes.isSpread (h : Becomes family text out) (hspread : isSpread text = true) :
    isSpread out = true := by
  rcases h.head with hsame | ⟨written, rest, new, out', rfl, hm, rfl⟩
  · cases text with
    | nil => cases hspread
    | cons c text =>
      obtain ⟨out, rfl⟩ := List.head?_eq_some_iff.mp hsame
      exact hspread
  · obtain ⟨c, new, rfl, rfl | rfl⟩ := hm.heads.2 <;> rfl

theorem Becomes.dots_of_dots {n : Nat} (h : Becomes family text out) (hn : n ≤ 3)
    (hdots : List.replicate n '.' <+: out) : List.replicate n '.' <+: text := by
  induction n generalizing text out with
  | zero => exact List.nil_prefix
  | succ n ih =>
    obtain ⟨more, rfl⟩ := hdots
    have hfirst : text.head? = some '.' := by
      rcases h.head with hsame | ⟨written, rest, new, out', rfl, hm, hout⟩
      · exact hsame.symm
      · obtain ⟨c, new, rfl, rfl | rfl⟩ := hm.heads.2
        · exact absurd (List.cons.inj hout).1 (by decide)
        · exact absurd (List.cons.inj hout).1 (by decide)
    obtain ⟨cs, rfl⟩ := List.head?_eq_some_iff.mp hfirst
    -- Dots that are fewer than three are copied one by one.
    by_cases hthree : dots <+: '.' :: cs
    · have hle : List.replicate (n + 1) '.' <+: dots := by
        show List.replicate (n + 1) '.' <+: List.replicate 3 '.'
        exact List.prefix_replicate_iff.mpr ⟨by simpa using hn, by simp⟩
      exact hle.trans hthree
    · obtain ⟨out', hout, hcs⟩ := h.plain_inv rfl (by decide) hthree
      obtain rfl := (List.cons.inj hout).2
      exact List.cons_prefix_cons.mpr ⟨rfl, ih hcs (by omega) (List.prefix_append _ _)⟩

theorem word_eq_nil (h : ∀ c ∈ cs.head?, isWordChar c = false) : word cs = [] := by
  cases cs with
  | nil => rfl
  | cons c cs => rw [word, List.takeWhile_cons_of_neg (by simp [h c rfl])]

theorem isMetavariableName_left {s t : List Char} (hs : s ≠ [])
    (h : isMetavariableName (s ++ t) = true) : isMetavariableName s = true := by
  obtain ⟨c, s, rfl⟩ := List.exists_cons_of_ne_nil hs
  simp only [List.cons_append, isMetavariableName, List.all_append, Bool.and_eq_true] at h ⊢
  exact ⟨h.1, h.2.1⟩

theorem not_name_of_mark (more : List Char) :
    isMetavariableName (word ('_' :: '_' :: 'm' :: more)) = false := by
  rw [word, List.takeWhile_cons_of_pos rfl, List.takeWhile_cons_of_pos rfl,
    List.takeWhile_cons_of_pos rfl]
  rfl

/-- What begins with a name of a metavariable began with one before, unless it began with an
ellipsis of PHP. -/
theorem Becomes.name_of_name (h : Becomes family text out)
    (hlook : family = .php → Placeholder.isSpread text = true)
    (hname : isMetavariableName (word out) = true) : isMetavariableName (word text) = true := by
  have hsplit : word text ++ text.dropWhile isWordChar = text := List.takeWhile_append_dropWhile
  obtain ⟨more, rfl, -⟩ := (hsplit ▸ h).word_inv (word_all text)
  have hword : word (word text ++ more) = word text ++ word more :=
    List.takeWhile_append_of_pos (word_all text)
  rw [hword] at hname
  by_cases hempty : word text = []
  · rw [hempty, List.nil_append] at hname h
    have hhead : ∀ c ∈ text.head?, isWordChar c = false := by
      have hnot := List.head?_dropWhile_not isWordChar text
      rw [hempty, List.nil_append] at hsplit
      rw [hsplit] at hnot
      intro c hc
      rw [Option.mem_def.mp hc] at hnot
      simpa using hnot
    rcases h.head with hsame | ⟨written, rest, new, out', rfl, hm, rfl⟩
    · rw [word_eq_nil (hsame ▸ hhead)] at hname
      cases hname
    · cases hm with
      | @metavariable name =>
        have hnot : isMetavariableName (word (metavariableMark ++ name ++ out')) = false :=
          not_name_of_mark _
        rw [hnot] at hname
        cases hname
      | @ellipsisMetavariable name =>
        cases family with
        | python =>
          have hnot :
              isMetavariableName (word (ellipsisMetavariable .python name ++ out')) = false :=
            not_name_of_mark _
          rw [hnot] at hname
          cases hname
        | php => cases hname
      | ellipsis hf => cases hlook hf
  · exact isMetavariableName_left hempty hname

theorem Becomes.append_word {name : List Char} (hname : ∀ c ∈ name, isWordChar c = true)
    (h : Becomes family rest out) : Becomes family (name ++ rest) (name ++ out) := by
  induction name with
  | nil => exact h
  | cons c name ih =>
    have hword := hname c List.mem_cons_self
    have hpassed : Passed family [c] (name ++ rest) := by
      refine .plain ?_ fun hd => ?_
      · rintro rfl
        exact absurd hword (by decide)
      · obtain ⟨rfl, -⟩ := List.cons_prefix_cons.mp hd
        exact absurd hword (by decide)
    have hcons : Becomes family ([c] ++ (name ++ rest)) ([c] ++ (name ++ out)) :=
      .passed (noLiteral_of_not_opener (not_opener_of_word hword) _) hpassed
        (ih fun d hd => hname d (List.mem_cons_of_mem _ hd))
    exact hcons

/-- No pattern syntax begins in copied text after the text behind it has changed. -/
theorem Passed.dull (hp : Passed family p rest) (h : Becomes family rest out) :
    Dull family p out := by
  cases hp with
  | @dollar more hname =>
    refine dull_cons (fun written after he hs => ?_) (dull_nil _ _)
    rcases hs with hs | ⟨-, rfl, -⟩
    · cases hs with
      | metavariable hf hn =>
        obtain rfl : out = _ ++ after := (List.cons.inj he).2
        have hstart := h.name_of_name (fun hphp => nomatch hf.symm.trans hphp)
          (by rw [word_of_nameBefore hn]; exact hn.1)
        cases hstart
      | @ellipsis name _ hn =>
        have htail : out = dots ++ (name ++ after) := by simpa using (List.cons.inj he).2
        obtain ⟨hmore, hspread⟩ := (htail ▸ h).dots_inv
        have hstart := hmore.name_of_name hspread (by rw [word_of_nameBefore hn]; exact hn.1)
        rw [hname] at hstart
        cases hstart
    · exact absurd (List.cons.inj he).1 (by decide)
  | @name name _ hword hdots hname =>
    have hwhole := h.append_word hword
    refine dull_cons (fun written after he hs => ?_) (dull_word hword out)
    rcases hs with hs | ⟨-, rfl, -⟩
    · cases hs with
      | metavariable hf hn =>
        have htail : name ++ out = _ ++ after := (List.cons.inj he).2
        have hstart := hwhole.name_of_name (fun hphp => nomatch hf.symm.trans hphp)
          (by rw [htail, word_of_nameBefore hn]; exact hn.1)
        rw [hname hf] at hstart
        cases hstart
      | @ellipsis name' _ hn =>
        have htail : name ++ out = dots ++ (name' ++ after) := by
          simpa using (List.cons.inj he).2
        have hthree : List.replicate 3 '.' <+: name ++ out := ⟨_, htail.symm⟩
        exact hdots (hwhole.dots_of_dots (Nat.le_refl 3) hthree)
    · exact absurd (List.cons.inj he).1 (by decide)
  | spread hspread =>
    refine dull_dots fun hbare => ?_
    have hnone := (isSpread_eq_false_iff out).mpr hbare.2
    rw [h.isSpread (hspread hbare.1)] at hnone
    cases hnone
  | @plain c _ hdollar hdots =>
    refine dull_cons (fun written after he hs => ?_) (dull_nil _ _)
    rcases hs.cases with ⟨w, rfl⟩ | ⟨-, rfl⟩
    · exact hdollar (List.cons.inj he).1
    · obtain ⟨rfl, htail⟩ := List.cons.inj he
      have htwo : List.replicate 2 '.' <+: out := ⟨after, htail.symm⟩
      exact hdots (List.cons_prefix_cons.mpr ⟨rfl, h.dots_of_dots (by omega) htwo⟩)

theorem Becomes.alike (h : Becomes family text out) : Alike text out := by
  rcases h.head with hsame | ⟨written, rest, new, out', rfl, hm, rfl⟩
  · exact .inl hsame
  · obtain ⟨⟨c, w, rfl, hc⟩, d, w', rfl, hd⟩ := hm.heads
    exact .inr ⟨⟨c, w ++ rest, rfl, hc⟩, d, w' ++ out', rfl, hd⟩

theorem Becomes.clean (h : Becomes family text out) : Clean family out := by
  -- By `alike` the part that is added begins a string or comment exactly if it did so before.
  induction h with
  | nil => exact clean_nil family
  | literal hlit h ih => exact ih.literal (hlit.alike h.alike)
  | @replaced written new rest out _ _ hm h ih =>
    have hopener := hm.not_opener
    obtain ⟨c, w, rfl, -⟩ := hm.heads.2
    exact ih.append (noLiteral_of_not_opener (hopener c List.mem_cons_self) _)
      (fun d hd => hopener d (List.mem_cons_of_mem _ hd)) (hm.dull out)
  | @passed p rest out hno hp h ih =>
    obtain ⟨c, w, rfl, hw⟩ := hp.exists_cons
    exact ih.append (hno.alike (h.alike.append w)) hw (hp.dull h)

theorem Becomes.literals (h : Becomes family text out) :
    ∃ lits, Literals family text lits ∧ Literals family out lits := by
  induction h with
  | nil => exact ⟨[], .nil, .nil⟩
  | @literal lit rest out hlit h ih =>
    obtain ⟨lits, htext, hout⟩ := ih
    exact ⟨lit :: lits, .literal hlit htext, .literal (hlit.alike h.alike) hout⟩
  | @replaced written new rest out hno hwritten hm h ih =>
    obtain ⟨lits, htext, hout⟩ := ih
    obtain ⟨c, w, rfl, -⟩ := hwritten.exists_cons
    exact ⟨lits, .char hno (htext.append hwritten.tail_not_opener), hout.append hm.not_opener⟩
  | @passed p rest out hno hp h ih =>
    obtain ⟨lits, htext, hout⟩ := ih
    obtain ⟨c, w, rfl, hw⟩ := hp.exists_cons
    exact ⟨lits, .char hno (htext.append hw),
      .char (hno.alike (h.alike.append w)) (hout.append hw)⟩

theorem insert_of_clean (h : Clean family text) : insert family text = ⟨text, []⟩ := by
  have hedits : (insert family text).edits = [] := by
    refine List.eq_nil_iff_forall_not_mem.mpr fun e he => ?_
    obtain ⟨before, written, after, hcode, hwritten, -⟩ := code_of_edit family text 0 0 he
    exact h before written after hcode hwritten
  have htext : (insert family text).text = text := by
    show textAfter (segments family text) = text
    rw [textAfter_of_copied (copied_of_editsFrom hedits), textBefore_segments]
  calc insert family text = ⟨(insert family text).text, (insert family text).edits⟩ := rfl
    _ = ⟨text, []⟩ := by rw [htext, hedits]

/-- A second insertion finds nothing to replace, and the strings and comments stay the same. -/
theorem insert_insert (family : Family) (text : List Char) :
    let once := (insert family text).text
    insert family once = ⟨once, []⟩ ∧
      (∀ before written after, Code family once before (written ++ after) →
        ¬ Syntax family written after) ∧
      ∃ literals, ∀ lits,
        (Literals family text lits ↔ lits = literals) ∧
          (Literals family once lits ↔ lits = literals) := by
  intro once
  have hbecomes := becomes_insert family text
  obtain ⟨literals, htext, honce⟩ := hbecomes.literals
  refine ⟨insert_of_clean hbecomes.clean, hbecomes.clean, literals, fun lits => ?_⟩
  exact ⟨⟨fun h => h.unique htext, fun h => h ▸ htext⟩,
    ⟨fun h => h.unique honce, fun h => h ▸ honce⟩⟩

end Placeholder

end CodePattern
