import CodePattern.Proofs.Lexical

/-! The strings and comments of a text, in order. Where one begins is told by the next characters,
and where one begins there is only one place where it ends, so a text is read in one way. -/

namespace CodePattern

namespace Lexical

variable {family : Family} {c : Char} {after d d' mark body body' rest rest' : List Char}

theorem singleton_prefix_iff {x : Char} {cs : List Char} : [x] <+: cs ↔ cs.head? = some x := by
  cases cs with
  | nil => simp
  | cons c cs => rw [List.cons_prefix_cons]; simp [eq_comm]

theorem Inside.congr_rest (h : Inside d body (d ++ rest)) (hne : d ≠ []) :
    Inside d body (d ++ rest') := by
  generalize he : d ++ rest = stop at h
  induction h with
  | nil => exact .nil _
  | @plain c body stop hc hd _ ih =>
    refine .plain hc (fun hprefix => hd ?_) (ih he)
    have hshort : d <+: c :: (body ++ d) := by
      refine List.prefix_of_prefix_length_le hprefix ?_ (by simp; omega)
      exact List.cons_prefix_cons.mpr ⟨rfl, by simp [← List.append_assoc]⟩
    refine hshort.trans (List.cons_prefix_cons.mpr ⟨rfl, ?_⟩)
    rw [← he, ← List.append_assoc]
    exact List.prefix_append _ _
  | hidden c _ ih => exact .hidden c (ih he)
  | last => exact absurd (List.append_eq_nil_iff.mp he).1 hne

theorem Free.congr_rest (before : List Char) (hmark : mark.length ≤ before.length + 1)
    (h : Free mark body (before ++ rest)) : Free mark body (before ++ rest') := by
  intro s t he ht hprefix
  have hpos := List.length_pos_iff.mpr ht
  have hshort : mark <+: t ++ before := by
    refine List.prefix_of_prefix_length_le hprefix ?_ (by rw [List.length_append]; omega)
    rw [← List.append_assoc]
    exact List.prefix_append _ _
  refine h s t he ht (hshort.trans ?_)
  rw [← List.append_assoc]
  exact List.prefix_append _ _

/-- A string or comment begins with the character, the text being what comes after it. -/
def Begins (family : Family) (c : Char) (after : List Char) : Prop :=
  (c = '\x27' ∨ c = '"') ∨ (c = '#' ∧ (family = .python ∨ ¬ ['['] <+: after)) ∨
    (c = '/' ∧ family = .php ∧ (['/'] <+: after ∨ ['*'] <+: after))

theorem Opens.begins (h : Opens family d body) (he : d ++ rest = c :: after) :
    Begins family c after := by
  obtain ⟨q, hq, ⟨rfl, -⟩ | ⟨rfl, -⟩⟩ := h
  · exact .inl ((List.cons.inj he).1 ▸ hq)
  · exact .inl ((List.cons.inj he).1 ▸ hq)

theorem Literal.begins {lit : List Char} (h : Literal family lit rest)
    (he : lit ++ rest = c :: after) : Begins family c after := by
  cases h with
  | string hd => exact hd.begins (by simpa using he)
  | openString hd => exact hd.begins (by simpa using he)
  | line hlead =>
    rcases hlead with ⟨rfl, hopen⟩ | ⟨rfl, hf⟩
    · obtain ⟨rfl, rfl⟩ := List.cons.inj he
      exact .inr (.inl ⟨rfl, hopen⟩)
    · obtain ⟨rfl, rfl⟩ := List.cons.inj he
      exact .inr (.inr ⟨rfl, hf, .inl ⟨_, rfl⟩⟩)
  | block hf =>
    obtain ⟨rfl, rfl⟩ := List.cons.inj he
    exact .inr (.inr ⟨rfl, hf, .inr ⟨_, rfl⟩⟩)
  | openBlock hf =>
    obtain ⟨rfl, rfl⟩ := List.cons.inj he
    exact .inr (.inr ⟨rfl, hf, .inr ⟨_, rfl⟩⟩)

theorem noLiteral_iff : NoLiteral family (c :: after) ↔ ¬ Begins family c after := by
  constructor
  · rintro hno (hq | ⟨rfl, hopen⟩ | ⟨rfl, rfl, ⟨more, rfl⟩ | ⟨more, rfl⟩⟩)
    · by_cases htriple : family = .python ∧ [c, c] <+: after
      · obtain ⟨hf, more, rfl⟩ := htriple
        exact not_noLiteral_of_opens ⟨c, hq, .inl ⟨rfl, hf⟩⟩ hno
      · exact not_noLiteral_of_opens ⟨c, hq, .inr ⟨rfl, htriple⟩⟩ hno
    · exact not_noLiteral_of_lineLead (.inl ⟨rfl, hopen⟩) hno
    · exact not_noLiteral_of_lineLead (.inr ⟨rfl, rfl⟩) hno
    · exact not_noLiteral_of_block more hno
  · intro hb lit rest he hlit
    exact hb (hlit.begins he.symm)

theorem Opens.unique (h : Opens family d rest) (h' : Opens family d' rest')
    (he : d ++ rest = d' ++ rest') : d = d' := by
  obtain ⟨q, -, h⟩ := h
  obtain ⟨q', -, h'⟩ := h'
  rcases h with ⟨rfl, hf⟩ | ⟨rfl, hlone⟩ <;> rcases h' with ⟨rfl, hf'⟩ | ⟨rfl, hlone'⟩
  · rw [(List.cons.inj he).1]
  · obtain ⟨rfl, rfl⟩ := List.cons.inj he
    exact absurd ⟨hf, _, rfl⟩ hlone'
  · obtain ⟨rfl, rfl⟩ := List.cons.inj he
    exact absurd ⟨hf', _, rfl⟩ hlone
  · rw [(List.cons.inj he).1]

theorem Opens.ne_nil (h : Opens family d after) : d ≠ [] := by
  obtain ⟨q, d', rfl, -⟩ := h.exists_cons
  exact List.cons_ne_nil _ _

theorem Opens.not_backslash (h : Opens family d after) (more : List Char) :
    ¬ d <+: '\\' :: more := by
  obtain ⟨q, hq, ⟨rfl, -⟩ | ⟨rfl, -⟩⟩ := h <;>
  · rw [List.cons_prefix_cons]
    rcases hq with rfl | rfl <;> exact fun h => absurd h.1 (by decide)

theorem Inside.not_prefix (hbackslash : ∀ more, ¬ d <+: '\\' :: more) (h : Inside d body rest)
    (hne : body ≠ []) : ¬ d <+: body ++ rest := by
  cases h with
  | nil => exact absurd rfl hne
  | plain _ hd => exact hd
  | hidden => exact hbackslash _
  | last => exact hbackslash _

/-- The body of a string ends at the first delimiter, or else at the end of the text. -/
theorem Inside.unique (hbackslash : ∀ more, ¬ d <+: '\\' :: more) (h : Inside d body rest)
    (hrest : rest = [] ∨ d <+: rest) (h' : Inside d body' rest')
    (hrest' : rest' = [] ∨ d <+: rest') (he : body ++ rest = body' ++ rest') : body = body' := by
  -- Where one body has ended and the other has not, the rest begins with a delimiter.
  have hended : ∀ {s t r}, Inside d s r → (t = [] ∨ d <+: t) → t = s ++ r → s = [] := by
    intro s t r hs ht heq
    by_cases hne : s = []
    · exact hne
    · exact absurd (heq ▸ ht.resolve_left (by simp [heq, hne])) (hs.not_prefix hbackslash hne)
  induction h generalizing body' with
  | nil => exact (hended h' hrest he).symm
  | @plain c body rest hc hd h ih =>
    cases h' with
    | nil => exact hended (.plain hc hd h) hrest' he.symm
    | plain _ _ h' =>
      obtain ⟨rfl, htail⟩ := List.cons.inj he
      rw [ih hrest h' htail]
    | hidden => exact absurd (List.cons.inj he).1 hc
    | last => exact absurd (List.cons.inj he).1 hc
  | @hidden c body rest h ih =>
    cases h' with
    | nil => exact hended (.hidden c h) hrest' he.symm
    | plain hc => exact absurd (List.cons.inj he).1.symm hc
    | hidden c' h' =>
      obtain ⟨rfl, htail⟩ := List.cons.inj (List.cons.inj he).2
      rw [ih hrest h' htail]
    | last => exact absurd (List.cons.inj he).2 (by simp)
  | last =>
    cases h' with
    | nil => exact hended .last hrest' he.symm
    | plain hc => exact absurd (List.cons.inj he).1.symm hc
    | hidden => exact absurd (List.cons.inj he).2 (by simp)
    | last => rfl

theorem Free.unique (h : Free mark body rest) (hrest : rest = [] ∨ mark <+: rest)
    (h' : Free mark body' rest') (hrest' : rest' = [] ∨ mark <+: rest')
    (he : body ++ rest = body' ++ rest') : body = body' := by
  have hended : ∀ {s t r r'}, Free mark (s ++ t) r → r' = t ++ r → (r' = [] ∨ mark <+: r') →
      t = [] := by
    intro s t r r' hfree heq hr'
    by_cases hne : t = []
    · exact hne
    · exact absurd (heq ▸ hr'.resolve_left (by simp [heq, hne])) (hfree s t rfl hne)
  rcases List.append_eq_append_iff.mp he with ⟨t, rfl, ht⟩ | ⟨t, rfl, ht⟩
  · rw [hended h' ht hrest, List.append_nil]
  · rw [hended h ht hrest', List.append_nil]

/-- What ends a string or a comment in several lines, if anything does. -/
def IsEnd (mark last rest : List Char) : Prop := last = mark ∨ last = [] ∧ rest = []

section Ends

variable {last last' : List Char}

theorem IsEnd.next (h : IsEnd mark last rest) : last ++ rest = [] ∨ mark <+: last ++ rest := by
  rcases h with rfl | ⟨rfl, rfl⟩
  · exact .inr (List.prefix_append _ _)
  · exact .inl rfl

theorem IsEnd.unique (hmark : mark ≠ []) (h : IsEnd mark last rest) (h' : IsEnd mark last' rest')
    (he : last ++ rest = last' ++ rest') : last = last' := by
  rcases h with rfl | ⟨rfl, rfl⟩ <;> rcases h' with rfl | ⟨rfl, rfl⟩
  · rfl
  · exact absurd (List.append_eq_nil_iff.mp he).1 hmark
  · exact absurd (List.append_eq_nil_iff.mp he.symm).1 hmark
  · rfl

end Ends

/-- A string, a comment on one line, or one in several lines, each with its parts. -/
theorem Literal.parts {lit : List Char} (h : Literal family lit rest) :
    (∃ d body last, lit = d ++ (body ++ last) ∧ Opens family d (body ++ (last ++ rest)) ∧
      Inside d body (last ++ rest) ∧ IsEnd d last rest) ∨
    (∃ lead body, lit = lead ++ body ∧ LineLead family lead (body ++ rest) ∧
      Free ['\n'] body rest ∧ (rest = [] ∨ ['\n'] <+: rest)) ∨
    ∃ body last, lit = '/' :: '*' :: (body ++ last) ∧ Free ['*', '/'] body (last ++ rest) ∧
      IsEnd ['*', '/'] last rest := by
  cases h with
  | @string d body _ hd hbody =>
    exact .inl ⟨d, body, d, List.append_assoc _ _ _, hd, hbody, .inl rfl⟩
  | @openString d body hd hbody =>
    exact .inl ⟨d, body, [], by simp, by simpa using hd, hbody, .inr ⟨rfl, rfl⟩⟩
  | line hlead hbody hrest => exact .inr (.inl ⟨_, _, rfl, hlead, hbody, hrest⟩)
  | block _ hbody => exact .inr (.inr ⟨_, _, rfl, hbody, .inl rfl⟩)
  | @openBlock body _ hbody => exact .inr (.inr ⟨body, [], by simp, hbody, .inr ⟨rfl, rfl⟩⟩)

section Unique

variable {text text' lead lit lit' : List Char}

theorem Opens.ne_block (h : Opens family d after) : d ++ text ≠ '/' :: '*' :: text' := by
  obtain ⟨q, hq, ⟨rfl, -⟩ | ⟨rfl, -⟩⟩ := h <;>
  · intro he
    obtain rfl := (List.cons.inj he).1
    exact absurd hq (by decide)

theorem Opens.ne_lineLead (h : Opens family d after) (hlead : LineLead family lead rest) :
    d ++ text ≠ lead ++ text' := by
  obtain ⟨q, hq, ⟨rfl, -⟩ | ⟨rfl, -⟩⟩ := h <;> rcases hlead with ⟨rfl, -⟩ | ⟨rfl, -⟩ <;>
  · intro he
    obtain rfl := (List.cons.inj he).1
    exact absurd hq (by decide)

theorem LineLead.ne_block (h : LineLead family lead after) :
    lead ++ text ≠ '/' :: '*' :: text' := by
  rcases h with ⟨rfl, -⟩ | ⟨rfl, -⟩ <;> simp

theorem LineLead.unique (h : LineLead family lead after) (h' : LineLead family d rest)
    (he : lead ++ text = d ++ text') : lead = d := by
  rcases h with ⟨rfl, -⟩ | ⟨rfl, -⟩ <;> rcases h' with ⟨rfl, -⟩ | ⟨rfl, -⟩
  · rfl
  · exact absurd (List.cons.inj he).1 (by decide)
  · exact absurd (List.cons.inj he).1 (by decide)
  · rfl

/-- Where a string or comment begins, there is only one place where it ends. -/
theorem Literal.unique (h : Literal family lit rest) (h' : Literal family lit' rest')
    (he : lit ++ rest = lit' ++ rest') : lit = lit' := by
  rcases h.parts with ⟨d, body, last, rfl, hd, hbody, hlast⟩ |
    ⟨lead, body, rfl, hlead, hbody, hrest⟩ | ⟨body, last, rfl, hbody, hlast⟩ <;>
  rcases h'.parts with ⟨d', body', last', rfl, hd', hbody', hlast'⟩ |
    ⟨lead', body', rfl, hlead', hbody', hrest'⟩ | ⟨body', last', rfl, hbody', hlast'⟩ <;>
  simp only [List.append_assoc, List.cons_append] at he
  · obtain rfl := hd.unique hd' he
    have hrest := List.append_cancel_left he
    obtain rfl := hbody.unique hd.not_backslash hlast.next hbody' hlast'.next hrest
    rw [hlast.unique hd.ne_nil hlast' (List.append_cancel_left hrest)]
  · exact absurd he (hd.ne_lineLead hlead')
  · exact absurd he hd.ne_block
  · exact absurd he.symm (hd'.ne_lineLead hlead)
  · obtain rfl := hlead.unique hlead' he
    rw [hbody.unique hrest hbody' hrest' (List.append_cancel_left he)]
  · exact absurd he hlead.ne_block
  · exact absurd he.symm hd'.ne_block
  · exact absurd he.symm hlead'.ne_block
  · obtain htail := (List.cons.inj (List.cons.inj he).2).2
    obtain rfl := hbody.unique hlast.next hbody' hlast'.next htail
    rw [hlast.unique (by simp) hlast' (List.append_cancel_left htail)]

theorem Code.literal_inv {before : List Char} (hlit : Literal family lit rest)
    (h : Code family (lit ++ rest) before after) :
    before = [] ∧ after = lit ++ rest ∨ ∃ b, before = lit ++ b ∧ Code family rest b after := by
  generalize htext : lit ++ rest = text at h
  cases h with
  | here => exact .inl ⟨rfl, rfl⟩
  | @literal lit' rest' before' _ hlit' h =>
    obtain rfl := hlit.unique hlit' htext
    obtain rfl := List.append_cancel_left htext
    exact .inr ⟨before', rfl, h⟩
  | char hno => exact absurd hlit (hno _ _ htext.symm)

end Unique

/-- Read from the left, the text has these strings and comments. -/
inductive Literals (family : Family) : List Char → List (List Char) → Prop
  | nil : Literals family [] []
  | literal {lit rest : List Char} {lits : List (List Char)} (hlit : Literal family lit rest)
      (h : Literals family rest lits) : Literals family (lit ++ rest) (lit :: lits)
  | char {c : Char} {rest : List Char} {lits : List (List Char)}
      (hno : NoLiteral family (c :: rest)) (h : Literals family rest lits) :
      Literals family (c :: rest) lits

section Literals

variable {text lit p : List Char} {lits lits' : List (List Char)}

theorem Literals.literal_inv (hlit : Literal family lit rest)
    (h : Literals family (lit ++ rest) lits) :
    ∃ lits', lits = lit :: lits' ∧ Literals family rest lits' := by
  generalize htext : lit ++ rest = text at h
  cases h with
  | nil =>
    obtain ⟨c, lit, rfl, -⟩ := hlit.exists_cons
    cases htext
  | @literal lit' rest' lits' hlit' h =>
    obtain rfl := hlit.unique hlit' htext
    obtain rfl := List.append_cancel_left htext
    exact ⟨lits', rfl, h⟩
  | char hno => exact absurd hlit (hno _ _ htext.symm)

theorem Literals.char_inv (hno : NoLiteral family (c :: rest))
    (h : Literals family (c :: rest) lits) : Literals family rest lits := by
  generalize htext : c :: rest = text at h
  cases h with
  | nil => cases htext
  | literal hlit => exact absurd hlit (hno _ _ htext)
  | char _ h =>
    obtain ⟨-, rfl⟩ := List.cons.inj htext
    exact h

theorem Literals.unique (h : Literals family text lits) (h' : Literals family text lits') :
    lits = lits' := by
  induction h generalizing lits' with
  | nil =>
    generalize htext : [] = text at h'
    cases h' with
    | nil => rfl
    | literal hlit =>
      obtain ⟨c, lit, rfl, -⟩ := hlit.exists_cons
      cases htext
    | char => cases htext
  | literal hlit _ ih =>
    obtain ⟨rest', rfl, hrest⟩ := h'.literal_inv hlit
    rw [ih hrest]
  | char hno _ ih => exact ih (h'.char_inv hno)

theorem Literals.append (hp : ∀ d ∈ p, isOpener d = false) (h : Literals family rest lits) :
    Literals family (p ++ rest) lits := by
  induction p with
  | nil => exact h
  | cons c p ih =>
    exact .char (noLiteral_of_not_opener (hp c List.mem_cons_self) _)
      (ih fun d hd => hp d (List.mem_cons_of_mem _ hd))

end Literals

end Lexical

end CodePattern
