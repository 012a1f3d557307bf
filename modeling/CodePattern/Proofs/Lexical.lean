import CodePattern.Placeholder

/-! Where code stands in a text, told without the scan. Strings and comments are cut from
the left, each up to the first place that ends it, and all characters between them are
code. The scan copies every string and comment as a whole. -/

namespace CodePattern

namespace Lexical

/-- A delimiter that opens a string before the given text. -/
def Opens (family : Family) (delimiter after : List Char) : Prop :=
  ∃ q, (q = '\x27' ∨ q = '"') ∧
    (delimiter = [q, q, q] ∧ family = .python ∨
      delimiter = [q] ∧ ¬ (family = .python ∧ [q, q] <+: after))

/-- Inside a string, the body is passed over and `rest` is reached. No delimiter stands in
the body, except where a backslash hides it. -/
inductive Inside (delimiter : List Char) : List Char → List Char → Prop
  | nil (rest : List Char) : Inside delimiter [] rest
  | plain {c : Char} {body rest : List Char} (hc : c ≠ '\\')
      (hd : ¬ delimiter <+: c :: (body ++ rest)) (h : Inside delimiter body rest) :
      Inside delimiter (c :: body) rest
  | hidden (c : Char) {body rest : List Char} (h : Inside delimiter body rest) :
      Inside delimiter ('\\' :: c :: body) rest
  | last : Inside delimiter ['\\'] []

/-- The mark does not stand in the body, nor across its end. -/
def Free (mark body rest : List Char) : Prop :=
  ∀ s t, body = s ++ t → t ≠ [] → ¬ mark <+: t ++ rest

/-- What begins a comment that lasts as long as the line. An attribute is no comment. -/
def LineLead (family : Family) (lead after : List Char) : Prop :=
  lead = ['#'] ∧ (family = .python ∨ ¬ ['['] <+: after) ∨ lead = ['/', '/'] ∧ family = .php

/-- A string or comment that begins in code, and the text after it. -/
inductive Literal (family : Family) : List Char → List Char → Prop
  | string {d body rest : List Char} (hd : Opens family d (body ++ (d ++ rest)))
      (hbody : Inside d body (d ++ rest)) : Literal family (d ++ body ++ d) rest
  | openString {d body : List Char} (hd : Opens family d body) (hbody : Inside d body []) :
      Literal family (d ++ body) []
  | line {lead body rest : List Char} (hlead : LineLead family lead (body ++ rest))
      (hbody : Free ['\n'] body rest) (hrest : rest = [] ∨ ['\n'] <+: rest) :
      Literal family (lead ++ body) rest
  | block {body rest : List Char} (hf : family = .php)
      (hbody : Free ['*', '/'] body (['*', '/'] ++ rest)) :
      Literal family (['/', '*'] ++ body ++ ['*', '/']) rest
  | openBlock {body : List Char} (hf : family = .php) (hbody : Free ['*', '/'] body []) :
      Literal family (['/', '*'] ++ body) []

def NoLiteral (family : Family) (text : List Char) : Prop :=
  ∀ lit rest, text = lit ++ rest → ¬ Literal family lit rest

/-- Read from the left, the text has a place in code between `before` and `after`. -/
inductive Code (family : Family) : List Char → List Char → List Char → Prop
  | here (text : List Char) : Code family text [] text
  | literal {lit rest before after : List Char} (hlit : Literal family lit rest)
      (h : Code family rest before after) : Code family (lit ++ rest) (lit ++ before) after
  | char {c : Char} {rest before after : List Char} (hno : NoLiteral family (c :: rest))
      (h : Code family rest before after) : Code family (c :: rest) (c :: before) after

def isOpener (c : Char) : Bool := c == '\x27' || c == '"' || c == '#' || c == '/'

theorem Opens.exists_cons {family : Family} {d after : List Char} (h : Opens family d after) :
    ∃ q d', d = q :: d' ∧ isOpener q = true := by
  obtain ⟨q, hq, ⟨rfl, -⟩ | ⟨rfl, -⟩⟩ := h
  · exact ⟨q, [q, q], rfl, by rcases hq with rfl | rfl <;> rfl⟩
  · exact ⟨q, [], rfl, by rcases hq with rfl | rfl <;> rfl⟩

theorem Literal.exists_cons {family : Family} {lit rest : List Char}
    (h : Literal family lit rest) : ∃ c lit', lit = c :: lit' ∧ isOpener c = true := by
  cases h with
  | string hd =>
    obtain ⟨q, d', rfl, hq⟩ := hd.exists_cons
    exact ⟨q, _, rfl, hq⟩
  | openString hd =>
    obtain ⟨q, d', rfl, hq⟩ := hd.exists_cons
    exact ⟨q, _, rfl, hq⟩
  | line hlead =>
    rcases hlead with ⟨rfl, -⟩ | ⟨rfl, -⟩
    · exact ⟨'#', _, rfl, rfl⟩
    · exact ⟨'/', _, rfl, rfl⟩
  | block => exact ⟨'/', _, rfl, rfl⟩
  | openBlock => exact ⟨'/', _, rfl, rfl⟩

theorem Literal.length_lt {family : Family} {lit rest : List Char} (h : Literal family lit rest) :
    rest.length < (lit ++ rest).length := by
  obtain ⟨c, lit', rfl, -⟩ := h.exists_cons
  rw [List.length_append, List.length_cons]
  omega

theorem noLiteral_of_not_opener {family : Family} {c : Char} (h : isOpener c = false)
    (rest : List Char) : NoLiteral family (c :: rest) := by
  intro lit rest' he hlit
  obtain ⟨c', lit', rfl, hc⟩ := hlit.exists_cons
  obtain rfl := (List.cons.inj he).1
  simp [h] at hc

section Code

variable {family : Family} {p rest before after : List Char}

theorem Code.text_eq {text : List Char} (h : Code family text before after) :
    text = before ++ after := by
  induction h with
  | here => rfl
  | literal _ _ ih => rw [ih, List.append_assoc]
  | char _ _ ih => rw [ih, List.cons_append]

theorem Code.append (hp : ∀ c ∈ p, isOpener c = false) (h : Code family rest before after) :
    Code family (p ++ rest) (p ++ before) after := by
  induction p with
  | nil => exact h
  | cons c p ih =>
    exact .char (noLiteral_of_not_opener (hp c List.mem_cons_self) _)
      (ih (fun d hd => hp d (List.mem_cons_of_mem _ hd)))

theorem Code.cons_inv {c : Char} (hno : NoLiteral family (c :: rest))
    (h : Code family (c :: rest) before after) :
    before = [] ∧ after = c :: rest ∨ ∃ b, before = c :: b ∧ Code family rest b after := by
  generalize htext : c :: rest = text at h
  cases h with
  | here => exact .inl ⟨rfl, rfl⟩
  | literal hlit h => exact absurd hlit (hno _ _ htext)
  | char _ h =>
    obtain ⟨rfl, rfl⟩ := List.cons.inj htext
    exact .inr ⟨_, rfl, h⟩

theorem Code.append_inv (hp : ∀ c ∈ p, isOpener c = false)
    (h : Code family (p ++ rest) before after) :
    (∃ t, p = before ++ t ∧ t ≠ [] ∧ after = t ++ rest) ∨
      ∃ b, before = p ++ b ∧ Code family rest b after := by
  induction p generalizing before with
  | nil => exact .inr ⟨before, rfl, h⟩
  | cons c p ih =>
    rcases h.cons_inv (noLiteral_of_not_opener (hp c List.mem_cons_self) _) with
      ⟨rfl, rfl⟩ | ⟨b, rfl, hb⟩
    · exact .inl ⟨c :: p, rfl, by simp, rfl⟩
    · rcases ih (fun d hd => hp d (List.mem_cons_of_mem _ hd)) hb with
        ⟨t, rfl, ht, rfl⟩ | ⟨b', rfl, hb'⟩
      · exact .inl ⟨t, rfl, ht, rfl⟩
      · exact .inr ⟨b', rfl, hb'⟩

theorem Code.cons_append_inv {c : Char} (hno : NoLiteral family (c :: (p ++ rest)))
    (hp : ∀ c ∈ p, isOpener c = false) (h : Code family (c :: (p ++ rest)) before after) :
    (∃ t, c :: p = before ++ t ∧ t ≠ [] ∧ after = t ++ rest) ∨
      ∃ b, before = c :: (p ++ b) ∧ Code family rest b after := by
  rcases h.cons_inv hno with ⟨rfl, rfl⟩ | ⟨b, rfl, hb⟩
  · exact .inl ⟨c :: p, rfl, by simp, rfl⟩
  · rcases hb.append_inv hp with ⟨t, rfl, ht, rfl⟩ | ⟨b', rfl, hb'⟩
    · exact .inl ⟨t, rfl, ht, rfl⟩
    · exact .inr ⟨b', rfl, hb'⟩

end Code

theorem free_nil (mark rest : List Char) : Free mark [] rest := by
  intro s t h ht
  exact absurd (List.append_eq_nil_iff.mp h.symm).2 ht

theorem free_cons {mark body rest : List Char} {c : Char} :
    Free mark (c :: body) rest ↔ ¬ mark <+: c :: (body ++ rest) ∧ Free mark body rest := by
  constructor
  · intro h
    exact ⟨h [] (c :: body) rfl (by simp), fun s t he ht => h (c :: s) t (by rw [he]; rfl) ht⟩
  · rintro ⟨hc, hbody⟩ s t he ht
    cases s with
    | nil =>
      obtain rfl : c :: body = t := he
      exact hc
    | cons x s => exact hbody s t (List.cons.inj he).2 ht

theorem exists_free (mark text : List Char) :
    ∃ body rest, text = body ++ rest ∧ Free mark body rest ∧ (rest = [] ∨ mark <+: rest) := by
  induction text with
  | nil => exact ⟨[], [], rfl, free_nil _ _, .inl rfl⟩
  | cons c text ih =>
    by_cases hmark : mark <+: c :: text
    · exact ⟨[], c :: text, rfl, free_nil _ _, .inr hmark⟩
    · obtain ⟨body, rest, rfl, hbody, hrest⟩ := ih
      exact ⟨c :: body, rest, rfl, free_cons.mpr ⟨hmark, hbody⟩, hrest⟩

theorem exists_inside (d : List Char) : (text : List Char) →
    ∃ body rest, text = body ++ rest ∧ Inside d body rest ∧ (rest = [] ∨ d <+: rest)
  | [] => ⟨[], [], rfl, .nil _, .inl rfl⟩
  | c :: text => by
    by_cases hd : d <+: c :: text
    · exact ⟨[], c :: text, rfl, .nil _, .inr hd⟩
    · by_cases hc : c = '\\'
      · subst hc
        cases text with
        | nil => exact ⟨['\\'], [], rfl, .last, .inl rfl⟩
        | cons x text =>
          obtain ⟨body, rest, rfl, hbody, hrest⟩ := exists_inside d text
          exact ⟨'\\' :: x :: body, rest, rfl, .hidden x hbody, hrest⟩
      · obtain ⟨body, rest, rfl, hbody, hrest⟩ := exists_inside d text
        exact ⟨c :: body, rest, rfl, .plain hc hd hbody, hrest⟩

theorem not_noLiteral_of_opens {family : Family} {d after : List Char} (h : Opens family d after) :
    ¬ NoLiteral family (d ++ after) := by
  intro hno
  obtain ⟨body, rest, rfl, hbody, rfl | ⟨rest, rfl⟩⟩ := exists_inside d after
  · rw [List.append_nil] at h
    exact hno (d ++ body) [] (by simp) (.openString h hbody)
  · exact hno (d ++ body ++ d) rest (by simp) (.string h hbody)

theorem not_noLiteral_of_lineLead {family : Family} {lead after : List Char}
    (h : LineLead family lead after) : ¬ NoLiteral family (lead ++ after) := by
  intro hno
  obtain ⟨body, rest, rfl, hbody, hrest⟩ := exists_free ['\n'] after
  exact hno (lead ++ body) rest (by simp) (.line h hbody hrest)

theorem not_noLiteral_of_block (after : List Char) : ¬ NoLiteral .php ('/' :: '*' :: after) := by
  intro hno
  obtain ⟨body, rest, rfl, hbody, rfl | ⟨rest, rfl⟩⟩ := exists_free ['*', '/'] after
  · exact hno (['/', '*'] ++ body) [] (by simp) (.openBlock rfl hbody)
  · exact hno (['/', '*'] ++ body ++ ['*', '/']) rest (by simp) (.block rfl hbody)

end Lexical

end CodePattern
