import CodePattern.Pattern
import Mathlib.Data.List.TakeWhile

/-! Which candidate a pattern is made of. The first attempt that fails or has no errors
decides. If there is none, the earliest attempt with the fewest errors is taken. -/

namespace CodePattern

abbrev Attempt := Except ParseFailure Converted

namespace Pattern

/-- An attempt after which the next candidate is tried. -/
def Undecided (a : Attempt) : Prop := ∃ r : Converted, a = .ok r ∧ r.errors ≠ []

instance : DecidablePred Undecided
  | .error _ => .isFalse (by simp [Undecided])
  | .ok r => decidable_of_iff (r.errors ≠ []) (by simp [Undecided])

def EarliestFewest (outcomes : List Converted) (best : Converted) : Prop :=
  ∃ before after, outcomes = before ++ best :: after ∧
    (∀ r ∈ before, best.errors.length < r.errors.length) ∧
    ∀ r ∈ after, best.errors.length ≤ r.errors.length

/-- What the attempts at all candidates, in order, make of a pattern. -/
inductive Verdict (g : Grammar) (lang : Language) (strict : Bool) :
    List Attempt → Except PatternError Pattern → Prop
  | unparsed {before after : List Attempt} {failure : ParseFailure}
      (hbefore : ∀ a ∈ before, Undecided a) :
      Verdict g lang strict (before ++ .error failure :: after) (.error (.unparsed failure))
  | clean {before after : List Attempt} {r : Converted}
      (hbefore : ∀ a ∈ before, Undecided a) (hclean : r.errors = []) :
      Verdict g lang strict (before ++ .ok r :: after) (finish g lang strict r)
  | invalid {outcomes : List Converted} {best : Converted} {e : SyntaxError}
      {rest : List SyntaxError} (hall : ∀ r ∈ outcomes, r.errors ≠ [])
      (hbest : EarliestFewest outcomes best) (hfirst : best.errors = e :: rest)
      (hstrict : strict = true) :
      Verdict g lang strict (outcomes.map .ok) (.error (.invalid lang e))
  | accepted {outcomes : List Converted} {best : Converted}
      (hall : ∀ r ∈ outcomes, r.errors ≠ []) (hbest : EarliestFewest outcomes best)
      (hlenient : strict = false) :
      Verdict g lang strict (outcomes.map .ok) (finish g lang strict best)
  | noCandidate : Verdict g lang strict [] (.error .noCandidate)

theorem earliestFewest_unique {outcomes : List Converted} {r s : Converted}
    (hr : EarliestFewest outcomes r) (hs : EarliestFewest outcomes s) : r = s := by
  obtain ⟨before, after, rfl, hbefore, hafter⟩ := hr
  obtain ⟨before', after', he, hbefore', hafter'⟩ := hs
  rcases List.append_eq_append_iff.mp he with ⟨mid, h, hmid⟩ | ⟨mid, h, hmid⟩
  · cases mid with
    | nil => exact (List.cons.inj hmid).1
    | cons x mid =>
      obtain ⟨rfl, rfl⟩ := List.cons.inj hmid
      have hlt := hbefore' r (by simp [h])
      have hle := hafter s (by simp)
      omega
  · cases mid with
    | nil => exact (List.cons.inj hmid).1.symm
    | cons x mid =>
      obtain ⟨rfl, rfl⟩ := List.cons.inj hmid
      have hlt := hbefore s (by simp [h])
      have hle := hafter' r (by simp)
      omega

theorem foldl_better (best : Converted) (outcomes : List Converted) :
    ∃ r, outcomes.foldl (fun b r => some (better b r)) (some best) = some r ∧
      EarliestFewest (best :: outcomes) r := by
  induction outcomes generalizing best with
  | nil => exact ⟨best, rfl, [], [], rfl, by simp, by simp⟩
  | cons x outcomes ih =>
    obtain ⟨r, hr, before, after, he, hbefore, hafter⟩ := ih (better (some best) x)
    refine ⟨r, hr, ?_⟩
    by_cases hlt : x.errors.length < best.errors.length
    · rw [better, if_pos hlt] at he
      have hle : r.errors.length ≤ x.errors.length := by
        cases before with
        | nil => exact Nat.le_of_eq (by rw [(List.cons.inj he).1])
        | cons b before =>
          rw [(List.cons.inj he).1]
          exact Nat.le_of_lt (hbefore b List.mem_cons_self)
      refine ⟨best :: before, after, by rw [he]; rfl, ?_, hafter⟩
      intro y hy
      rcases List.mem_cons.mp hy with rfl | hy
      · omega
      · exact hbefore y hy
    · rw [better, if_neg hlt] at he
      cases before with
      | nil =>
        obtain ⟨rfl, rfl⟩ := List.cons.inj he
        refine ⟨[], x :: outcomes, rfl, by simp, ?_⟩
        intro y hy
        rcases List.mem_cons.mp hy with rfl | hy
        · omega
        · exact hafter y hy
      | cons b before =>
        obtain ⟨rfl, rfl⟩ := List.cons.inj he
        have hb := hbefore best List.mem_cons_self
        refine ⟨best :: x :: before, after, rfl, ?_, hafter⟩
        intro y hy
        rcases List.mem_cons.mp hy with rfl | hy
        · exact hb
        · rcases List.mem_cons.mp hy with rfl | hy
          · omega
          · exact hbefore y (List.mem_cons_of_mem _ hy)

section Settle

variable {attempt : Candidate → Attempt} {best : Option Converted}

/-- The candidates before the decision are tried in order and only change which outcome
is the best so far. -/
theorem settle_append {before after : List Candidate} {outcomes : List Converted}
    (hbefore : before.map attempt = outcomes.map .ok) (hall : ∀ r ∈ outcomes, r.errors ≠ []) :
    settle attempt best (before ++ after) =
      settle attempt (outcomes.foldl (fun b r => some (better b r)) best) after := by
  induction before generalizing best outcomes with
  | nil =>
    obtain rfl : outcomes = [] := by simpa using hbefore.symm
    rfl
  | cons c before ih =>
    cases outcomes with
    | nil => simp at hbefore
    | cons r outcomes =>
      simp only [List.map_cons, List.cons.injEq] at hbefore
      have hr : r.errors.isEmpty = false := by
        simpa using hall r List.mem_cons_self
      rw [List.cons_append, settle, hbefore.1]
      simp only [hr, Bool.false_eq_true, if_false, List.foldl_cons]
      exact ih hbefore.2 (fun s hs => hall s (List.mem_cons_of_mem _ hs))

theorem settle_of_undecided {cs : List Candidate} {outcomes : List Converted}
    (hcs : cs.map attempt = outcomes.map .ok) (hall : ∀ r ∈ outcomes, r.errors ≠ []) :
    settle attempt best cs = .ok (outcomes.foldl (fun b r => some (better b r)) best) := by
  have h := @settle_append attempt best cs [] outcomes hcs hall
  rwa [List.append_nil] at h

theorem settle_of_fewest {cs : List Candidate} {outcomes : List Converted} {r : Converted}
    (hcs : cs.map attempt = outcomes.map .ok) (hall : ∀ r ∈ outcomes, r.errors ≠ [])
    (hr : EarliestFewest outcomes r) : settle attempt none cs = .ok (some r) := by
  rw [settle_of_undecided hcs hall]
  cases outcomes with
  | nil =>
    obtain ⟨before, after, he, -⟩ := hr
    simp at he
  | cons x outcomes =>
    obtain ⟨s, hs, hbest⟩ := foldl_better x outcomes
    rw [earliestFewest_unique hr hbest, ← hs]
    rfl

theorem exists_outcomes {attempts : List Attempt} (h : ∀ a ∈ attempts, Undecided a) :
    ∃ outcomes : List Converted, attempts = outcomes.map .ok ∧ ∀ r ∈ outcomes, r.errors ≠ [] := by
  induction attempts with
  | nil => exact ⟨[], rfl, by simp⟩
  | cons a attempts ih =>
    obtain ⟨r, rfl, hr⟩ := h a List.mem_cons_self
    obtain ⟨outcomes, rfl, hall⟩ := ih (fun b hb => h b (List.mem_cons_of_mem _ hb))
    refine ⟨r :: outcomes, rfl, ?_⟩
    intro s hs
    rcases List.mem_cons.mp hs with rfl | hs
    · exact hr
    · exact hall s hs

theorem settle_of_decided {cs : List Candidate} {before after : List Attempt} {a : Attempt}
    (hcs : cs.map attempt = before ++ a :: after) (hbefore : ∀ b ∈ before, Undecided b)
    (ha : ¬ Undecided a) : settle attempt best cs = a.map some := by
  obtain ⟨s, t, rfl, hs, ht⟩ := List.map_eq_append_iff.mp hcs
  obtain ⟨c, t, rfl, hc, -⟩ := List.map_eq_cons_iff.mp ht
  obtain ⟨outcomes, rfl, hall⟩ := exists_outcomes hbefore
  rw [settle_append hs hall, settle, hc]
  cases a with
  | error failure => rfl
  | ok r =>
    have hr : r.errors.isEmpty = true := by
      rw [List.isEmpty_iff]
      exact Decidable.byContradiction fun hne => ha ⟨r, rfl, hne⟩
    simp only [hr, if_true]
    rfl

end Settle

theorem allBlank_iff_trim (cs : List Char) : allBlank cs = true ↔ trim cs = [] := by
  rw [trim, trimEnd, List.reverse_eq_nil_iff, List.dropWhile_eq_nil_iff, allBlank, List.all_eq_true]
  constructor
  · intro h c hc
    exact h c ((List.dropWhile_suffix _).mem (List.mem_reverse.mp hc))
  · intro h
    -- A character left at the start would not be blank.
    have htrim : trimStart cs = [] := by
      cases hs : trimStart cs with
      | nil => rfl
      | cons c rest =>
        have hblank := h c (by simp [hs])
        have hhead := List.head?_dropWhile_not isBlank cs
        rw [trimStart] at hs
        simp [hs, hblank] at hhead
    exact List.dropWhile_eq_nil_iff.mp htrim

variable {g : Grammar} {lang : Language} {strict : Bool} {text : String}

def attempts (g : Grammar) (lang : Language) (text : List Char) : List Attempt :=
  (candidates g text).map (attempt g lang text)

theorem parse_of_verdict {result : Except PatternError Pattern} (h : trim text.toList ≠ [])
    (hv : Verdict g lang strict (attempts g lang text.toList) result) :
    parse g lang strict text = result := by
  have hblank : ¬ allBlank text.toList = true := fun hb => h ((allBlank_iff_trim _).mp hb)
  rw [parse, if_neg hblank]
  generalize hcs : attempts g lang text.toList = as at hv
  rw [attempts] at hcs
  cases hv with
  | unparsed hbefore =>
    rw [settle_of_decided hcs hbefore (by rintro ⟨r, hr, -⟩; cases hr)]
    rfl
  | @clean before after r hbefore hclean =>
    rw [settle_of_decided hcs hbefore (by rintro ⟨s, hs, hne⟩; cases hs; exact hne hclean)]
    cases strict <;> simp [Except.map, conclude, hclean]
  | @invalid outcomes best e rest hall hbest hfirst hstrict =>
    rw [settle_of_fewest hcs hall hbest]
    simp [conclude, hfirst, hstrict]
  | @accepted outcomes best hall hbest hlenient =>
    rw [settle_of_fewest hcs hall hbest]
    simp [conclude, hlenient]
  | noCandidate =>
    rw [List.map_eq_nil_iff.mp hcs]
    rfl

theorem exists_decision (as : List Attempt) :
    (∃ before a after, as = before ++ a :: after ∧ (∀ b ∈ before, Undecided b) ∧ ¬ Undecided a) ∨
      ∀ a ∈ as, Undecided a := by
  induction as with
  | nil => exact .inr (by simp)
  | cons a as ih =>
    by_cases ha : Undecided a
    · rcases ih with ⟨before, b, after, rfl, hbefore, hb⟩ | hall
      · exact .inl ⟨a :: before, b, after, rfl, List.forall_mem_cons.mpr ⟨ha, hbefore⟩, hb⟩
      · exact .inr (List.forall_mem_cons.mpr ⟨ha, hall⟩)
    · exact .inl ⟨[], a, as, rfl, by simp, ha⟩

theorem exists_verdict (g : Grammar) (lang : Language) (strict : Bool) (as : List Attempt) :
    ∃ result, Verdict g lang strict as result := by
  rcases exists_decision as with ⟨before, a, after, rfl, hbefore, ha⟩ | hall
  · cases a with
    | error failure => exact ⟨_, .unparsed hbefore⟩
    | ok r => exact ⟨_, .clean hbefore (Decidable.byContradiction fun hne => ha ⟨r, rfl, hne⟩)⟩
  · obtain ⟨outcomes, rfl, hne⟩ := exists_outcomes hall
    cases outcomes with
    | nil => exact ⟨_, .noCandidate⟩
    | cons x outcomes =>
      obtain ⟨best, -, hbest⟩ := foldl_better x outcomes
      cases strict with
      | false => exact ⟨_, .accepted hne hbest rfl⟩
      | true =>
        cases hfirst : best.errors with
        | nil =>
          obtain ⟨before, after, he, -⟩ := hbest
          exact absurd hfirst (hne best (by simp [he]))
        | cons e rest => exact ⟨_, .invalid hne hbest hfirst rfl⟩

theorem exists_outcome_of_parse {p : Pattern} (h : parse g lang strict text = .ok p) :
    trim text.toList ≠ [] ∧
      ∃ r, .ok r ∈ attempts g lang text.toList ∧ finish g lang strict r = .ok p := by
  have hblank : trim text.toList ≠ [] := by
    intro hb
    rw [parse, if_pos ((allBlank_iff_trim _).mpr hb)] at h
    cases h
  refine ⟨hblank, ?_⟩
  obtain ⟨result, hv⟩ := exists_verdict g lang strict (attempts g lang text.toList)
  rw [parse_of_verdict hblank hv] at h
  generalize attempts g lang text.toList = as at hv ⊢
  cases hv with
  | unparsed => cases h
  | clean => exact ⟨_, by simp, h⟩
  | @accepted outcomes best hall hbest hlenient =>
    obtain ⟨before, after, rfl, -⟩ := hbest
    exact ⟨best, List.mem_map_of_mem (by simp), h⟩
  | invalid => cases h
  | noCandidate => cases h

theorem candidates_ne_nil (family : Family)
    (parse : List Char → Except ParseFailure (Rose GrammarNode)) (text : List Char) :
    candidates (.ofFamily family parse) text ≠ [] := by
  have hw : ∀ body, (Grammar.ofFamily family parse).wrappings body ≠ [] := by
    intro body
    cases family with
    | python => simp [Grammar.ofFamily, Python.wrappings]
    | php =>
      simp only [Grammar.ofFamily, Php.wrappings]
      repeat' split
      all_goals simp
  intro h
  rw [candidates, bases, List.flatMap_cons, List.append_eq_nil_iff, candidatesOf,
    List.map_eq_nil_iff] at h
  exact hw _ h.1

theorem finish_ne_noCandidate (g : Grammar) (lang : Language) (strict : Bool) (r : Converted) :
    finish g lang strict r ≠ .error .noCandidate := by
  rw [finish]
  split <;> simp

theorem attempts_eq_nil_of_verdict {as : List Attempt}
    (h : Verdict g lang strict as (.error .noCandidate)) : as = [] := by
  generalize hr : (.error .noCandidate : Except PatternError Pattern) = result at h
  cases h with
  | unparsed => simp at hr
  | clean => exact absurd hr.symm (finish_ne_noCandidate g lang strict _)
  | invalid => simp at hr
  | accepted => exact absurd hr.symm (finish_ne_noCandidate g lang strict _)
  | noCandidate => rfl

/-- A text that is not blank gives the one result that the attempts at its candidates
decide on. The grammars of the two families always offer a candidate. -/
theorem parse_eq_iff_verdict (h : trim text.toList ≠ []) :
    (∀ result, parse g lang strict text = result ↔
      Verdict g lang strict (attempts g lang text.toList) result) ∧
    (∀ e : SyntaxError, (PatternError.invalid lang e).message =
      "invalid " ++ lang.name ++ " pattern at " ++ toString e.span.startLine ++ ":" ++
        toString e.span.startCol ++ ": " ++ e.message) ∧
    PatternError.noCandidate.message = "no pattern candidate was parsed" ∧
    ∀ family parser, g = .ofFamily family parser →
      parse g lang strict text ≠ .error .noCandidate := by
  have hiff : ∀ result, parse g lang strict text = result ↔
      Verdict g lang strict (attempts g lang text.toList) result := by
    intro result
    constructor
    · rintro rfl
      obtain ⟨result, hv⟩ := exists_verdict g lang strict (attempts g lang text.toList)
      rwa [parse_of_verdict h hv]
    · exact parse_of_verdict h
  refine ⟨hiff, fun e => rfl, rfl, ?_⟩
  rintro family parser rfl hparse
  have hnil := attempts_eq_nil_of_verdict ((hiff _).mp hparse)
  exact candidates_ne_nil family parser text.toList (List.map_eq_nil_iff.mp hnil)

def variableTree (start : Nat) : Rose GrammarNode :=
  .node ⟨"variable_name", true, false, false, start, start + 2, none⟩
    [.node ⟨"$", false, false, false, start, start + 1, none⟩ [],
      .node ⟨"name", true, false, false, start + 1, start + 2, none⟩ []]

/-- A parser that accepts a variable only if a semicolon follows it. -/
def parseVariable (source : List Char) : Except ParseFailure (Rose GrammarNode) :=
  let tag := .node ⟨"php_tag", true, false, false, 0, 5, none⟩ []
  if source = "<?php\n$X".toList then
    .ok (.node ⟨"program", true, false, false, 0, 8, none⟩
      [tag, .node ⟨"ERROR", true, true, false, 6, 8, none⟩ [variableTree 6]])
  else if source = "<?php\n$X;".toList then
    .ok (.node ⟨"program", true, false, false, 0, 9, none⟩
      [tag, .node ⟨"expression_statement", true, false, false, 6, 9, none⟩
        [variableTree 6, .node ⟨";", false, false, false, 8, 9, none⟩ []]])
  else .error (.refused "refused to parse")

theorem verdict_variable :
    trim "$X".toList ≠ [] ∧ ∃ p : Pattern, p.kind = .expr ∧ p.metavariables = ["$X"] ∧
      Verdict (.ofFamily .php parseVariable) .php true
        (attempts (.ofFamily .php parseVariable) .php "$X".toList) (.ok p) := by
  have hp : ∃ p, parse (.ofFamily .php parseVariable) .php true "$X" = .ok p ∧
      p.kind = .expr ∧ p.metavariables = ["$X"] := ⟨_, rfl, rfl, rfl⟩
  obtain ⟨p, hp, hkind, hnames⟩ := hp
  exact ⟨by decide, p, hkind, hnames, ((parse_eq_iff_verdict (by decide)).1 _).mp hp⟩

end Pattern

end CodePattern
