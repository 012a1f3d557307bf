import CodePattern.Proofs.Classification

/-! What a lenient parse takes for code. The candidate that it keeps has a statement that is
no error. The statement still stands below an error if the whole program is one, which the
errors of the pattern then begin with. -/

namespace CodePattern

namespace Ast

/-- A statement that is no error, below a root that is none either. -/
def HasSoundStatement (trivia : List String) (ast : Ast) : Prop :=
  ∃ root, ast.tree? = some root ∧ root.label.node.error = false ∧
    ∃ s ∈ ast.statementsExcept trivia, s.label.node.error = false

end Ast

namespace Conversion

/-- A program that is one error hides all other errors of the grammar. -/
theorem errors_of_faulty_root {c : Conversion} {tree : Rose GrammarNode} {root : Rose Entry}
    (hroot : (c.run tree).ast.tree? = some root) (herror : root.label.node.error = true) :
    ∃ e : SyntaxError, (c.run tree).errors = [e] ∧ e.span = root.label.node.span := by
  rw [run] at hroot ⊢
  cases hkept : c.keep false tree with
  | none =>
    rw [hkept] at hroot
    cases hroot
  | some kept =>
    rw [hkept] at hroot
    obtain ⟨k, cs⟩ := kept
    obtain rfl := Option.some.inj hroot
    have hfaulty : k.node.faulty = true := herror
    exact ⟨c.syntaxError k.node, by simp [topmostFaults, hfaulty], rfl⟩

end Conversion

namespace Pattern

variable {g : Grammar} {lang : Language} {text : String} {p : Pattern} {r : Converted}

theorem exists_of_map_eq_ok {ε α β : Type} {x : Except ε α} {f : α → β} {b : β}
    (h : x.map f = .ok b) : ∃ a, x = .ok a ∧ f a = b := by
  cases x with
  | error e => cases h
  | ok a => exact ⟨a, rfl, Except.ok.inj h⟩

theorem better_cases (best : Option Converted) (next : Converted) :
    better best next = next ∨ best = some (better best next) := by
  cases best with
  | none => exact .inl rfl
  | some b =>
    by_cases hlt : next.errors.length < b.errors.length
    · exact .inl (if_pos hlt)
    · exact .inr (congrArg some (if_neg hlt).symm)

theorem mem_of_settle {attempt : Candidate → Attempt} {best : Option Converted}
    {cs : List Candidate} (h : settle attempt best cs = .ok (some r)) :
    best = some r ∨ ∃ c ∈ cs, attempt c = .ok r := by
  induction cs generalizing best with
  | nil => exact .inl (Except.ok.inj h)
  | cons c cs ih =>
    rw [settle] at h
    cases hc : attempt c with
    | error failure =>
      rw [hc] at h
      cases h
    | ok next =>
      simp only [hc] at h
      split at h
      · obtain rfl : next = r := Option.some.inj (Except.ok.inj h)
        exact .inr ⟨c, List.mem_cons_self, hc⟩
      · rcases ih h with hbetter | ⟨d, hd, hr⟩
        · obtain rfl := Option.some.inj hbetter
          rcases better_cases best next with hnext | hbest
          · exact .inr ⟨c, List.mem_cons_self, by rw [hc, hnext]⟩
          · exact .inl hbest
        · exact .inr ⟨d, List.mem_cons_of_mem _ hd, hr⟩

theorem exists_settled (h : parse g lang false text = .ok p) : ∃ r,
    settle (attempt g lang text.toList) none (candidates g text.toList) = .ok (some r) ∧
      finish g lang false r = .ok p := by
  simp only [parse] at h
  split at h
  · cases h
  · split at h
    · cases h
    · next best hbest =>
      cases best with
      | none => cases h
      | some r => exact ⟨r, hbest, h⟩

theorem exists_statement_of_finish {strict : Bool} (htop : g.topLevel = belowRootExcept g.trivia)
    (hids : r.ast.Distinct) (h : finish g lang strict r = .ok p) :
    ∃ s ∈ r.ast.statementsExcept g.trivia, s.label.node.error = false := by
  rw [finish, statements_eq htop hids] at h
  split at h
  · next hany =>
    obtain ⟨s, hs, herror⟩ := List.any_eq_true.mp hany
    exact ⟨s, hs, by simpa using herror⟩
  · cases h

/-- The kept candidate has a statement that is no error. Either the program is no error, or
the first error of the pattern is the whole program and all others come from the dialect. -/
theorem lenient_statement (htop : g.topLevel = belowRootExcept g.trivia)
    (h : parse g lang false text = .ok p) :
    ∃ r root, settle (attempt g lang text.toList) none (candidates g text.toList) =
        .ok (some r) ∧
      finish g lang false r = .ok p ∧ r.ast.tree? = some root ∧
      (∃ s ∈ r.ast.statementsExcept g.trivia, s.label.node.error = false) ∧
      (r.ast.HasSoundStatement g.trivia ↔ root.label.node.error = false) ∧
      (root.label.node.error = true → ∃ e : SyntaxError, e.span = root.label.node.span ∧
        p.errors = e :: g.dialectErrors lang r.ast) := by
  obtain ⟨r, hsettle, hfinish⟩ := exists_settled h
  have hattempt : ∃ c ∈ candidates g text.toList, attempt g lang text.toList c = .ok r := by
    rcases mem_of_settle hsettle with hnone | hmem
    · cases hnone
    · exact hmem
  obtain ⟨c, -, hc⟩ := hattempt
  obtain ⟨tree, -, hr⟩ := attempt_eq_ok hc
  let conversion := Conversion.of g.family .pattern c.parsed text.toList c.map
  have hast : r.ast = (conversion.run tree).ast := by rw [hr]
  have herrors : p.errors = (conversion.run tree).errors ++ g.dialectErrors lang r.ast := by
    rw [(finish_eq_ok hfinish).2.2, hr]
  have hids : r.ast.Distinct := by
    rw [hast, Conversion.ast_run]
    exact Ast.distinct_ofTree? _
  have hgood := exists_statement_of_finish htop hids hfinish
  have htree : ∃ root, r.ast.tree? = some root := by
    obtain ⟨s, hs, -⟩ := hgood
    rw [Ast.statementsExcept] at hs
    split at hs
    · next root hroot => exact ⟨root, hroot⟩
    · cases hs
  obtain ⟨root, hroot⟩ := htree
  refine ⟨r, root, hsettle, hfinish, hroot, hgood, ⟨?_, fun hclean => ⟨root, hroot, hclean, hgood⟩⟩,
    fun hfaulty => ?_⟩
  · rintro ⟨root', hroot', hclean, -⟩
    obtain rfl := Option.some.inj (hroot'.symm.trans hroot)
    exact hclean
  · obtain ⟨e, he, hspan⟩ := Conversion.errors_of_faulty_root (hast ▸ hroot) hfaulty
    exact ⟨e, hspan, by rw [herrors, he, List.singleton_append]⟩

theorem lenient_statement_error :
    let g := Grammar.ofFamily .python fun _ => .ok nameBeforeError
    g.topLevel = belowRootExcept g.trivia ∧
      ∃ p r, parse g .python false "# c\n$X\n)" = .ok p ∧ p.errors.length = 1 ∧
        finish g .python false r = .ok p ∧ r.ast.HasSoundStatement g.trivia := by
  intro g
  let text := "# c\n$X\n)"
  have htop : g.topLevel = belowRootExcept g.trivia := rfl
  have hparse : (parse g .python false text).map (·.errors.length) = .ok 1 := by decide +kernel
  have hkept : (settle (attempt g .python text.toList) none (candidates g text.toList)).map
      (·.bind fun r => r.ast.rootNode?.map (·.error)) = .ok (some false) := by decide +kernel
  obtain ⟨p, hp, herrors⟩ := exists_of_map_eq_ok hparse
  obtain ⟨r, root, hsettle, hfinish, hroot, -, hsound, -⟩ := lenient_statement htop hp
  rw [hsettle] at hkept
  simp only [Except.map, Option.bind_some, Ast.rootNode?, hroot, Option.map_some,
    Except.ok.injEq, Option.some.injEq] at hkept
  exact ⟨htop, p, r, hp, herrors, hfinish, hsound.mpr hkept⟩

/-- A class that is not closed. All of it is one error, in which its parts stand. -/
def openClass : Rose GrammarNode :=
  .node ⟨"ERROR", true, true, false, 0, 21, none⟩
    [.node ⟨"php_tag", true, false, false, 0, 5, none⟩ [],
      .node ⟨"class", false, false, false, 6, 11, none⟩ [],
      .node ⟨"name", true, false, false, 12, 13, none⟩ [],
      .node ⟨"\x7b", false, false, false, 14, 15, none⟩ [],
      .node ⟨"static_modifier", true, false, false, 15, 15, none⟩
        [.node ⟨"static", false, false, true, 15, 15, none⟩ []],
      .node ⟨"property_element", true, false, false, 18, 20, none⟩
        [.node ⟨"variable_name", true, false, false, 18, 20, some "name"⟩
          [.node ⟨"$", false, false, false, 18, 19, none⟩ [],
            .node ⟨"name", true, false, false, 19, 20, none⟩ []]]]

/-- With a semicolon behind it, the class's head is an error and its body a statement. -/
def headlessClass : Rose GrammarNode :=
  .node ⟨"program", true, false, false, 0, 22, none⟩
    [.node ⟨"php_tag", true, false, false, 0, 5, none⟩ [],
      .node ⟨"ERROR", true, true, false, 6, 15, none⟩
        [.node ⟨"class", false, false, false, 6, 11, none⟩ [],
          .node ⟨"name", true, false, false, 12, 13, none⟩ [],
          .node ⟨"\x7b", false, false, false, 14, 15, none⟩ []],
      .node ⟨"expression_statement", true, false, false, 18, 22, none⟩
        [variableTree 18, .node ⟨";", false, false, false, 21, 22, none⟩ []]]

def parseOpenClass (source : List Char) : Except ParseFailure (Rose GrammarNode) :=
  if source = "<?php\nclass A \x7b\n  $X\n".toList then .ok openClass
  else if source = "<?php\nclass A \x7b\n  $X\n;".toList then .ok headlessClass
  else .error (.refused "refused to parse")

theorem openClass_accepted :
    let g := Grammar.ofFamily .php parseOpenClass
    let text := "class A \x7b\n  $X\n"
    ∃ p r, parse g .php false text = .ok p ∧ p.metavariables = ["$X"] ∧
      settle (attempt g .php text.toList) none (candidates g text.toList) = .ok (some r) ∧
      ¬ r.ast.HasSoundStatement g.trivia := by
  intro g text
  have hparse : (parse g .php false text).map (·.metavariables) = .ok ["$X"] := by decide +kernel
  have hkept : (settle (attempt g .php text.toList) none (candidates g text.toList)).map
      (·.bind fun r => r.ast.rootNode?.map (·.error)) = .ok (some true) := by decide +kernel
  obtain ⟨p, hp, hnames⟩ := exists_of_map_eq_ok hparse
  obtain ⟨r, hsettle, -⟩ := exists_settled hp
  refine ⟨p, r, hp, hnames, hsettle, ?_⟩
  rintro ⟨root, hroot, hclean, -⟩
  rw [hsettle] at hkept
  simp [Except.map, Ast.rootNode?, hroot, hclean] at hkept

end Pattern

end CodePattern
