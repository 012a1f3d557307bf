import CodePattern.Proofs.Faults

/-! Strict and lenient parses of one text. Both settle on the same outcome, so they differ
only where that outcome has errors. A strict parse accepts a tree if all of its faults are
hidden. -/

namespace CodePattern

namespace Pattern

variable {g : Grammar} {lang : Language} {text : String}

theorem conclude_of_clean {r : Converted} (h : r.errors = []) (strict : Bool) :
    conclude g lang strict (some r) = finish g lang strict r := by
  cases strict <;> simp [conclude, h]

theorem conclude_lenient (r : Converted) :
    conclude g lang false (some r) = finish g lang false r := rfl

theorem conclude_strict {r : Converted} {e : SyntaxError} {rest : List SyntaxError}
    (h : r.errors = e :: rest) : conclude g lang true (some r) = .error (.invalid lang e) := by
  simp [conclude, h]

theorem finish_strict (r : Converted) : finish g lang true r =
    (finish g lang false r).map (fun p => { p with strict := true }) := by
  rw [finish, finish]
  split <;> rfl

theorem finish_lenient (r : Converted) : finish g lang false r =
    (finish g lang true r).map (fun p => { p with strict := false }) := by
  rw [finish, finish]
  split <;> rfl

/-- Both parses fail in the same way, or conclude from the same outcome. -/
theorem parse_cases (g : Grammar) (lang : Language) (text : String) :
    (∃ err, ∀ strict, parse g lang strict text = .error err) ∨
      ∃ r, ∀ strict, parse g lang strict text = conclude g lang strict (some r) := by
  simp only [parse]
  split
  · exact .inl ⟨_, fun _ => rfl⟩
  · cases settle (attempt g lang text.toList) none (candidates g text.toList) with
    | error failure => exact .inl ⟨_, fun _ => rfl⟩
    | ok best =>
      cases best with
      | none => exact .inl ⟨.noCandidate, fun _ => rfl⟩
      | some r => exact .inr ⟨r, fun _ => rfl⟩

theorem exists_conclusion {strict : Bool} {p : Pattern} (h : parse g lang strict text = .ok p) :
    ∃ r, ∀ strict, parse g lang strict text = conclude g lang strict (some r) := by
  rcases parse_cases g lang text with ⟨err, herr⟩ | hr
  · simp [herr] at h
  · exact hr

theorem clean_of_conclude {r : Converted} {p : Pattern}
    (h : conclude g lang true (some r) = .ok p) : r.errors = [] := by
  cases he : r.errors with
  | nil => rfl
  | cons e rest => simp [conclude_strict he] at h

theorem errors_eq_nil_of_strict {p : Pattern} (h : parse g lang true text = .ok p) :
    p.errors = [] := by
  obtain ⟨r, hr⟩ := exists_conclusion h
  rw [hr] at h
  have hclean := clean_of_conclude h
  rw [conclude_of_clean hclean] at h
  rw [(finish_eq_ok h).2.2, hclean]

/-- A pattern that a strict parse accepts, with the candidate and the tree it is made of. -/
theorem exists_clean_tree_of_strict {p : Pattern} (h : parse g lang true text = .ok p) :
    ∃ c ∈ candidates g text.toList, ∃ tree r, g.parse c.parsed = .ok tree ∧
      attempt g lang text.toList c = .ok r ∧ finish g lang true r = .ok p ∧
      let converted := (Conversion.of g.family .pattern c.parsed text.toList c.map).run tree
      r.ast = converted.ast ∧ converted.errors = [] := by
  obtain ⟨-, r, hr, hfinish⟩ := exists_outcome_of_parse h
  have hclean : r.errors = [] := (finish_eq_ok hfinish).2.2.symm.trans (errors_eq_nil_of_strict h)
  obtain ⟨c, hc, hattempt⟩ := List.mem_map.mp hr
  obtain ⟨tree, htree, rfl⟩ := attempt_eq_ok hattempt
  exact ⟨c, hc, tree, _, htree, hattempt, hfinish, rfl, (List.append_eq_nil_iff.mp hclean).1⟩

theorem error_eq_false_of_strict {p : Pattern} (h : parse g lang true text = .ok p) :
    ∀ n ∈ p.ast.nodes, n.error = false := by
  obtain ⟨c, hc, tree, r, -, hattempt, hfinish, hast, hclean⟩ := exists_clean_tree_of_strict h
  intro n hn
  have hmem := (finish_subset (List.mem_map.mpr ⟨c, hc, hattempt⟩) hfinish).1 hn
  rw [hast] at hmem
  exact Conversion.error_eq_false_of_mem_nodes hclean hmem

theorem lenient_of_strict {p : Pattern} (h : parse g lang true text = .ok p) :
    parse g lang false text = .ok { p with strict := false } := by
  obtain ⟨r, hr⟩ := exists_conclusion h
  rw [hr] at h ⊢
  rw [conclude_of_clean (clean_of_conclude h)] at h
  rw [conclude_lenient, finish_lenient, h]
  rfl

theorem strict_of_lenient {p : Pattern} (h : parse g lang false text = .ok p)
    (hclean : p.errors = []) : parse g lang true text = .ok { p with strict := true } := by
  obtain ⟨r, hr⟩ := exists_conclusion h
  rw [hr] at h ⊢
  rw [conclude_lenient] at h
  rw [conclude_of_clean ((finish_eq_ok h).2.2.symm.trans hclean), finish_strict, h]
  rfl

theorem invalid_of_lenient {p : Pattern} {e : SyntaxError} {rest : List SyntaxError}
    (h : parse g lang false text = .ok p) (hfirst : p.errors = e :: rest) :
    parse g lang true text = .error (.invalid lang e) := by
  obtain ⟨r, hr⟩ := exists_conclusion h
  rw [hr] at h ⊢
  rw [conclude_lenient] at h
  exact conclude_strict ((finish_eq_ok h).2.2.symm.trans hfirst)

theorem lenient_fails_of_strict {err : PatternError} (h : parse g lang true text = .error err)
    (hother : ∀ e, err ≠ .invalid lang e) : parse g lang false text = .error err := by
  rcases parse_cases g lang text with ⟨err', herr⟩ | ⟨r, hr⟩
  · rw [herr] at h ⊢
    exact h
  · rw [hr] at h ⊢
    cases he : r.errors with
    | nil =>
      rw [conclude_of_clean he] at h
      rw [conclude_lenient, finish_lenient, h]
      rfl
    | cons e rest =>
      rw [conclude_strict he] at h
      exact absurd (Except.error.inj h).symm (hother e)

/-- Strict and lenient parses agree, except that a strict one fails where a lenient one
finds errors. -/
theorem strict_agrees_with_lenient (g : Grammar) (lang : Language) (text : String) :
    (∀ p, parse g lang true text = .ok p →
      p.errors = [] ∧ (∀ n ∈ p.ast.nodes, n.error = false) ∧
        parse g lang false text = .ok { p with strict := false }) ∧
    (∀ p, parse g lang false text = .ok p → p.errors = [] →
      parse g lang true text = .ok { p with strict := true }) ∧
    (∀ p e rest, parse g lang false text = .ok p → p.errors = e :: rest →
      parse g lang true text = .error (.invalid lang e) ∧
        (PatternError.invalid lang e).message =
          "invalid " ++ lang.name ++ " pattern at " ++ toString e.span.startLine ++ ":" ++
            toString e.span.startCol ++ ": " ++ e.message) ∧
    ∀ err, parse g lang true text = .error err → (∀ e, err ≠ .invalid lang e) →
      parse g lang false text = .error err :=
  ⟨fun _ h => ⟨errors_eq_nil_of_strict h, error_eq_false_of_strict h, lenient_of_strict h⟩,
    fun _ h hclean => strict_of_lenient h hclean,
    fun _ _ _ h hfirst => ⟨invalid_of_lenient h hfirst, rfl⟩,
    fun _ h hother => lenient_fails_of_strict h hother⟩

/-- A conversion reports a fault unless all of them are hidden, and what a strict parse
accepts comes from a tree with hidden faults at most. -/
theorem faults_reported_unless_hidden (c : Conversion) (tree : Rose GrammarNode) :
    ((c.run tree).errors = [] ↔ c.FaultsHidden tree) ∧
      ∀ (g : Grammar) lang text p, parse g lang true text = .ok p →
        ∃ c ∈ candidates g text.toList, ∃ tree r, g.parse c.parsed = .ok tree ∧
          attempt g lang text.toList c = .ok r ∧ finish g lang true r = .ok p ∧
          (Conversion.of g.family .pattern c.parsed text.toList c.map).FaultsHidden tree := by
  refine ⟨Conversion.errors_run_eq_nil_iff_faultsHidden c tree, fun g lang text p h => ?_⟩
  obtain ⟨c, hc, tree, r, htree, hattempt, hfinish, -, hclean⟩ := exists_clean_tree_of_strict h
  exact ⟨c, hc, tree, r, htree, hattempt, hfinish,
    (Conversion.errors_run_eq_nil_iff_faultsHidden _ tree).mp hclean⟩

/-- The variable that is called holds an erroneous node. It begins like the placeholder of
an ellipsis metavariable. -/
def brokenCall : Rose GrammarNode :=
  .node ⟨"program", true, false, false, 0, 46, none⟩
    [.node ⟨"php_tag", true, false, false, 0, 5, none⟩ [],
      .node ⟨"expression_statement", true, false, false, 6, 46, none⟩
        [.node ⟨"function_call_expression", true, false, false, 6, 45, none⟩
          [.node ⟨"name", true, false, false, 6, 7, some "function"⟩ [],
            .node ⟨"arguments", true, false, false, 7, 45, some "arguments"⟩
              [.node ⟨"(", false, false, false, 7, 8, none⟩ [],
                .node ⟨"argument", true, false, false, 8, 44, none⟩
                  [.node ⟨"function_call_expression", true, false, false, 8, 44, none⟩
                    [.node ⟨"variable_name", true, false, false, 8, 40, some "function"⟩
                      [.node ⟨"$", false, false, false, 8, 9, none⟩ [],
                        .node ⟨"ERROR", true, true, false, 9, 16, none⟩
                          [.node ⟨"name", true, false, false, 9, 16, none⟩ []],
                        .node ⟨"name", true, false, false, 17, 40, none⟩ []],
                      .node ⟨"arguments", true, false, false, 40, 44, some "arguments"⟩
                        [.node ⟨"(", false, false, false, 40, 41, none⟩ [],
                          .node ⟨"argument", true, false, false, 41, 43, none⟩ [variableTree 41],
                          .node ⟨")", false, false, false, 43, 44, none⟩ []]]],
                .node ⟨")", false, false, false, 44, 45, none⟩ []]],
          .node ⟨";", false, false, false, 45, 46, none⟩ []]]

def parseBrokenCall (source : List Char) : Except ParseFailure (Rose GrammarNode) :=
  if source = "<?php\nf($__mvs_X htmlspecialchars_decode($Y));".toList then .ok brokenCall
  else .error (.refused "refused to parse")

theorem brokenCall_accepted :
    let text := "f($...X htmlspecialchars_decode($Y));"
    ∃ n ∈ brokenCall.preorder, n.faulty = true ∧
      ∃ c ∈ candidates (.ofFamily .php parseBrokenCall) text.toList,
        parseBrokenCall c.parsed = .ok brokenCall ∧
        ((Conversion.of .php .pattern c.parsed text.toList c.map).run brokenCall).errors = [] ∧
        ∃ p, parse (.ofFamily .php parseBrokenCall) .php true text = .ok p ∧
          p.metavariables = ["$...X htmlspecialchars_decode", "$Y"] := by
  refine ⟨⟨"ERROR", true, true, false, 9, 16, none⟩, by decide, rfl, ?_⟩
  exact ⟨_, List.mem_cons_self, rfl, rfl, _, rfl, rfl⟩

end Pattern

end CodePattern
