import CodePattern.Proofs.Hygiene
import Mathlib.Data.List.Basic

/-! What a pattern is made of a converted tree. The nodes below the root that are code are
its statements. They decide whether there is a pattern, of which kind it is and which part of
the tree it keeps. -/

namespace CodePattern

namespace Ast

open Rose

/-- The nodes below the root that are not of these kinds, with all that is below them. -/
def statementsExcept (trivia : List String) (ast : Ast) : List (Rose Entry) :=
  match ast.tree? with
  | some t => t.children.filter (fun s => !trivia.contains s.label.node.kind)
  | none => []

/-- The same tree, whatever the numbers of its nodes. -/
def IsCopy (copy : Ast) (t : Rose Entry) : Prop := copy.trees.map plain = [plain t]

variable {ast : Ast} {trivia : List String}

theorem statementsExcept_subset : ast.statementsExcept trivia ⊆ subtreesAll ast.trees := by
  rw [statementsExcept]
  split
  · next t ht =>
    have hmem : t ∈ subtreesAll ast.trees := mem_subtreesAll_of_mem (List.mem_of_head? ht)
    exact List.Subset.trans List.filter_sublist.subset
      (children_subset_of_mem_subtreesAll _ hmem)
  · exact List.nil_subset _

theorem belowRootExcept_eq (h : ast.Distinct) :
    belowRootExcept trivia ast = (ast.statementsExcept trivia).map (·.label.id) := by
  rw [belowRootExcept, statementsExcept, root?]
  cases ht : ast.tree? with
  | none => rfl
  | some t =>
    have hmem : t ∈ subtreesAll ast.trees := mem_subtreesAll_of_mem (List.mem_of_head? ht)
    simp only [Option.map_some, children, at?_of_mem h hmem, List.filter_map]
    refine congrArg _ (List.filter_congr fun s hs => ?_)
    have hs : s ∈ subtreesAll ast.trees := children_subset_of_mem_subtreesAll _ hmem hs
    simp [get?, at?_of_mem h hs]

theorem filterMap_at?_of_subset (h : ast.Distinct) {ts : List (Rose Entry)}
    (hts : ts ⊆ subtreesAll ast.trees) : (ts.map (·.label.id)).filterMap ast.at? = ts := by
  rw [List.filterMap_map]
  calc ts.filterMap (ast.at? ∘ (·.label.id)) = ts.filterMap some :=
        List.filterMap_congr fun t ht => at?_of_mem h (hts ht)
    _ = ts := List.filterMap_some

theorem isCopy_subtree (h : ast.Distinct) {t : Rose Entry} (ht : t ∈ subtreesAll ast.trees) :
    (ast.subtree t.label.id).IsCopy t := by
  rw [subtree, at?_of_mem h ht, Option.map_some, IsCopy, ofTree?, ofTree, List.map_singleton,
    plain_number]

end Ast

namespace Pattern

/-- The kind of a pattern that consists of these statements of a tree, and what the pattern
keeps of the tree. -/
inductive Cut (ast : Ast) : List (Rose Entry) → PatternKind → Ast → Prop
  | expr {s e : Rose Entry} {copy : Ast} (hkind : s.label.node.kind = "expression_statement")
      (honly : s.children = [e]) (hcopy : copy.IsCopy e) : Cut ast [s] .expr copy
  | stmt {s : Rose Entry} {copy : Ast}
      (hother : ¬ (s.label.node.kind = "expression_statement" ∧ s.children.length = 1))
      (hcopy : copy.IsCopy s) : Cut ast [s] .stmt copy
  | stmts {s t : Rose Entry} {rest : List (Rose Entry)} : Cut ast (s :: t :: rest) .stmts ast

/-- The name of a metavariable or of an ellipsis metavariable that the node stands for. -/
def Carries (n : AstNode) (name : String) : Prop :=
  n.pattern = some (.metavariable name) ∨ n.pattern = some (.ellipsisMetavariable name)

instance (n : AstNode) (name : String) : Decidable (Carries n name) :=
  inferInstanceAs (Decidable (_ ∨ _))

def firstCarrier (nodes : List AstNode) (name : String) : Nat :=
  nodes.findIdx (fun n => decide (Carries n name))

theorem carries_iff {n : AstNode} {name : String} :
    Carries n name ↔ n.pattern.bind Meta.name? = some name := by
  rw [Carries]
  cases n.pattern with
  | none => simp
  | some m => cases m <;> simp [Meta.name?]

theorem metavariablesOf_concat (nodes : List AstNode) (n : AstNode) :
    metavariablesOf (nodes ++ [n]) = match n.pattern.bind Meta.name? with
      | some name =>
        if (metavariablesOf nodes).contains name then metavariablesOf nodes
        else metavariablesOf nodes ++ [name]
      | none => metavariablesOf nodes := by
  rw [metavariablesOf, metavariablesOf, List.filterMap_append, List.foldl_append]
  cases h : n.pattern.bind Meta.name? <;> simp [h]

theorem firstCarrier_append (nodes more : List AstNode) (name : String) :
    firstCarrier (nodes ++ more) name =
      if firstCarrier nodes name < nodes.length then firstCarrier nodes name
      else firstCarrier more name + nodes.length := List.findIdx_append

theorem firstCarrier_lt_iff {nodes : List AstNode} {name : String} :
    firstCarrier nodes name < nodes.length ↔ name ∈ metavariablesOf nodes := by
  simp only [firstCarrier, List.findIdx_lt_length, decide_eq_true_eq, carries_iff,
    mem_metavariablesOf]

/-- The names stand in the order in which the first nodes that carry them come. -/
theorem metavariablesOf_ordered (nodes : List AstNode) : (metavariablesOf nodes).Pairwise
    (fun a b => firstCarrier nodes a < firstCarrier nodes b) := by
  induction nodes using List.reverseRecOn with
  | nil => exact .nil
  | append_singleton nodes n ih =>
    have hfound : ∀ a ∈ metavariablesOf nodes,
        firstCarrier (nodes ++ [n]) a = firstCarrier nodes a := by
      intro a ha
      rw [firstCarrier_append, if_pos (firstCarrier_lt_iff.mpr ha)]
    have hbefore : (metavariablesOf nodes).Pairwise
        (fun a b => firstCarrier (nodes ++ [n]) a < firstCarrier (nodes ++ [n]) b) := by
      refine ih.imp_of_mem fun ha hb hlt => ?_
      rw [hfound _ ha, hfound _ hb]
      exact hlt
    rw [metavariablesOf_concat]
    cases n.pattern.bind Meta.name? with
    | none => exact hbefore
    | some name =>
      by_cases hold : (metavariablesOf nodes).contains name
      · simp only [hold, if_true]
        exact hbefore
      · have hnew : ¬ firstCarrier nodes name < nodes.length := by
          rw [firstCarrier_lt_iff]
          simpa using hold
        simp only [hold]
        refine List.pairwise_append.mpr ⟨hbefore, List.pairwise_singleton _ _, ?_⟩
        intro a ha b hb
        obtain rfl := List.mem_singleton.mp hb
        have hlt := firstCarrier_lt_iff.mpr ha
        rw [hfound a ha, firstCarrier_append nodes [n] b, if_neg hnew]
        omega

theorem metavariablesOf_nodup (nodes : List AstNode) : (metavariablesOf nodes).Nodup :=
  (metavariablesOf_ordered nodes).imp fun hlt he => by
    rw [he] at hlt
    exact Nat.lt_irrefl _ hlt

variable {g : Grammar} {lang : Language} {strict : Bool} {r : Converted}

theorem statements_eq (htop : g.topLevel = belowRootExcept g.trivia) (hids : r.ast.Distinct) :
    g.statements r.ast = r.ast.statementsExcept g.trivia := by
  rw [Grammar.statements, htop, Ast.belowRootExcept_eq hids,
    Ast.filterMap_at?_of_subset hids Ast.statementsExcept_subset]

/-- A pattern with at least one statement is cut out of the tree by its statements. -/
theorem classify_cut {ast : Ast} (hids : ast.Distinct) {ts : List (Rose Entry)}
    (hts : ts ⊆ Rose.subtreesAll ast.trees) (hne : ts ≠ []) :
    let cut := classify ast (ts.map (·.label.id))
    Cut ast ts cut.1 cut.2 := by
  cases ts with
  | nil => exact absurd rfl hne
  | cons s rest =>
    have hs : s ∈ Rose.subtreesAll ast.trees := hts List.mem_cons_self
    have hcopy := Ast.isCopy_subtree hids hs
    cases rest with
    | cons t rest => exact .stmts
    | nil =>
      have hget : ast.get? s.label.id = some s.label.node := by
        rw [Ast.get?, Ast.at?_of_mem hids hs, Option.map_some]
      have hchildren : ast.children s.label.id = s.children.map (·.label.id) := by
        rw [Ast.children, Ast.at?_of_mem hids hs]
      simp only [classify, List.map_cons, List.map_nil, hget, hchildren, Option.any_some]
      cases hc : s.children with
      | nil => exact .stmt (by simp [hc]) hcopy
      | cons e others =>
        cases others with
        | cons f others => exact .stmt (by simp [hc]) hcopy
        | nil =>
          have he : e ∈ Rose.subtreesAll ast.trees :=
            Rose.children_subset_of_mem_subtreesAll _ hs (by simp [hc])
          simp only [List.map_cons, List.map_nil]
          split
          · next hkind => exact .expr (by simpa using hkind) hc (Ast.isCopy_subtree hids he)
          · next hkind => exact .stmt (fun h => hkind (by simpa using h.1)) hcopy

theorem noCode_message (lang : Language) :
    (PatternError.noCode lang).message = lang.name ++ " pattern contains no parsable code" := rfl

/-- There is a pattern unless every statement is an error. It is of the kind that the
statements tell, keeps their part of the tree, and lists its metavariables once each in the
order in which the nodes of its tree first carry them. -/
theorem finish_classifies (htop : g.topLevel = belowRootExcept g.trivia)
    (hids : r.ast.Distinct) :
    let statements := r.ast.statementsExcept g.trivia
    (∀ e, finish g lang strict r = .error e ↔
      e = .noCode lang ∧ ∀ s ∈ statements, s.label.node.error = true) ∧
    (PatternError.noCode lang).message = lang.name ++ " pattern contains no parsable code" ∧
    ((∃ s ∈ statements, s.label.node.error = false) →
      ∃ p, finish g lang strict r = .ok p ∧ p.lang = lang ∧ p.strict = strict ∧
        p.errors = r.errors ∧ Cut r.ast statements p.kind p.ast ∧
        p.metavariables.Nodup ∧
        (∀ name, name ∈ p.metavariables ↔ ∃ n ∈ p.ast.nodes, Carries n name) ∧
        p.metavariables.Pairwise
          (fun a b => firstCarrier p.ast.nodes a < firstCarrier p.ast.nodes b)) := by
  intro statements
  have htopLevel : g.topLevel r.ast = statements.map (·.label.id) := by
    rw [htop, Ast.belowRootExcept_eq hids]
  have hfinish : finish g lang strict r =
      if statements.any (fun s => !s.label.node.error) then
        let cut := classify r.ast (statements.map (·.label.id))
        .ok ⟨lang, cut.1, strict, cut.2, metavariablesOf cut.2.nodes, r.errors⟩
      else .error (.noCode lang) := by
    rw [finish, statements_eq htop hids, htopLevel]
  refine ⟨fun e => ?_, noCode_message lang, ?_⟩
  · rw [hfinish]
    split
    · next hany =>
      obtain ⟨s, hs, herror⟩ := List.any_eq_true.mp hany
      constructor
      · intro h
        cases h
      · rintro ⟨-, hall⟩
        simp [hall s hs] at herror
    · next hnone =>
      have hall : ∀ s ∈ statements, s.label.node.error = true := by
        simpa [List.any_eq_true] using hnone
      rw [Except.error.injEq, eq_comm]
      exact ⟨fun h => ⟨h, hall⟩, fun h => h.1⟩
  · rintro ⟨s, hs, herror⟩
    have hany : statements.any (fun s => !s.label.node.error) = true :=
      List.any_eq_true.mpr ⟨s, hs, by simp [herror]⟩
    rw [hfinish, if_pos hany]
    refine ⟨_, rfl, rfl, rfl, rfl,
      classify_cut hids Ast.statementsExcept_subset (List.ne_nil_of_mem hs),
      metavariablesOf_nodup _, fun name => ?_, metavariablesOf_ordered _⟩
    simp only [mem_metavariablesOf, carries_iff]

/-- After a comment, a name on its own line, and a parenthesis that fits nowhere. -/
def nameBeforeError : Rose GrammarNode :=
  .node ⟨"module", true, false, false, 0, 12, none⟩
    [.node ⟨"comment", true, false, false, 0, 3, none⟩ [],
      .node ⟨"expression_statement", true, false, false, 4, 10, none⟩
        [.node ⟨"identifier", true, false, false, 4, 10, none⟩ []],
      .node ⟨"ERROR", true, true, false, 11, 12, none⟩ []]

/-- The error is a statement too, so the pattern keeps the whole tree. -/
theorem finish_classifies_error :
    let g := Grammar.ofFamily .python fun _ => .ok nameBeforeError
    let text := "# c\n$X\n)".toList
    let c := Candidate.wrap text ⟨text, []⟩ (Placeholder.insert .python text) .none
    let r := (Conversion.of .python .pattern c.parsed text c.map).run nameBeforeError
    g.topLevel = belowRootExcept g.trivia ∧ r.ast.Distinct ∧
      (∃ s ∈ r.ast.statementsExcept g.trivia, s.label.node.error = false) ∧
      ∃ p, finish g .python false r = .ok p ∧ p.kind = .stmts ∧ p.metavariables = ["$X"] ∧
        Cut r.ast (r.ast.statementsExcept g.trivia) p.kind p.ast := by
  intro g text c r
  have htop : g.topLevel = belowRootExcept g.trivia := rfl
  have hids : r.ast.Distinct := by
    rw [Conversion.ast_run]
    exact Ast.distinct_ofTree? _
  have hgood : ∃ s ∈ r.ast.statementsExcept g.trivia, s.label.node.error = false := by decide
  obtain ⟨-, -, hok⟩ := @finish_classifies g .python false r htop hids
  obtain ⟨p, hp, -, -, -, hcut, -⟩ := hok hgood
  have hresult : (finish g .python false r).map (fun p => (p.kind, p.metavariables)) =
      .ok (.stmts, ["$X"]) := by decide +kernel
  rw [hp] at hresult
  simp only [Except.map, Except.ok.injEq, Prod.mk.injEq] at hresult
  exact ⟨htop, hids, hgood, p, hp, hresult.1, hresult.2, hcut⟩

end Pattern

end CodePattern
