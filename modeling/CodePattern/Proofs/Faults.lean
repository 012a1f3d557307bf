import CodePattern.Proofs.Located

/-! Which faults of a grammar's tree are reported. Punctuation, keywords and metavariables
hide what stands below them. A conversion has no errors exactly when all faults of the tree
are hidden, and then no node of the converted tree is an error. -/

namespace CodePattern

namespace Conversion

open Rose

variable {c : Conversion} {tree : Rose GrammarNode}

/-- A node that is left out, or that becomes a metavariable, hides what stands below it. -/
def Hides (c : Conversion) (n : GrammarNode) (above : List GrammarNode) : Prop :=
  n.informative = false ∨ ∃ m, c.pattern? (insideString above) n = some m

/-- Below these nodes, of which the nearest comes first, everything is hidden. -/
def Hidden (c : Conversion) (above : List GrammarNode) : Prop :=
  ∃ nearer n farther, above = nearer ++ n :: farther ∧ c.Hides n farther

def FaultsHidden (c : Conversion) (tree : Rose GrammarNode) : Prop :=
  ∀ above t, (above, t) ∈ tree.lineages [] → t.label.faulty = true → c.Hidden above

theorem hidden_cons {n : GrammarNode} {above : List GrammarNode} :
    c.Hidden (n :: above) ↔ c.Hides n above ∨ c.Hidden above := by
  constructor
  · rintro ⟨nearer, x, farther, he, hx⟩
    cases nearer with
    | nil =>
      obtain ⟨rfl, rfl⟩ := List.cons.inj he
      exact .inl hx
    | cons y nearer =>
      obtain ⟨rfl, rfl⟩ := List.cons.inj he
      exact .inr ⟨nearer, x, farther, rfl, hx⟩
  · rintro (h | ⟨nearer, x, farther, rfl, hx⟩)
    · exact ⟨[], n, above, rfl, h⟩
    · exact ⟨n :: nearer, x, farther, rfl, hx⟩

theorem hidden_iff_not_opened {above : List GrammarNode} :
    c.Hidden above ↔ c.opened above = false := by
  induction above with
  | nil => simp [Hidden, opened]
  | cons n above ih =>
    rw [hidden_cons, ih, opened, Hides]
    cases n.informative <;> cases c.pattern? (insideString above) n <;> simp

mutual
theorem topmostFaults_eq_nil_iff :
    (t : Rose Kept) → (topmostFaults t = [] ↔ ∀ k ∈ t.preorder, k.node.faulty = false)
  | .node k cs => by
    have hcs := topmostFaultsAll_eq_nil_iff cs
    cases hk : k.node.faulty <;> simp [topmostFaults, preorder, hk, hcs]

theorem topmostFaultsAll_eq_nil_iff :
    (ts : List (Rose Kept)) →
      (topmostFaultsAll ts = [] ↔ ∀ k ∈ preorderAll ts, k.node.faulty = false)
  | [] => by simp [topmostFaultsAll, preorderAll]
  | t :: ts => by
    have ht := topmostFaults_eq_nil_iff t
    have hts := topmostFaultsAll_eq_nil_iff ts
    simp only [topmostFaultsAll, preorderAll, List.append_eq_nil_iff, List.mem_append, ht, hts]
    exact ⟨fun h k hk => hk.elim (h.1 k) (h.2 k),
      fun h => ⟨fun k hk => h k (.inl hk), fun k hk => h k (.inr hk)⟩⟩
end

theorem nodes_keep (c : Conversion) (tree : Rose GrammarNode) :
    (preorderAll (c.keep false tree).toList).map (·.node) =
      (c.staying tree).map (·.2.label) := by
  have himage := image_staying c tree
  have hnode : ∀ x ∈ c.staying tree, (c.image x).map (·.label.node) = some x.2.label := by
    intro x hx
    have hmem : c.image x ∈ (subtreesAll (c.keep false tree).toList).map some :=
      himage ▸ List.mem_map_of_mem hx
    obtain ⟨kept, -, hkept⟩ := List.mem_map.mp hmem
    rw [← hkept, Option.map_some, (label_of_keep hkept.symm).1]
  have hsome : ((preorderAll (c.keep false tree).toList).map (·.node)).map some =
      ((c.staying tree).map (·.2.label)).map some := by
    calc ((preorderAll (c.keep false tree).toList).map (·.node)).map some
        = ((subtreesAll (c.keep false tree).toList).map some).map
            (Option.map (·.label.node)) := by simp [← label_subtreesAll]
      _ = (c.staying tree).map (fun x => (c.image x).map (·.label.node)) := by
          rw [← himage, List.map_map]
          rfl
      _ = ((c.staying tree).map (·.2.label)).map some := by
          rw [List.map_map]
          exact List.map_congr_left hnode
  exact (List.map_inj_right fun _ _ h => Option.some.inj h).mp hsome

theorem errors_run_eq_nil_iff (c : Conversion) (tree : Rose GrammarNode) :
    (c.run tree).errors = [] ↔ ∀ x ∈ c.staying tree, x.2.label.faulty = false := by
  have hnodes : (∀ n ∈ (preorderAll (c.keep false tree).toList).map (·.node), n.faulty = false) ↔
      ∀ n ∈ (c.staying tree).map (·.2.label), n.faulty = false := by rw [nodes_keep]
  rw [List.forall_mem_map, List.forall_mem_map] at hnodes
  rw [← hnodes, run]
  cases c.keep false tree with
  | none => simp [preorderAll]
  | some kept => simp [preorderAll, topmostFaults_eq_nil_iff]

theorem informative_of_faulty {n : GrammarNode} (h : n.faulty = true) : n.informative = true := by
  rw [GrammarNode.informative, h, Bool.or_true]

theorem errors_run_eq_nil_iff_faultsHidden (c : Conversion) (tree : Rose GrammarNode) :
    (c.run tree).errors = [] ↔ c.FaultsHidden tree := by
  rw [errors_run_eq_nil_iff]
  constructor
  · intro h above t hmem hfaulty
    rw [hidden_iff_not_opened, Bool.eq_false_iff]
    intro hopen
    have hstays : c.stays (above, t) = true := by
      simp [stays, informative_of_faulty hfaulty, hopen]
    have hclean := h (above, t) (List.mem_filter.mpr ⟨hmem, hstays⟩)
    simp [hfaulty] at hclean
  · rintro h ⟨above, t⟩ hmem
    obtain ⟨hmem, hstays⟩ := List.mem_filter.mp hmem
    rw [Bool.eq_false_iff]
    intro hfaulty
    have hclosed := hidden_iff_not_opened.mp (h above t hmem hfaulty)
    simp [stays, hclosed] at hstays

theorem error_eq_false_of_mem_nodes {a : AstNode} (h : (c.run tree).errors = [])
    (ha : a ∈ (c.run tree).ast.nodes) : a.error = false := by
  obtain ⟨kept, hkept, k, hk, rfl⟩ := exists_keep_of_mem_nodes ha
  simp only [run, hkept, List.map_eq_nil_iff] at h
  exact (topmostFaults_eq_nil_iff kept).mp h k hk

end Conversion

end CodePattern
