import CodePattern.Conversion
import CodePattern.Proofs.Numbering

/-! The nodes that stay when a tree is converted, told by what stands above them. A node
stays if neither it nor a node above it is left out, and no node above it is a
metavariable. In preorder they are the nodes of the converted tree. -/

namespace CodePattern

namespace Rose

variable {α : Type}

mutual
/-- The subtrees of a tree in preorder, with the labels above each, the nearest first. -/
def lineages (above : List α) : Rose α → List (List α × Rose α)
  | .node a cs => (above, .node a cs) :: lineagesAll (a :: above) cs

def lineagesAll (above : List α) : List (Rose α) → List (List α × Rose α)
  | [] => []
  | t :: ts => lineages above t ++ lineagesAll above ts
end

mutual
theorem snd_lineages (above : List α) :
    (t : Rose α) → (t.lineages above).map Prod.snd = t.subtrees
  | .node a cs => by simp [lineages, subtrees, snd_lineagesAll (a :: above) cs]

theorem snd_lineagesAll (above : List α) :
    (ts : List (Rose α)) → (lineagesAll above ts).map Prod.snd = subtreesAll ts
  | [] => rfl
  | t :: ts => by
    simp [lineagesAll, subtreesAll, snd_lineages above t, snd_lineagesAll above ts]
end

mutual
theorem label_subtrees : (t : Rose α) → t.subtrees.map label = t.preorder
  | .node a cs => by simp [subtrees, preorder, label, label_subtreesAll cs]

theorem label_subtreesAll : (ts : List (Rose α)) → (subtreesAll ts).map label = preorderAll ts
  | [] => rfl
  | t :: ts => by simp [subtreesAll, preorderAll, label_subtrees t, label_subtreesAll ts]
end

theorem label_mem_preorder {t s : Rose α} (h : s ∈ t.subtrees) : s.label ∈ t.preorder := by
  rw [← label_subtrees]
  exact List.mem_map_of_mem h

end Rose

namespace Conversion

open Rose

def insideString (above : List GrammarNode) : Bool :=
  above.any (fun n => Php.stringKinds.contains n.kind)

theorem insideString_cons (n : GrammarNode) (above : List GrammarNode) :
    insideString (n :: above) = (insideString above || Php.stringKinds.contains n.kind) := by
  rw [insideString, List.any_cons, Bool.or_comm]
  rfl

/-- Every node of the list stays, what stands after it being above it, and none of them
is a metavariable. -/
def opened (c : Conversion) : List GrammarNode → Bool
  | [] => true
  | n :: above => n.informative && (c.pattern? (insideString above) n).isNone && c.opened above

def stays (c : Conversion) (x : List GrammarNode × Rose GrammarNode) : Bool :=
  x.2.label.informative && c.opened x.1

/-- The nodes of a tree that stay, in preorder, each with its subtree and the nodes above. -/
def staying (c : Conversion) (tree : Rose GrammarNode) :
    List (List GrammarNode × Rose GrammarNode) :=
  (tree.lineages []).filter c.stays

def image (c : Conversion) (x : List GrammarNode × Rose GrammarNode) : Option (Rose Kept) :=
  c.keep (insideString x.1) x.2

mutual
theorem stays_of_closed {c : Conversion} {above : List GrammarNode} (h : c.opened above = false) :
    (t : Rose GrammarNode) → (t.lineages above).filter c.stays = []
  | .node n cs => by
    have hn : c.opened (n :: above) = false := by rw [opened, h, Bool.and_false]
    rw [lineages, List.filter_cons_of_neg (by simp [stays, h]), stays_of_closedAll hn cs]

theorem stays_of_closedAll {c : Conversion} {above : List GrammarNode}
    (h : c.opened above = false) :
    (ts : List (Rose GrammarNode)) → (lineagesAll above ts).filter c.stays = []
  | [] => rfl
  | t :: ts => by
    rw [lineagesAll, List.filter_append, stays_of_closed h t, stays_of_closedAll h ts]
    rfl
end

theorem keepAll_cons (c : Conversion) (inString : Bool) (t : Rose GrammarNode)
    (ts : List (Rose GrammarNode)) :
    c.keepAll inString (t :: ts) = (c.keep inString t).toList ++ c.keepAll inString ts := by
  rw [keepAll]
  cases c.keep inString t <;> rfl

mutual
theorem keep_congr {c c' : Conversion}
    (h : ∀ inString n, c'.pattern? inString n = c.pattern? inString n) (inString : Bool) :
    (t : Rose GrammarNode) → c'.keep inString t = c.keep inString t
  | .node n cs => by
    rw [keep, keep, h, keepAll_congr h _ cs]

theorem keepAll_congr {c c' : Conversion}
    (h : ∀ inString n, c'.pattern? inString n = c.pattern? inString n) (inString : Bool) :
    (ts : List (Rose GrammarNode)) → c'.keepAll inString ts = c.keepAll inString ts
  | [] => rfl
  | t :: ts => by
    rw [keepAll_cons, keepAll_cons, keep_congr h inString t, keepAll_congr h inString ts]
end

mutual
/-- The subtrees of what a tree becomes are what its staying subtrees become. -/
theorem image_lineages {c : Conversion} {above : List GrammarNode} (h : c.opened above = true) :
    (t : Rose GrammarNode) → ((t.lineages above).filter c.stays).map c.image =
      (subtreesAll (c.keep (insideString above) t).toList).map some
  | .node n cs => by
    cases hn : n.informative with
    | false =>
      have hclosed : c.opened (n :: above) = false := by simp [opened, hn]
      rw [lineages, List.filter_cons_of_neg (by simp [stays, label, hn]),
        stays_of_closedAll hclosed cs]
      simp [keep, hn, subtreesAll]
    | true =>
      have hkeep := keep.eq_1 c (insideString above) n cs
      rw [if_pos hn] at hkeep
      rw [lineages, List.filter_cons_of_pos (by simp [stays, label, hn, h]), List.map_cons, image,
        hkeep]
      cases hp : c.pattern? (insideString above) n with
      | some m =>
        have hclosed : c.opened (n :: above) = false := by simp [opened, hp]
        rw [stays_of_closedAll hclosed cs]
        simp [subtreesAll, subtrees]
      | none =>
        have hopen : c.opened (n :: above) = true := by simp [opened, hn, hp, h]
        rw [image_lineagesAll hopen cs, insideString_cons]
        simp [subtreesAll, subtrees]

theorem image_lineagesAll {c : Conversion} {above : List GrammarNode}
    (h : c.opened above = true) :
    (ts : List (Rose GrammarNode)) → ((lineagesAll above ts).filter c.stays).map c.image =
      (subtreesAll (c.keepAll (insideString above) ts)).map some
  | [] => rfl
  | t :: ts => by
    rw [lineagesAll, List.filter_append, List.map_append, image_lineages h t,
      image_lineagesAll h ts, keepAll_cons, subtreesAll_append, List.map_append]
end

theorem image_staying (c : Conversion) (tree : Rose GrammarNode) :
    (c.staying tree).map c.image = (subtreesAll (c.keep false tree).toList).map some := by
  have hroot : c.opened [] = true := rfl
  exact image_lineages hroot tree

theorem subtrees_keep {c : Conversion} {tree : Rose GrammarNode} {kept : Rose Kept}
    (h : c.keep false tree = some kept) :
    kept.subtrees.map some = (c.staying tree).map c.image := by
  rw [image_staying, h]
  simp [subtreesAll]

theorem label_of_keep {c : Conversion} {inString : Bool} {t : Rose GrammarNode} {kept : Rose Kept}
    (h : c.keep inString t = some kept) :
    kept.label.node = t.label ∧ kept.label.pattern = c.pattern? inString t.label := by
  obtain ⟨n, cs⟩ := t
  rw [keep] at h
  split at h
  · obtain rfl := Option.some.inj h
    exact ⟨rfl, rfl⟩
  · cases h

theorem keep_leaf {c : Conversion} {inString : Bool} {n : GrammarNode}
    {cs : List (Rose GrammarNode)} {m : Meta} (hn : n.informative = true)
    (hm : c.pattern? inString n = some m) :
    c.keep inString (.node n cs) = some (.node ⟨n, some m, true⟩ []) := by
  simp [keep, hn, hm]

theorem exists_staying_of_keep {c : Conversion} {tree : Rose GrammarNode} {kept s : Rose Kept}
    (h : c.keep false tree = some kept) (hs : s ∈ kept.subtrees) :
    ∃ x ∈ c.staying tree, c.image x = some s := by
  have himage : some s ∈ (c.staying tree).map c.image := by
    rw [← subtrees_keep h]
    exact List.mem_map_of_mem hs
  exact List.mem_map.mp himage

theorem mem_subtrees_of_staying {c : Conversion} {tree : Rose GrammarNode}
    {x : List GrammarNode × Rose GrammarNode} (h : x ∈ c.staying tree) : x.2 ∈ tree.subtrees := by
  rw [← snd_lineages []]
  exact List.mem_map_of_mem (List.mem_filter.mp h).1

theorem label_mem_of_staying {c : Conversion} {tree : Rose GrammarNode}
    {x : List GrammarNode × Rose GrammarNode} (h : x ∈ c.staying tree) :
    x.2.label ∈ tree.preorder := label_mem_preorder (mem_subtrees_of_staying h)

theorem node_mem_of_keep {c : Conversion} {tree : Rose GrammarNode} {kept : Rose Kept} {k : Kept}
    (h : c.keep false tree = some kept) (hk : k ∈ kept.preorder) : k.node ∈ tree.preorder := by
  rw [← label_subtrees] at hk
  obtain ⟨s, hs, rfl⟩ := List.mem_map.mp hk
  obtain ⟨x, hx, himage⟩ := exists_staying_of_keep h hs
  rw [(label_of_keep himage).1]
  exact label_mem_of_staying hx

theorem ast_run (c : Conversion) (tree : Rose GrammarNode) :
    (c.run tree).ast = .ofTree? ((c.keep false tree).map (Rose.map c.astNode)) := by
  rw [run]
  cases c.keep false tree <;> rfl

theorem exists_keep_of_mem_nodes {c : Conversion} {tree : Rose GrammarNode} {a : AstNode}
    (h : a ∈ (c.run tree).ast.nodes) :
    ∃ kept, c.keep false tree = some kept ∧ ∃ k ∈ kept.preorder, a = c.astNode k := by
  rw [ast_run] at h
  cases hk : c.keep false tree with
  | none => simp [hk, Ast.ofTree?, Ast.nodes, Ast.tree?, Ast.empty] at h
  | some kept =>
    rw [hk, Option.map_some, Ast.ofTree?, Ast.nodes_ofTree, preorder_map] at h
    obtain ⟨k, hmem, rfl⟩ := List.mem_map.mp h
    exact ⟨kept, rfl, k, hmem, rfl⟩

theorem exists_kept_of_mem_nodes {c : Conversion} {tree : Rose GrammarNode} {a : AstNode}
    (h : a ∈ (c.run tree).ast.nodes) : ∃ k : Kept, a = c.astNode k ∧ k.node ∈ tree.preorder := by
  obtain ⟨kept, hkept, k, hk, rfl⟩ := exists_keep_of_mem_nodes h
  exact ⟨k, rfl, node_mem_of_keep hkept hk⟩

/-- A node that stands for a metavariable is one of the grammar's tree, with all of its text. -/
theorem exists_pattern_of_mem_nodes {c : Conversion} {tree : Rose GrammarNode} {a : AstNode}
    {m : Meta} (h : a ∈ (c.run tree).ast.nodes) (hm : a.pattern = some m) :
    ∃ n ∈ tree.preorder, ∃ inString, c.pattern? inString n = some m ∧
      a.text = some (String.ofList (c.textOf (c.span n))) := by
  obtain ⟨kept, hkept, k, hk, rfl⟩ := exists_keep_of_mem_nodes h
  rw [← label_subtrees] at hk
  obtain ⟨s, hs, rfl⟩ := List.mem_map.mp hk
  obtain ⟨⟨above, n, cs⟩, hx, himage⟩ := exists_staying_of_keep hkept hs
  have hstays := (List.mem_filter.mp hx).2
  rw [stays, Bool.and_eq_true] at hstays
  have hpattern : c.pattern? (insideString above) n = some m :=
    (label_of_keep himage).2.symm.trans hm
  have hleaf : c.image (above, .node n cs) = some (.node ⟨n, some m, true⟩ []) :=
    keep_leaf hstays.1 hpattern
  obtain rfl := Option.some.inj (himage.symm.trans hleaf)
  exact ⟨n, label_mem_of_staying hx, insideString above, hpattern, rfl⟩

mutual
theorem topmostFaults_subset :
    (t : Rose Kept) → topmostFaults t ⊆ t.preorder.map (·.node)
  | .node k cs => by
    rw [topmostFaults, preorder, List.map_cons]
    split
    · simp
    · exact List.subset_cons_of_subset _ (topmostFaultsAll_subset cs)

theorem topmostFaultsAll_subset :
    (ts : List (Rose Kept)) → topmostFaultsAll ts ⊆ (preorderAll ts).map (·.node)
  | [] => List.Subset.refl _
  | t :: ts => by
    rw [topmostFaultsAll, preorderAll, List.map_append]
    exact List.append_subset.mpr
      ⟨List.subset_append_of_subset_left _ (topmostFaults_subset t),
        List.subset_append_of_subset_right _ (topmostFaultsAll_subset ts)⟩
end

theorem exists_node_of_mem_errors {c : Conversion} {tree : Rose GrammarNode} {e : SyntaxError}
    (h : e ∈ (c.run tree).errors) : ∃ n ∈ tree.preorder, e.span = c.span n := by
  rw [run] at h
  cases hk : c.keep false tree with
  | none => simp [hk] at h
  | some kept =>
    simp only [hk] at h
    obtain ⟨n, hn, rfl⟩ := List.mem_map.mp h
    obtain ⟨k, hkept, rfl⟩ := List.mem_map.mp (topmostFaults_subset kept hn)
    exact ⟨k.node, node_mem_of_keep hk hkept, rfl⟩

end Conversion

end CodePattern
