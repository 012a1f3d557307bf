import CodePattern.Pattern
import CodePattern.Proofs.Numbering

/-! A tree whose nodes are changed one by one. The numbers stay where they are, so what is made
of the tree is made of the changed tree as well, if the change keeps what it depends on. -/

namespace CodePattern

namespace Rose

variable {α β γ : Type}

mutual
theorem map_map (g : β → γ) (f : α → β) : (t : Rose α) → (t.map f).map g = t.map (g ∘ f)
  | .node a cs => by simp only [map, mapAll_mapAll g f cs, Function.comp_apply]

theorem mapAll_mapAll (g : β → γ) (f : α → β) :
    (ts : List (Rose α)) → mapAll g (mapAll f ts) = mapAll (g ∘ f) ts
  | [] => rfl
  | t :: ts => by simp only [mapAll, map_map g f t, mapAll_mapAll g f ts]
end

mutual
theorem map_congr {f g : α → β} :
    (t : Rose α) → (∀ a ∈ t.preorder, f a = g a) → t.map f = t.map g
  | .node a cs, h => by
    rw [preorder, List.forall_mem_cons] at h
    rw [map, map, h.1, mapAll_congr cs h.2]

theorem mapAll_congr {f g : α → β} :
    (ts : List (Rose α)) → (∀ a ∈ preorderAll ts, f a = g a) → mapAll f ts = mapAll g ts
  | [], _ => rfl
  | t :: ts, h => by
    rw [preorderAll, List.forall_mem_append] at h
    rw [mapAll, mapAll, map_congr t h.1, mapAll_congr ts h.2]
end

end Rose

def Entry.mapNode (f : AstNode → AstNode) (e : Entry) : Entry := ⟨e.id, f e.node⟩

theorem Rose.label_mapNode (f : AstNode → AstNode) (t : Rose Entry) :
    (t.map (Entry.mapNode f)).label = ⟨t.label.id, f t.label.node⟩ := map_label _ t

namespace Ast

open Rose

def mapNodes (f : AstNode → AstNode) (ast : Ast) : Ast :=
  ⟨ast.size, ast.trees.map (Rose.map (Entry.mapNode f))⟩

variable (f : AstNode → AstNode) (ast : Ast)

mutual
theorem number_map : (first : Nat) → (t : Rose AstNode) →
    number first (t.map f) = (number first t).map (Entry.mapNode f)
  | first, .node n cs => by
    have hcs := numberAll_mapAll (first + 1) cs
    simp only [Rose.map, number, hcs]
    rfl

theorem numberAll_mapAll : (first : Nat) → (ts : List (Rose AstNode)) →
    numberAll first (mapAll f ts) = mapAll (Entry.mapNode f) (numberAll first ts)
  | _, [] => rfl
  | first, t :: ts => by
    have ht := number_map first t
    have hts := numberAll_mapAll (first + t.size) ts
    simp only [mapAll, numberAll, ht, size_map, hts]
end

theorem ofTree?_map (t : Option (Rose AstNode)) :
    ofTree? (t.map (Rose.map f)) = (ofTree? t).mapNodes f := by
  cases t with
  | none => rfl
  | some t =>
    simp only [Option.map_some, ofTree?, ofTree, mapNodes, List.map_cons, List.map_nil, size_map,
      number_map]

theorem tree?_mapNodes : (ast.mapNodes f).tree? = ast.tree?.map (Rose.map (Entry.mapNode f)) := by
  rw [tree?, mapNodes, List.head?_map, tree?]

theorem at?_mapNodes (id : Nat) :
    (ast.mapNodes f).at? id = (ast.at? id).map (Rose.map (Entry.mapNode f)) := by
  have hid : (fun s : Rose Entry => s.label.id == id) ∘ Rose.map (Entry.mapNode f) =
      (fun s => s.label.id == id) := by
    funext s
    rw [Function.comp_apply, label_mapNode]
  rw [at?, mapNodes, ← mapAll_eq_map, subtreesAll_mapAll, List.find?_map, hid, at?]

theorem root?_mapNodes : (ast.mapNodes f).root? = ast.root? := by
  rw [root?, tree?_mapNodes, Option.map_map, root?]
  congr 1
  funext t
  rw [Function.comp_apply, label_mapNode]

theorem get?_mapNodes (id : Nat) : (ast.mapNodes f).get? id = (ast.get? id).map f := by
  rw [get?, at?_mapNodes, Option.map_map, get?, Option.map_map]
  congr 1
  funext t
  rw [Function.comp_apply, label_mapNode]
  rfl

theorem children_mapNodes (id : Nat) : (ast.mapNodes f).children id = ast.children id := by
  rw [children, at?_mapNodes, children]
  cases ast.at? id with
  | none => rfl
  | some t =>
    simp only [Option.map_some, children_map, List.map_map]
    refine List.map_congr_left fun s _ => ?_
    rw [Function.comp_apply, label_mapNode]

theorem nodes_mapNodes : (ast.mapNodes f).nodes = ast.nodes.map f := by
  rw [nodes, tree?_mapNodes, nodes]
  cases ast.tree? with
  | none => rfl
  | some t =>
    simp only [Option.map_some, preorder_map, List.map_map]
    rfl

theorem subtree_mapNodes (id : Nat) :
    (ast.mapNodes f).subtree id = (ast.subtree id).mapNodes f := by
  have hplain : plain ∘ Rose.map (Entry.mapNode f) = Rose.map f ∘ plain := by
    funext t
    simp only [Function.comp_apply, plain, map_map]
    rfl
  rw [subtree, at?_mapNodes, Option.map_map, hplain, ← Option.map_map, ofTree?_map, subtree]

end Ast

namespace Pattern

variable {f : AstNode → AstNode} {g : Grammar} {lang : Language} {strict : Bool}

theorem belowRootExcept_mapNodes (hkind : ∀ n, (f n).kind = n.kind) (trivia : List String)
    (ast : Ast) : belowRootExcept trivia (ast.mapNodes f) = belowRootExcept trivia ast := by
  rw [belowRootExcept, Ast.root?_mapNodes, belowRootExcept]
  simp only [Ast.children_mapNodes, Ast.get?_mapNodes, Option.any_map, hkind]

theorem classify_mapNodes (hkind : ∀ n, (f n).kind = n.kind) (ast : Ast) (topLevel : List Nat) :
    classify (ast.mapNodes f) topLevel =
      ((classify ast topLevel).1, (classify ast topLevel).2.mapNodes f) := by
  unfold classify
  simp only [Ast.children_mapNodes, Ast.get?_mapNodes, Ast.subtree_mapNodes, Option.any_map,
    hkind]
  split
  · split
    · split <;> rfl
    · rfl
  · rfl

theorem metavariablesOf_map (hpattern : ∀ n, (f n).pattern = n.pattern) (nodes : List AstNode) :
    metavariablesOf (nodes.map f) = metavariablesOf nodes := by
  rw [metavariablesOf, List.filterMap_map, metavariablesOf]
  simp only [Function.comp_def, hpattern]

theorem statements_mapNodes (htop : g.topLevel = belowRootExcept g.trivia)
    (hkind : ∀ n, (f n).kind = n.kind) (ast : Ast) :
    g.statements (ast.mapNodes f) = (g.statements ast).map (Rose.map (Entry.mapNode f)) := by
  rw [Grammar.statements, htop, belowRootExcept_mapNodes hkind, Grammar.statements, htop,
    List.map_filterMap]
  exact congrArg (List.filterMap · _) (funext fun id => Ast.at?_mapNodes f ast id)

/-- The pattern made of a tree changed node by node is changed in the same way. -/
theorem finish_mapNodes (htop : g.topLevel = belowRootExcept g.trivia)
    (hkind : ∀ n, (f n).kind = n.kind) (hpattern : ∀ n, (f n).pattern = n.pattern)
    (herror : ∀ n, (f n).error = n.error) {r r' : Converted} (hast : r'.ast = r.ast.mapNodes f)
    (herrors : r'.errors = r.errors) : finish g lang strict r' =
      (finish g lang strict r).map (fun p => { p with ast := p.ast.mapNodes f }) := by
  have htopLevel : g.topLevel r'.ast = g.topLevel r.ast := by
    rw [htop, hast, belowRootExcept_mapNodes hkind]
  have hany : (g.statements r'.ast).any (fun s => !s.label.node.error) =
      (g.statements r.ast).any (fun s => !s.label.node.error) := by
    rw [hast, statements_mapNodes htop hkind, List.any_map]
    simp only [Function.comp_def, Rose.label_mapNode, herror]
  rw [finish, hany, htopLevel, hast, herrors, classify_mapNodes hkind, finish]
  simp only [Ast.nodes_mapNodes, metavariablesOf_map hpattern]
  split <;> rfl

end Pattern

end CodePattern
