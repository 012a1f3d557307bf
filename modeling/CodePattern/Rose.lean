/-! Trees in which every node carries a label and any number of children in order. -/

namespace CodePattern

inductive Rose (α : Type) where
  | node (label : α) (children : List (Rose α))
  deriving Repr

namespace Rose

variable {α β : Type}

def label : Rose α → α
  | .node a _ => a

def children : Rose α → List (Rose α)
  | .node _ cs => cs

mutual
def preorder : Rose α → List α
  | .node a cs => a :: preorderAll cs

def preorderAll : List (Rose α) → List α
  | [] => []
  | t :: ts => preorder t ++ preorderAll ts
end

mutual
def size : Rose α → Nat
  | .node _ cs => 1 + sizeAll cs

def sizeAll : List (Rose α) → Nat
  | [] => 0
  | t :: ts => size t + sizeAll ts
end

mutual
/-- How many levels of nodes there are. -/
def height : Rose α → Nat
  | .node _ cs => 1 + heightAll cs

def heightAll : List (Rose α) → Nat
  | [] => 0
  | t :: ts => max (height t) (heightAll ts)
end

mutual
def map (f : α → β) : Rose α → Rose β
  | .node a cs => .node (f a) (mapAll f cs)

def mapAll (f : α → β) : List (Rose α) → List (Rose β)
  | [] => []
  | t :: ts => map f t :: mapAll f ts
end

mutual
def subtrees : Rose α → List (Rose α)
  | .node a cs => .node a cs :: subtreesAll cs

def subtreesAll : List (Rose α) → List (Rose α)
  | [] => []
  | t :: ts => subtrees t ++ subtreesAll ts
end

mutual
def attach (p : α → Bool) (child : Rose α) : Rose α → Rose α
  | .node a cs =>
    .node a (if p a then attachAll p child cs ++ [child] else attachAll p child cs)

def attachAll (p : α → Bool) (child : Rose α) : List (Rose α) → List (Rose α)
  | [] => []
  | t :: ts => attach p child t :: attachAll p child ts
end

/-- Puts a node in front of a forest with depths. The deeper trees at its front are its
children. -/
def graft (depth : Nat) (a : α) (forest : List (Nat × Rose α)) : List (Nat × Rose α) :=
  let below := forest.takeWhile (depth < ·.1)
  (depth, .node a (below.map Prod.snd)) :: forest.dropWhile (depth < ·.1)

/-- The trees of an outline, which lists the nodes in preorder with their depths. -/
def ofOutline (rows : List (Nat × α)) : List (Rose α) :=
  (rows.foldr (fun row forest => graft row.1 row.2 forest) []).map Prod.snd

theorem map_label (f : α → β) (t : Rose α) : (t.map f).label = f t.label := by
  cases t
  rfl

mutual
theorem preorder_map (f : α → β) : (t : Rose α) → (t.map f).preorder = t.preorder.map f
  | .node a cs => by simp [map, preorder, preorderAll_mapAll f cs]

theorem preorderAll_mapAll (f : α → β) :
    (ts : List (Rose α)) → preorderAll (mapAll f ts) = (preorderAll ts).map f
  | [] => rfl
  | t :: ts => by simp [mapAll, preorderAll, preorder_map f t, preorderAll_mapAll f ts]
end

mutual
theorem height_map (f : α → β) : (t : Rose α) → (t.map f).height = t.height
  | .node a cs => by rw [map, height, height, heightAll_mapAll f cs]

theorem heightAll_mapAll (f : α → β) : (ts : List (Rose α)) → heightAll (mapAll f ts) = heightAll ts
  | [] => rfl
  | t :: ts => by rw [mapAll, heightAll, heightAll, height_map f t, heightAll_mapAll f ts]
end

mutual
theorem length_preorder : (t : Rose α) → t.preorder.length = t.size
  | .node a cs => by simp [preorder, size, length_preorderAll cs, Nat.add_comm]

theorem length_preorderAll : (ts : List (Rose α)) → (preorderAll ts).length = sizeAll ts
  | [] => rfl
  | t :: ts => by simp [preorderAll, sizeAll, length_preorder t, length_preorderAll ts]
end

end Rose

end CodePattern
