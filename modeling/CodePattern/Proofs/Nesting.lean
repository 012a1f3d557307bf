import CodePattern.Proofs.Located

/-! Spans keep the nesting of a grammar's tree. The way back to the text keeps the order of
offsets, and a later offset has no earlier line and column. So what lies inside a node, or
before it, does so in the converted tree as well. -/

namespace CodePattern

namespace Rose

variable {α β : Type}

/-- Every node stands inside the node above it, and of the nodes below one node each stands
before the later ones. -/
def Nested (inside before : α → α → Prop) (t : Rose α) : Prop :=
  ∀ s ∈ t.subtrees, (∀ c ∈ s.children, inside c.label s.label) ∧
    s.children.Pairwise (fun c d => before c.label d.label)

instance (inside before : α → α → Prop) [DecidableRel inside] [DecidableRel before]
    (t : Rose α) : Decidable (t.Nested inside before) :=
  inferInstanceAs (Decidable (∀ s ∈ t.subtrees, _))

theorem nested_map_iff (inside before : β → β → Prop) (f : α → β) {t : Rose α} :
    (t.map f).Nested inside before ↔
      t.Nested (fun a b => inside (f a) (f b)) (fun a b => before (f a) (f b)) := by
  simp only [Nested, subtrees_map, List.forall_mem_map, children_map, map_label,
    List.pairwise_map]

end Rose

def GrammarNode.Within (n outer : GrammarNode) : Prop :=
  outer.start ≤ n.start ∧ n.start ≤ n.stop ∧ n.stop ≤ outer.stop

def GrammarNode.Before (n next : GrammarNode) : Prop := n.stop ≤ next.start

instance : DecidableRel GrammarNode.Within :=
  fun n outer => inferInstanceAs (Decidable (outer.start ≤ n.start ∧ _ ∧ _))

instance : DecidableRel GrammarNode.Before :=
  fun n next => inferInstanceAs (Decidable (n.stop ≤ next.start))

/-- A line and a column that come no later than others. -/
def NotAfter (p q : UInt32 × UInt32) : Prop := p.1 < q.1 ∨ p.1 = q.1 ∧ p.2 ≤ q.2

namespace Span

def first (s : Span) : UInt32 × UInt32 := (s.startLine, s.startCol)

def last (s : Span) : UInt32 × UInt32 := (s.endLine, s.endCol)

def Within (s outer : Span) : Prop := outer.startByte ≤ s.startByte ∧ s.endByte ≤ outer.endByte

def Before (s next : Span) : Prop := s.endByte ≤ next.startByte

def WithinLines (s outer : Span) : Prop :=
  NotAfter outer.first s.first ∧ NotAfter s.last outer.last

def BeforeLines (s next : Span) : Prop := NotAfter s.last next.first

end Span

section Lines

variable {text : List Char} {x y : Nat}

/-- Among the texts below the size of 32 bits, only line feeds alone make too many lines. -/
theorem lineOf_lt_size (hsize : width text < UInt32.size)
    (hfeeds : text ≠ List.replicate (UInt32.size - 1) '\n') : lineOf text < UInt32.size := by
  have hcount := List.count_le_length (a := '\n') (l := text)
  have hlength := length_le_width text
  have hne : text.count '\n' ≠ UInt32.size - 1 := by
    intro heq
    have hall : text.count '\n' = text.length := by omega
    refine hfeeds (List.eq_replicate_iff.mpr ⟨by omega, fun c hc => ?_⟩)
    exact (List.count_eq_length.mp hall c hc).symm
  rw [lineOf]
  omega

theorem width_lineFeeds (n : Nat) : width (List.replicate n '\n') = n := by
  induction n with
  | zero => rfl
  | succ n ih =>
    have hone : '\n'.utf8Size = 1 := by decide
    rw [List.replicate_succ, width_cons, ih, hone, Nat.add_comm]

/-- Every line feed ends a line of its own, so after `2 ^ 32 - 1` of them the line has a number that
32 bits do not hold. -/
theorem position_lineFeeds {n k : Nat} (hk : k ≤ n) :
    (LineTable.ofText (List.replicate n '\n')).position k = ((1 + k).toUInt32, 0) := by
  have hlast : lastLine (List.replicate k '\n') = [] := by
    rw [lastLine, List.reverse_replicate, List.reverse_eq_nil_iff]
    cases k <;> rfl
  have h := position_boundary (List.replicate k '\n') (List.replicate (n - k) '\n')
  rw [List.replicate_append_replicate, Nat.add_sub_cancel' hk, width_lineFeeds, lineOf, columnOf,
    hlast, List.count_replicate_self] at h
  exact h

theorem startsUpTo_prefix (table : LineTable) (hle : x ≤ y) :
    table.startsUpTo x <+: table.startsUpTo y := by
  have hboth : table.laterStarts.takeWhile (· ≤ x) =
      (table.laterStarts.takeWhile (· ≤ y)).takeWhile (· ≤ x) := by
    rw [List.takeWhile_takeWhile]
    congr 1
    funext start
    by_cases hstart : start ≤ x
    · simp [hstart, Nat.le_trans hstart hle]
    · simp [hstart]
  rw [LineTable.startsUpTo, LineTable.startsUpTo, hboth]
  exact List.cons_prefix_cons.mpr ⟨rfl, List.takeWhile_prefix _⟩

theorem length_startsUpTo_le (text : List Char) (x : Nat) :
    ((LineTable.ofText text).startsUpTo x).length ≤ lineOf text := by
  have hle := (List.takeWhile_prefix (· ≤ x) (l := lineStartsFrom 0 text)).length_le
  rw [length_lineStartsFrom] at hle
  simp only [LineTable.startsUpTo, LineTable.ofText, List.length_cons, lineOf]
  omega

theorem position_mono (hle : x ≤ y) (hy : y ≤ width text) (hsize : width text < UInt32.size)
    (hlines : lineOf text < UInt32.size) :
    NotAfter ((LineTable.ofText text).position x) ((LineTable.ofText text).position y) := by
  let starts := (LineTable.ofText text).startsUpTo
  have hcount : (starts y).length < UInt32.size :=
    Nat.lt_of_le_of_lt (length_startsUpTo_le text y) hlines
  have hmono : ∀ m n, m ≤ n → n < UInt32.size → m.toUInt32 ≤ n.toUInt32 := by
    intro m n hmn hn
    rw [UInt32.le_iff_toNat_le, UInt32.toNat_ofNat_of_lt' hn,
      UInt32.toNat_ofNat_of_lt' (Nat.lt_of_le_of_lt hmn hn)]
    exact hmn
  obtain ⟨more, hmore⟩ := startsUpTo_prefix (LineTable.ofText text) hle
  change starts x ++ more = starts y at hmore
  cases more with
  | nil =>
    -- Both offsets lie on one line, so the columns decide.
    rw [List.append_nil] at hmore
    refine .inr ⟨?_, ?_⟩
    · exact congrArg (fun s => s.length.toUInt32) hmore
    · show ((x - (starts x).getLastD 0).toUInt32) ≤ ((y - (starts y).getLastD 0).toUInt32)
      rw [hmore]
      exact hmono _ _ (by omega) (by omega)
  | cons start more =>
    have hlength : (starts x).length < (starts y).length := by
      rw [← hmore, List.length_append, List.length_cons]
      omega
    refine .inl ?_
    show (starts x).length.toUInt32 < (starts y).length.toUInt32
    rw [UInt32.lt_iff_toNat_lt, UInt32.toNat_ofNat_of_lt' hcount,
      UInt32.toNat_ofNat_of_lt' (by omega)]
    exact hlength

end Lines

/-- A map with which a candidate of the text, or the text as a file, is converted. -/
inductive MapOf (text : List Char) : OffsetMap → Prop
  | file : MapOf text (.identity (width text))
  | candidate {g : Grammar} {c : Candidate} (hc : c ∈ Pattern.candidates g text) :
      MapOf text c.map

namespace MapOf

variable {text : List Char} {map : OffsetMap}

theorem exists_wrap {g : Grammar} {c : Candidate} (hc : c ∈ Pattern.candidates g text) :
    ∃ base ∈ Pattern.bases text, ∃ w,
      c = Candidate.wrap text base (Placeholder.insert g.family base.text) w := by
  obtain ⟨base, hbase, hc⟩ := List.mem_flatMap.mp hc
  obtain ⟨w, -, rfl⟩ := List.mem_map.mp hc
  exact ⟨base, hbase, w, rfl⟩

theorem limit_eq (h : MapOf text map) : map.limit = width text := by
  cases h with
  | file => rfl
  | candidate hc =>
    obtain ⟨base, -, w, rfl⟩ := exists_wrap hc
    have hpush : ∀ (m : OffsetMap) edits, (m.push edits).limit = m.limit := by
      intro m edits
      cases edits <;> rfl
    rw [Candidate.wrap, hpush, hpush]
    rfl

theorem locate_le (h : MapOf text map) (x : Nat) : map.locate x ≤ width text := by
  rw [← h.limit_eq]
  exact Nat.min_le_right _ _

theorem locate_mono (h : MapOf text map) (hsize : width text < UInt64.size / 2) {x y : Nat}
    (hle : x ≤ y) (hy : y < UInt64.size / 2) : map.locate x ≤ map.locate y := by
  cases h with
  | file =>
    simp only [OffsetMap.locate, OffsetMap.identity, List.foldr_nil]
    omega
  | @candidate g c hc =>
    obtain ⟨base, hbase, w, rfl⟩ := exists_wrap hc
    obtain ⟨outer, rfl, rfl, hwidth⟩ := exists_segments_of_mem_bases hbase
    have hword : wordSize = UInt64.size := rfl
    have hlocate : ∀ z ≤ y, _ := fun z hz =>
      @locate_wrap_back g.family outer w z hwidth (by omega)
    rw [Revision.ofSegments] at hlocate ⊢
    rw [hlocate x hle, hlocate y (Nat.le_refl y)]
    have hback := Segment.back_mono outer
      (Segment.back_mono (Placeholder.segments g.family (textAfter outer))
        (Nat.sub_le_sub_right hle (width w.opening.toList)))
    omega

end MapOf

namespace Conversion

open Rose

theorem keepAll_eq_filterMap (c : Conversion) (inString : Bool) (ts : List (Rose GrammarNode)) :
    c.keepAll inString ts = ts.filterMap (c.keep inString) := by
  induction ts with
  | nil => rfl
  | cons t ts ih =>
    rw [keepAll_cons, ih]
    cases h : c.keep inString t <;> simp [h]

variable {c : Conversion} {tree : Rose GrammarNode}

theorem children_of_image {x : List GrammarNode × Rose GrammarNode} {k : Rose Kept}
    (h : c.image x = some k) :
    ∃ inString, k.children = [] ∨ k.children = x.2.children.filterMap (c.keep inString) := by
  obtain ⟨above, n, cs⟩ := x
  rw [image, keep] at h
  split at h
  · obtain rfl := Option.some.inj h
    refine ⟨insideString above || Php.stringKinds.contains n.kind, ?_⟩
    rw [← keepAll_eq_filterMap, Rose.children]
    split
    · exact .inl rfl
    · exact .inr rfl
  · cases h

/-- What holds of the spans of nodes inside and before each other holds in the kept tree. -/
theorem keep_nested {inside before : Span → Span → Prop} {limit : Nat}
    (hinside : ∀ n outer : GrammarNode, n.Within outer → outer.stop < limit →
      inside (c.span n) (c.span outer))
    (hbefore : ∀ n next : GrammarNode, n.start ≤ n.stop → next.start ≤ next.stop →
      n.Before next → next.stop < limit → before (c.span n) (c.span next))
    (htree : tree.Nested GrammarNode.Within GrammarNode.Before)
    (hlimit : ∀ n ∈ tree.preorder, n.stop < limit) {kept : Rose Kept}
    (h : c.keep false tree = some kept) :
    kept.Nested (fun k outer => inside (c.span k.node) (c.span outer.node))
      (fun k next => before (c.span k.node) (c.span next.node)) := by
  intro k hk
  obtain ⟨x, hx, himage⟩ := exists_staying_of_keep h hk
  have hmem := mem_subtrees_of_staying hx
  obtain ⟨hwithin, horder⟩ := htree x.2 hmem
  have hstop : ∀ t ∈ x.2.children, t.label.stop < limit :=
    fun t ht => hlimit _ (label_mem_preorder (children_subset_of_mem_subtrees tree hmem ht))
  have hlabel : k.label.node = x.2.label := (label_of_keep himage).1
  obtain ⟨inString, hnone | hsome⟩ := children_of_image himage
  · simp [hnone]
  · simp only [hsome, hlabel]
    constructor
    · intro l hl
      obtain ⟨t, ht, hkeep⟩ := List.mem_filterMap.mp hl
      rw [(label_of_keep hkeep).1]
      exact hinside _ _ (hwithin t ht) (hlimit _ (label_mem_of_staying hx))
    · refine List.pairwise_filterMap.mpr (horder.imp_of_mem ?_)
      intro s t hs ht hst k hk l hl
      rw [(label_of_keep hk).1, (label_of_keep hl).1]
      exact hbefore _ _ (hwithin s hs).2.1 (hwithin t ht).2.1 hst (hstop t ht)

theorem ast_nested {inside before : Span → Span → Prop}
    (h : ∀ kept, c.keep false tree = some kept →
      kept.Nested (fun k outer => inside (c.span k.node) (c.span outer.node))
        (fun k next => before (c.span k.node) (c.span next.node))) :
    ∀ t ∈ (c.run tree).ast.trees, t.Nested (fun e outer => inside e.node.span outer.node.span)
      (fun e next => before e.node.span next.node.span) := by
  intro t ht
  rw [ast_run] at ht
  cases hk : c.keep false tree with
  | none => simp [hk, Ast.ofTree?, Ast.empty] at ht
  | some kept =>
    obtain rfl : t = Ast.number 1 (kept.map c.astNode) := by
      simpa [hk, Ast.ofTree?, Ast.ofTree] using ht
    have hplain := Ast.plain_number 1 (kept.map c.astNode)
    rw [Ast.plain] at hplain
    let inside' : AstNode → AstNode → Prop := fun n outer => inside n.span outer.span
    let before' : AstNode → AstNode → Prop := fun n next => before n.span next.span
    have hkept : (kept.map c.astNode).Nested inside' before' :=
      (nested_map_iff inside' before' c.astNode).mpr (h kept hk)
    rw [← hplain] at hkept
    exact (nested_map_iff inside' before' Entry.node).mp hkept

/-- Places of offsets, such as lines and columns, that do not decrease when offsets grow
show the nesting of the tree. -/
theorem run_nested {Place : Type} {place : Nat → Place} {first last : Span → Place}
    {notAfter : Place → Place → Prop} {limit : Nat}
    (hfirst : ∀ x y, first (c.lines.span x y) = place x)
    (hlast : ∀ x y, last (c.lines.span x y) = place y)
    (hlocate : ∀ x y, x ≤ y → y < limit → c.map.locate x ≤ c.map.locate y)
    (hplace : ∀ x y, x ≤ y → y < limit →
      notAfter (place (c.map.locate x)) (place (c.map.locate y)))
    (htree : tree.Nested GrammarNode.Within GrammarNode.Before)
    (hlimit : ∀ n ∈ tree.preorder, n.stop < limit) :
    ∀ t ∈ (c.run tree).ast.trees, t.Nested
      (fun e outer => notAfter (first outer.node.span) (first e.node.span) ∧
        notAfter (last e.node.span) (last outer.node.span))
      (fun e next => notAfter (last e.node.span) (first next.node.span)) := by
  have hspan : ∀ n : GrammarNode, n.start ≤ n.stop → n.stop < limit →
      first (c.span n) = place (c.map.locate n.start) ∧
        last (c.span n) = place (c.map.locate n.stop) := by
    intro n hle hstop
    rw [span, Nat.max_eq_left (hlocate _ _ hle hstop)]
    exact ⟨hfirst _ _, hlast _ _⟩
  let inside : Span → Span → Prop :=
    fun s outer => notAfter (first outer) (first s) ∧ notAfter (last s) (last outer)
  let before : Span → Span → Prop := fun s next => notAfter (last s) (first next)
  have hinside : ∀ n outer : GrammarNode, n.Within outer → outer.stop < limit →
      inside (c.span n) (c.span outer) := by
    rintro n outer ⟨hstart, hn, hstop⟩ hlimit
    obtain ⟨hnfirst, hnlast⟩ := hspan n hn (by omega)
    obtain ⟨hofirst, holast⟩ := hspan outer (by omega) hlimit
    simp only [inside, hnfirst, hnlast, hofirst, holast]
    exact ⟨hplace _ _ hstart (by omega), hplace _ _ hstop hlimit⟩
  have hbefore : ∀ n next : GrammarNode, n.start ≤ n.stop → next.start ≤ next.stop →
      n.Before next → next.stop < limit → before (c.span n) (c.span next) := by
    intro n next hn hnext hlt hlimit
    rw [GrammarNode.Before] at hlt
    simp only [before, (hspan n hn (by omega)).2, (hspan next hnext hlimit).1]
    exact hplace _ _ hlt (by omega)
  exact ast_nested (fun kept hk => keep_nested hinside hbefore htree hlimit hk)

/-- In the tree of a conversion each node's span lies within the span of the node above it,
and of two nodes side by side the earlier one's span ends before the later one's begins, in
octets as well as in lines and columns. Offsets are addresses in memory and fill at most half of
64 bits. Only for `2 ^ 32 - 1` line feeds and nothing else the lines are left out, as the number
of the last one does not fit. -/
theorem spans_nested {family : Family} {mode : Mode} {parsed text : List Char} {map : OffsetMap}
    (hmap : MapOf text map) (hsize : width text < UInt32.size)
    (htree : tree.Nested GrammarNode.Within GrammarNode.Before)
    (haddress : ∀ n ∈ tree.preorder, n.stop < UInt64.size / 2) :
    let ast := ((Conversion.of family mode parsed text map).run tree).ast
    (∀ t ∈ ast.trees, t.Nested (fun e outer => e.node.span.Within outer.node.span)
      (fun e next => e.node.span.Before next.node.span)) ∧
    (text ≠ List.replicate (UInt32.size - 1) '\n' →
      ∀ t ∈ ast.trees, t.Nested (fun e outer => e.node.span.WithinLines outer.node.span)
        (fun e next => e.node.span.BeforeLines next.node.span)) := by
  intro ast
  have hlocate : ∀ x y, x ≤ y → y < UInt64.size / 2 → map.locate x ≤ map.locate y :=
    fun _ _ => hmap.locate_mono (Nat.lt_trans hsize (by decide))
  constructor
  · exact run_nested (fun _ _ => rfl) (fun _ _ => rfl) hlocate hlocate htree haddress
  · intro hfeeds
    have hlines := lineOf_lt_size hsize hfeeds
    have hposition : ∀ x y, x ≤ y → y < UInt64.size / 2 →
        NotAfter ((LineTable.ofText text).position (map.locate x))
          ((LineTable.ofText text).position (map.locate y)) :=
      fun x y hle hy => position_mono (hlocate x y hle hy) (hmap.locate_le y) hsize hlines
    exact run_nested (fun _ _ => rfl) (fun _ _ => rfl) hlocate hposition htree haddress

def nameTree (start : Nat) : Rose GrammarNode :=
  .node ⟨"expression_statement", true, false, false, start, start + 6, none⟩
    [.node ⟨"identifier", true, false, false, start, start + 6, none⟩ []]

/-- A name on each of two lines. -/
def twoNames : Rose GrammarNode :=
  .node ⟨"module", true, false, false, 0, 13, none⟩ [nameTree 0, nameTree 7]

def parseTwoNames (source : List Char) : Except ParseFailure (Rose GrammarNode) :=
  if source = "__mv_X\n__mv_Y".toList then .ok twoNames
  else .error (.refused "refused to parse")

/-- Two names lose the tab before each of them. -/
theorem spans_nested_twoNames :
    let text := "\t$X\n\t$Y".toList
    ∃ c ∈ Pattern.candidates (.ofFamily .python parseTwoNames) text,
      parseTwoNames c.parsed = .ok twoNames ∧ width text < UInt32.size ∧
      twoNames.Nested GrammarNode.Within GrammarNode.Before ∧
      (∀ n ∈ twoNames.preorder, n.stop < UInt64.size / 2) ∧
      text ≠ List.replicate (UInt32.size - 1) '\n' ∧
      let ast := ((Conversion.of .python .pattern c.parsed text c.map).run twoNames).ast
      ast.nodes.map (fun n => (n.span.startByte, n.span.endByte)) =
        [(1, 7), (1, 3), (1, 3), (5, 7), (5, 7)] ∧
      (∀ t ∈ ast.trees, t.Nested (fun e outer => e.node.span.Within outer.node.span)
        (fun e next => e.node.span.Before next.node.span)) ∧
      ∀ t ∈ ast.trees, t.Nested (fun e outer => e.node.span.WithinLines outer.node.span)
        (fun e next => e.node.span.BeforeLines next.node.span) := by
  intro text
  have hc : (⟨"__mv_X\n__mv_Y".toList, ⟨0, [[⟨0, 0, 0, 1⟩, ⟨3, 3, 4, 5⟩],
      [⟨0, 6, 0, 2⟩, ⟨7, 13, 3, 5⟩]], 7⟩⟩ : Candidate) ∈
      Pattern.candidates (.ofFamily .python parseTwoNames) text := by decide
  have hsize : width text < UInt32.size := by decide
  have htree : twoNames.Nested GrammarNode.Within GrammarNode.Before := by decide
  have haddress : ∀ n ∈ twoNames.preorder, n.stop < UInt64.size / 2 := by decide
  have hfeeds : text ≠ List.replicate (UInt32.size - 1) '\n' := by
    intro h
    have hlength := congrArg List.length h
    rw [List.length_replicate] at hlength
    exact absurd hlength (by decide)
  obtain ⟨hbytes, hlines⟩ := spans_nested (.candidate hc) hsize htree haddress
  exact ⟨_, hc, rfl, hsize, htree, haddress, hfeeds, by decide, hbytes, hlines hfeeds⟩

/-- The nodes of a file stay where they are. -/
theorem span_identity {family : Family} {mode : Mode} {parsed text : List Char} {n : GrammarNode}
    (hle : n.start ≤ n.stop) (hstop : n.stop ≤ width text) :
    (Conversion.of family mode parsed text (.identity (width text))).span n =
      (LineTable.ofText text).span n.start n.stop := by
  have hlocate : ∀ x ≤ width text, (OffsetMap.identity (width text)).locate x = x :=
    fun x hx => Nat.min_eq_left hx
  simp only [span, Conversion.of, hlocate n.stop hstop, hlocate n.start (hle.trans hstop),
    Nat.max_eq_left hle]

/-- In a file of line feeds every node begins and ends at the beginning of a line. -/
theorem span_lineFeeds {family : Family} {mode : Mode} {parsed : List Char} {k : Nat}
    {n : GrammarNode} (hle : n.start ≤ n.stop) (hstop : n.stop ≤ k) :
    let feeds := List.replicate k '\n'
    (Conversion.of family mode parsed feeds (.identity (width feeds))).span n =
      ⟨n.start, n.stop, (1 + n.start).toUInt32, 0, (1 + n.stop).toUInt32, 0⟩ := by
  intro feeds
  have hwidth : width feeds = k := width_lineFeeds k
  rw [span_identity hle (hwidth.symm ▸ hstop), LineTable.span,
    position_lineFeeds (hle.trans hstop), position_lineFeeds hstop]

def firstStatement : GrammarNode := ⟨"expression_statement", true, false, false, 0, 1, none⟩

/-- A file whose first line is a statement. -/
def lineFeedTree : Rose GrammarNode :=
  .node ⟨"module", true, false, false, 0, UInt32.size - 1, none⟩ [.node firstStatement []]

theorem trees_lineFeedTree (text : List Char) (map : OffsetMap) :
    let c := Conversion.of .python .target text text map
    ∃ root below : Entry, (c.run lineFeedTree).ast.trees = [.node root [.node below []]] ∧
      root.node.span = c.span lineFeedTree.label ∧ below.node.span = c.span firstStatement :=
  ⟨_, _, rfl, rfl, rfl⟩

/-- In a file of `2 ^ 32 - 1` line feeds the tree ends on a line with the number 0, before the
line on which its first statement ends. -/
theorem lines_not_nested :
    let text := List.replicate (UInt32.size - 1) '\n'
    MapOf text (.identity (width text)) ∧ width text < UInt32.size ∧
    lineFeedTree.Nested GrammarNode.Within GrammarNode.Before ∧
    (∀ n ∈ lineFeedTree.preorder, n.stop < UInt64.size / 2) ∧
    ¬ ∀ t ∈ ((Conversion.of .python .target text text (.identity (width text))).run
        lineFeedTree).ast.trees, t.Nested (fun e outer => e.node.span.WithinLines outer.node.span)
      (fun e next => e.node.span.BeforeLines next.node.span) := by
  intro text
  have hwidth : width text = UInt32.size - 1 := width_lineFeeds _
  refine ⟨.file, by rw [hwidth]; decide, by decide, by decide, fun hnested => ?_⟩
  obtain ⟨root, below, htrees, hroot, hbelow⟩ := trees_lineFeedTree text (.identity (width text))
  rw [htrees] at hnested
  have hinside := (hnested _ List.mem_cons_self _ List.mem_cons_self).1 _ List.mem_cons_self
  have hwhole : root.node.span = ⟨0, UInt32.size - 1, 1, 0, 0, 0⟩ :=
    hroot.trans (span_lineFeeds (Nat.zero_le _) (Nat.le_refl _))
  have hfirst : below.node.span = ⟨0, 1, 1, 0, 2, 0⟩ :=
    hbelow.trans (span_lineFeeds (Nat.zero_le _) (by decide))
  have hafter := hinside.2
  simp only [Rose.label, Span.last, hwhole, hfirst] at hafter
  exact absurd hafter (by rw [NotAfter]; decide)

end Conversion

end CodePattern
