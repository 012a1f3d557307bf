import CodePattern.Proofs.Correspondence
import CodePattern.Proofs.Hygiene

/-! Variables of PHP. Outside strings a variable is a metavariable if its text has the form of
one. A variable interpolated into a string is never one, whatever stands between the two, and no
name of a pattern's metavariables comes from there. -/

namespace CodePattern

/-- A dollar sign and a name in capitals, which is not that of a superglobal. -/
def PlainVariable (text : List Char) : Prop :=
  ∃ first rest, text = '$' :: first :: rest ∧ (first.isUpper = true ∨ first = '_') ∧
    (∀ c ∈ rest, c.isUpper = true ∨ c.isDigit = true ∨ c = '_') ∧
    String.ofList (first :: rest) ∉ superglobals

/-- What the text of a variable outside strings stands for. -/
inductive ReadsAs : List Char → Option Meta → Prop
  | marked (name : List Char) :
    ReadsAs ("$__mvs_".toList ++ name) (some (.ellipsisMetavariable ("$..." ++ String.ofList name)))
  | plain {text : List Char} (h : PlainVariable text) :
    ReadsAs text (some (.metavariable (String.ofList text)))
  | other {text : List Char} (hmark : ¬ "$__mvs_".toList <+: text) (hplain : ¬ PlainVariable text) :
    ReadsAs text none

theorem isMetavariableName_iff {name : List Char} : isMetavariableName name = true ↔
    ∃ first rest, name = first :: rest ∧ (first.isUpper = true ∨ first = '_') ∧
      ∀ c ∈ rest, c.isUpper = true ∨ c.isDigit = true ∨ c = '_' := by
  cases name with
  | nil => simp [isMetavariableName]
  | cons first rest => simp [isMetavariableName, isNameStart, isNameRest, or_assoc]

theorem plainVariable_iff {text : List Char} :
    PlainVariable text ↔ isPhpMetavariable text = true := by
  rw [Placeholder.isPhpMetavariable_iff]
  constructor
  · rintro ⟨first, rest, rfl, hfirst, hrest, hglobal⟩
    exact ⟨_, rfl, isMetavariableName_iff.mpr ⟨first, rest, rfl, hfirst, hrest⟩, hglobal⟩
  · rintro ⟨name, rfl, hname, hglobal⟩
    obtain ⟨first, rest, rfl, hfirst, hrest⟩ := isMetavariableName_iff.mp hname
    exact ⟨first, rest, rfl, hfirst, hrest, hglobal⟩

theorem PlainVariable.not_marked {text : List Char} (h : PlainVariable text) :
    ¬ "$__mvs_".toList <+: text := by
  obtain ⟨first, rest, rfl, -, hrest, -⟩ := h
  rintro ⟨name, hname⟩
  have htail : "_mvs_".toList ++ name = rest := (List.cons.inj (List.cons.inj hname).2).2
  -- The mark has small letters in it, which a metavariable's own name has not.
  have hm : 'm' ∈ rest := htail ▸ List.mem_append_left name (by decide)
  exact absurd (hrest 'm' hm) (by decide)

theorem afterLead?_eq_none {lead text : List Char} (h : ¬ lead <+: text) :
    afterLead? lead text = none := by
  rw [afterLead?, if_neg]
  rwa [List.isPrefixOf_iff_prefix]

theorem readsAs_iff {text : List Char} {m : Option Meta} :
    ReadsAs text m ↔ phpVariable? text = m := by
  have hmark : '$' :: Placeholder.ellipsisMetavariableMark = "$__mvs_".toList := rfl
  rw [phpVariable?, hmark]
  constructor
  · intro h
    cases h with
    | marked name => rw [afterLead?_append]
    | plain h =>
      rw [afterLead?_eq_none h.not_marked]
      exact if_pos (plainVariable_iff.mp h)
    | other hmark hplain =>
      rw [afterLead?_eq_none hmark]
      exact if_neg (fun h => hplain (plainVariable_iff.mpr h))
  · rintro rfl
    by_cases hmarked : "$__mvs_".toList <+: text
    · obtain ⟨name, rfl⟩ := hmarked
      rw [afterLead?_append]
      exact .marked name
    · rw [afterLead?_eq_none hmarked]
      by_cases hplain : PlainVariable text
      · show ReadsAs text (if _ then _ else _)
        rw [if_pos (plainVariable_iff.mp hplain)]
        exact .plain hplain
      · show ReadsAs text (if _ then _ else _)
        rw [if_neg (fun h => hplain (plainVariable_iff.mpr h))]
        exact .other hmarked hplain

/-- What a node stands for, by its kind and text and by the kinds of the nodes above it. -/
inductive Recognised (above : List GrammarNode) (n : GrammarNode) (text : List Char) :
    Option Meta → Prop
  | interpolated {s : GrammarNode} (hkind : n.kind = "variable_name") (hs : s ∈ above)
      (hstring : s.kind ∈ Php.stringKinds) : Recognised above n text none
  | outside {m : Option Meta} (hkind : n.kind = "variable_name")
      (hout : ∀ s ∈ above, s.kind ∉ Php.stringKinds) (hreads : ReadsAs text m) :
    Recognised above n text m
  | ellipsis (hkind : n.kind = "name") (htext : text = "__ELLIPSIS__".toList) :
    Recognised above n text (some .ellipsis)
  | other (hkind : n.kind ≠ "variable_name")
      (hname : ¬ (n.kind = "name" ∧ text = "__ELLIPSIS__".toList)) : Recognised above n text none

theorem Recognised.named {above : List GrammarNode} {n : GrammarNode} {text : List Char} {m : Meta}
    {name : String} (h : Recognised above n text (some m)) (hname : m.name? = some name) :
    n.kind = "variable_name" ∧ (∀ s ∈ above, s.kind ∉ Php.stringKinds) ∧ ReadsAs text (some m) := by
  cases h with
  | outside hkind hout hreads => exact ⟨hkind, hout, hreads⟩
  | ellipsis => cases hname

namespace Conversion

theorem insideString_iff {above : List GrammarNode} :
    insideString above = true ↔ ∃ s ∈ above, s.kind ∈ Php.stringKinds := by
  simp [insideString]

theorem recognised_iff {c : Conversion} (hmode : c.mode = .pattern) (hf : c.family = .php)
    {above : List GrammarNode} {n : GrammarNode} {m : Option Meta} :
    Recognised above n (c.parsedText n) m ↔ c.pattern? (insideString above) n = m := by
  simp only [pattern?, hmode, hf]
  constructor
  · intro h
    cases h with
    | interpolated hkind hs hstring =>
      rw [if_pos hkind, if_pos (insideString_iff.mpr ⟨_, hs, hstring⟩)]
    | outside hkind hout hreads =>
      have hstring : ¬ insideString above = true := by
        intro h
        obtain ⟨s, hs, hs'⟩ := insideString_iff.mp h
        exact hout s hs hs'
      rw [if_pos hkind, if_neg hstring, readsAs_iff.mp hreads]
    | ellipsis hkind htext =>
      have hvariable : n.kind ≠ "variable_name" := by simp [hkind]
      rw [if_neg hvariable, if_pos ⟨hkind, htext⟩]
    | other hkind hname =>
      rw [if_neg hkind]
      exact if_neg hname
  · rintro rfl
    by_cases hkind : n.kind = "variable_name"
    · rw [if_pos hkind]
      by_cases hstring : insideString above = true
      · rw [if_pos hstring]
        obtain ⟨s, hs, hs'⟩ := insideString_iff.mp hstring
        exact .interpolated hkind hs hs'
      · rw [if_neg hstring]
        refine .outside hkind (fun s hs hs' => ?_) (readsAs_iff.mpr rfl)
        exact hstring (insideString_iff.mpr ⟨s, hs, hs'⟩)
    · rw [if_neg hkind]
      by_cases hname : n.kind = "name" ∧ c.parsedText n = Placeholder.phpEllipsis
      · rw [if_pos hname]
        exact .ellipsis hname.1 hname.2
      · rw [if_neg hname]
        exact .other hkind hname

/-- The node of the converted tree with this number is what a node of the grammar's tree, at the
end of the way with this place among the ways, becomes. -/
structure ComesFrom (c : Conversion) (tree : Rose GrammarNode) (id : Nat) (a : AstNode)
    (above : List GrammarNode) (n : GrammarNode) : Prop where
  route : ∃ i way below, id = i + 1 ∧ (c.ways tree)[i]? = some way ∧
    Rose.descend way [] tree = some (above, .node n below)
  node : ∃ pattern leaf, a = c.astNode ⟨n, pattern, leaf⟩

theorem get?_of_way {c : Conversion} {tree : Rose GrammarNode} {i : Nat} {way : List Nat}
    (h : (c.ways tree)[i]? = some way) : ∃ above n below kept,
      Rose.descend way [] tree = some (above, .node n below) ∧
      c.image (above, .node n below) = some kept ∧
      (c.run tree).ast.get? (i + 1) = some (c.astNode kept.label) := by
  obtain ⟨⟨above, n, below⟩, kept, s, hdescend, hkept, hs, himage⟩ := exists_kept_of_way h
  refine ⟨above, n, below, s, hdescend, himage, ?_⟩
  rw [ast_run, hkept, Option.map_some, Ast.ofTree?, Ast.get?_ofTree, Rose.subtrees_map,
    List.getElem?_map, hs, Option.map_some, Option.map_some, Rose.map_label]

theorem exists_way_of_get? {c : Conversion} {tree : Rose GrammarNode} {id : Nat} {a : AstNode}
    (h : (c.run tree).ast.get? id = some a) :
    ∃ i way, id = i + 1 ∧ (c.ways tree)[i]? = some way := by
  obtain ⟨t, ht, -⟩ := Option.map_eq_some_iff.mp h
  have hid : t.label.id = id := by simpa using List.find?_some ht
  have hmem := List.mem_map_of_mem (f := (·.label.id)) (List.mem_of_find?_eq_some ht)
  rw [(ids_run c tree).2, hid, List.mem_range'_1] at hmem
  have hlt : id - 1 < (c.ways tree).length := by omega
  exact ⟨id - 1, _, by omega, List.getElem?_eq_getElem hlt⟩

theorem exists_source {c : Conversion} {tree : Rose GrammarNode} {id : Nat} {a : AstNode}
    (h : (c.run tree).ast.get? id = some a) : ∃ above n, c.ComesFrom tree id a above n ∧
      a.pattern = c.pattern? (insideString above) n := by
  obtain ⟨i, way, rfl, hway⟩ := exists_way_of_get? h
  obtain ⟨above, n, below, kept, hdescend, himage, hget⟩ := get?_of_way hway
  obtain rfl := Option.some.inj (hget.symm.trans h)
  obtain ⟨hnode, hpattern⟩ := label_of_keep himage
  change kept.label.node = n at hnode
  subst hnode
  exact ⟨above, _, ⟨⟨i, way, below, rfl, hway, hdescend⟩, _, _, rfl⟩, hpattern⟩

theorem exists_id_of_mem_nodes {c : Conversion} {tree : Rose GrammarNode} {a : AstNode}
    (h : a ∈ (c.run tree).ast.nodes) : ∃ id, (c.run tree).ast.get? id = some a := by
  rw [ast_run] at h ⊢
  cases hkept : c.keep false tree with
  | none => simp [hkept, Ast.ofTree?, Ast.nodes, Ast.tree?, Ast.empty] at h
  | some kept =>
    rw [hkept, Option.map_some, Ast.ofTree?, Ast.nodes_ofTree, ← Rose.label_subtrees] at h
    obtain ⟨i, hi⟩ := List.getElem?_of_mem h
    rw [List.getElem?_map] at hi
    exact ⟨i + 1, by rw [Option.map_some, Ast.ofTree?, Ast.get?_ofTree, hi]⟩

end Conversion

namespace Pattern

/-- Exactly the variables outside strings are recognised as metavariables, and the names of a
pattern's metavariables are theirs. -/
theorem variables_outside_strings :
    (∀ parsed text map tree, let c := Conversion.of .php .pattern parsed text map
      ∀ id a, (c.run tree).ast.get? id = some a → ∃ above n, c.ComesFrom tree id a above n ∧
        ∀ m, Recognised above n (c.parsedText n) m ↔ a.pattern = m) ∧
    ∀ g lang strict text p, g.family = .php → parse g lang strict text = .ok p →
      ∃ candidate ∈ candidates g text.toList, ∃ tree, g.parse candidate.parsed = .ok tree ∧
        let c := Conversion.of .php .pattern candidate.parsed text.toList candidate.map
        (∀ name, name ∈ p.metavariables ↔
          ∃ a ∈ p.ast.nodes, a.pattern.bind Meta.name? = some name) ∧
        ∀ a ∈ p.ast.nodes, ∀ m name, a.pattern = some m → m.name? = some name →
          ∃ id above n, (c.run tree).ast.get? id = some a ∧ c.ComesFrom tree id a above n ∧
            n.kind = "variable_name" ∧ (∀ s ∈ above, s.kind ∉ Php.stringKinds) ∧
            ReadsAs (c.parsedText n) (some m) := by
  have hsource : ∀ parsed text map tree, let c := Conversion.of .php .pattern parsed text map
      ∀ id a, (c.run tree).ast.get? id = some a → ∃ above n, c.ComesFrom tree id a above n ∧
        ∀ m, Recognised above n (c.parsedText n) m ↔ a.pattern = m := by
    intro parsed text map tree c id a ha
    obtain ⟨above, n, hfrom, hpattern⟩ := Conversion.exists_source ha
    refine ⟨above, n, hfrom, fun m => ?_⟩
    rw [hpattern]
    exact Conversion.recognised_iff rfl rfl
  refine ⟨hsource, fun g lang strict text p hg hp => ?_⟩
  obtain ⟨-, r, hr, hfinish⟩ := exists_outcome_of_parse hp
  obtain ⟨hnodes, -⟩ := finish_subset hr hfinish
  obtain ⟨-, hmetavariables, -⟩ := finish_eq_ok hfinish
  obtain ⟨candidate, hcandidate, hattempt⟩ := List.mem_map.mp hr
  obtain ⟨tree, htree, rfl⟩ := attempt_eq_ok hattempt
  rw [hg] at hnodes
  refine ⟨candidate, hcandidate, tree, htree, fun name => ?_, fun a ha m name hm hname => ?_⟩
  · rw [hmetavariables, mem_metavariablesOf]
  · obtain ⟨id, hid⟩ := Conversion.exists_id_of_mem_nodes (hnodes ha)
    obtain ⟨above, n, hfrom, hrecognised⟩ := hsource _ _ _ _ id a hid
    exact ⟨id, above, n, hid, hfrom, ((hrecognised (some m)).mpr hm).named hname⟩

example :
    let source := "<?php\n\"\x7b$X->f($Y)\x7d\" . $Z;".toList
    let node := fun kind start stop below =>
      Rose.node (GrammarNode.mk kind true false false start stop none) below
    let tree := node "program" 0 25 [node "php_tag" 0 5 [], node "binary_expression" 6 24
      [node "encapsed_string" 6 19 [node "member_call_expression" 8 17
        [node "variable_name" 8 10 [], node "name" 12 13 [], node "arguments" 13 17
          [node "argument" 14 16 [node "variable_name" 14 16 []]]]],
        node "variable_name" 22 24 []]]
    ((Conversion.of .php .pattern source source (.identity 25)).run tree).ast.nodes.filterMap
      (·.pattern) = [.metavariable "$Z"] := by
  decide +kernel

end Pattern

end CodePattern
