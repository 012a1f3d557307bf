import CodePattern.Proofs.Forest
import CodePattern.Proofs.NestedForm
import CodePattern.Proofs.RecordForm

/-! Reading back the form of a single node. A node tells its error flag only when it is set, but
reading always asks for the flag, so the nodes without an error are not read back. -/

namespace CodePattern

namespace Json

/-- A record is read from some of its fields in their order. -/
theorem readRecord_obj (name : String) {fields : List Field} {ms : List (String × Json)}
    (hfields : (fields.map (·.name)).Nodup) (hnames : (ms.map (·.1)).Sublist (fields.map (·.name)))
    (hpass : ∀ m ∈ ms, Passes fields m) : readRecord name fields (.obj ms) = .ok ms := by
  have hknown : ((ms.filter (isKnown fields)).map (·.1)).Nodup :=
    (hfields.sublist hnames).sublist (List.filter_sublist.map _)
  rw [readRecord, checkMembers_ok hpass hknown (by simp)]
  rfl

theorem names_whenSome (name : String) (v : Option Json) :
    ((whenSome name v).map (·.1)).Sublist [name] := by
  cases v with
  | none => exact List.nil_sublist _
  | some v => exact .refl _

theorem passes_whenSome {α β : Type} {fields : List Field} {name : String} {read : Reads β}
    {form : α → Json} {f : α → β} (o : Option α)
    (hfield : fields.find? (·.name == name) = some (.of name read))
    (h : ∀ a, read (form a) = .ok (f a)) :
    ∀ m ∈ whenSome name (o.map form), Passes fields m := by
  cases o with
  | none => exact List.forall_mem_nil _
  | some a => exact List.forall_mem_singleton.mpr (passes_of hfield (h a))

section Members

variable {α : Type} {ms : List (String × Json)} {name : String} {read : Reads α}

theorem required_of {v : Json} {a : α} (hm : member? name ms = some v) (h : read v = .ok a) :
    required ms name read = .ok a := by
  rw [required, hm]
  exact h

theorem optional_of {form : α → Json} {o : Option α} (hm : member? name ms = o.map form)
    (h : ∀ a, readOptional read (form a) = .ok (some a)) : optional ms name read = .ok o := by
  rw [optional, hm]
  cases o with
  | none => rfl
  | some a => exact h a

end Members

end Json

open Json

namespace AstNode

/-- The members of a node that come before its error flag. -/
def told (n : AstNode) : List (String × Json) :=
  [("kind", .str n.kind), ("named", .bool n.named)] ++ whenSome "field" (n.field.map .str) ++
    [("span", n.span.toJson)] ++ whenSome "text" (n.text.map .str) ++
    whenSome "meta" (n.pattern.map Meta.toJson)

theorem toJson_eq (n : AstNode) : n.toJson = .obj (n.told ++ whenTrue "error" n.error) := rfl

theorem names_told (n : AstNode) :
    (n.told.map (·.1)).Sublist ["kind", "named", "field", "span", "text", "meta"] := by
  simp only [told, List.map_append]
  exact ((((List.Sublist.refl ["kind", "named"]).append (names_whenSome "field" _)).append
    (.refl ["span"])).append (names_whenSome "text" _)).append (names_whenSome "meta" _)

theorem readOptional_str (s : String) : readOptional readText (.str s) = .ok (some s) := rfl

theorem readOptional_meta (m : Meta) : readOptional Meta.read m.toJson = .ok (some m) := by
  cases m <;> rfl

theorem passes_told (n : AstNode) : ∀ m ∈ n.told, Passes fields m := by
  simp only [told, List.forall_mem_append, List.forall_mem_cons, List.not_mem_nil, false_imp_iff,
    implies_true, and_true]
  exact ⟨⟨⟨⟨⟨passes_of (a := n.kind) rfl rfl, passes_of (a := n.named) rfl rfl⟩,
    passes_whenSome _ rfl readOptional_str⟩, passes_of rfl n.span.read_toJson⟩,
    passes_whenSome _ rfl readOptional_str⟩, passes_whenSome _ rfl readOptional_meta⟩

theorem nesting_toJson_le (n : AstNode) : n.toJson.nesting ≤ nestingLimit := by
  have hmeta := Meta.nesting_optional_le n.pattern
  simp only [toJson_eq, told, nesting, nestingMembers_append, nestingMembers_whenTrue,
    nestingMembers_whenSome, nestingMembers, n.span.nesting_toJson, nesting_optional_str,
    nestingLimit]
  omega

/-- Whatever a node tells before its error flag is read back, and then the flag is asked for. -/
theorem read_told (n : AstNode) (e : Option Bool) :
    AstNode.read (.obj (n.told ++ whenSome "error" (e.map .bool))) =
      e.elim (.error (.missingField "error")) (fun b => .ok { n with error := b }) := by
  have hnames : ((n.told ++ whenSome "error" (e.map .bool)).map (·.1)).Sublist
      (fields.map (·.name)) := by
    rw [List.map_append]
    exact n.names_told.append (names_whenSome "error" _)
  have hpass : ∀ m ∈ n.told ++ whenSome "error" (e.map .bool), Passes fields m := by
    rw [List.forall_mem_append]
    exact ⟨n.passes_told, passes_whenSome (f := id) e rfl fun b => rfl⟩
  rw [AstNode.read, readRecord_obj "AstNode" (by decide) hnames hpass]
  set ms := n.told ++ whenSome "error" (e.map .bool) with hms
  have hkind : required ms "kind" readText = .ok n.kind := required_of (v := .str n.kind) rfl rfl
  have hnamed : required ms "named" readBool = .ok n.named :=
    required_of (v := .bool n.named) rfl rfl
  have hmember : member? "field" ms = n.field.map .str ∧ member? "span" ms = some n.span.toJson ∧
      member? "text" ms = n.text.map .str ∧ member? "meta" ms = n.pattern.map Meta.toJson ∧
      member? "error" ms = e.map .bool := by
    simp [hms, told, member?_append, member?_whenSome, member?]
  obtain ⟨hfield, hspan, htext, hmeta, herror⟩ := hmember
  have hfield : optional ms "field" readText = .ok n.field := optional_of hfield readOptional_str
  have hspan : required ms "span" Span.read = .ok n.span := required_of hspan n.span.read_toJson
  have htext : optional ms "text" readText = .ok n.text := optional_of htext readOptional_str
  have hmeta : optional ms "meta" Meta.read = .ok n.pattern := optional_of hmeta readOptional_meta
  simp only [bind, Except.bind, hkind, hnamed, hfield, hspan, htext, hmeta]
  rw [required, herror]
  cases e <;> rfl

/-- What a node writes of itself is read back if the node is an error. Otherwise the reader
misses the flag, and the flag is all that is missing. -/
theorem read_text_toJson (n : AstNode) :
    (Json.read? n.toJson.text).map AstNode.read =
      some (if n.error then .ok n else .error (.missingField "error")) ∧
    AstNode.read (.obj (n.told ++ [("error", .bool n.error)])) = .ok n := by
  have hflag : whenTrue "error" n.error =
      whenSome "error" ((if n.error then some true else none).map .bool) := by
    cases n.error <;> rfl
  refine ⟨?_, n.read_told (some n.error)⟩
  rw [read?_text n.nesting_toJson_le, Option.map_some, toJson_eq, hflag, read_told]
  obtain ⟨kind, named, field, span, text, pattern, error⟩ := n
  cases error <;> rfl

theorem ofKind_not_read : AstNode.read (AstNode.ofKind "k").toJson ≠ .ok (.ofKind "k") := by
  intro h
  cases h

end AstNode

end CodePattern
