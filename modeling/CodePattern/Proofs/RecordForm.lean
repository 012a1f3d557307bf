import CodePattern.Decoding
import CodePattern.Proofs.JsonText
import Mathlib.Data.List.Nodup

/-! Records as objects. A record is read if each of its fields is told once and each value can be
read, in whatever order, and members with other names do not matter. So the data that are written
as one object each are read back from it, and also if its members are told in another order and
among others. -/

namespace CodePattern

namespace Json

/-- The value can be read as the field of this name, if there is one. -/
def Passes (fields : List Field) (m : String × Json) : Prop :=
  ∀ f ∈ fields.find? (·.name == m.1), f.check m.2 = .ok ()

def isKnown (fields : List Field) (m : String × Json) : Bool :=
  (fields.find? (·.name == m.1)).isSome

theorem passes_of {α : Type} {fields : List Field} {name : String} {read : Reads α} {v : Json}
    {a : α} (hfield : fields.find? (·.name == name) = some (.of name read)) (h : read v = .ok a) :
    Passes fields (name, v) := by
  intro f hf
  obtain rfl := Option.some.inj (hfield.symm.trans hf)
  simp only [Field.of, h]
  rfl

/-- No fault is found, whatever the order of the members, if no field is told twice. -/
theorem checkMembers_ok {fields : List Field} {ms : List (String × Json)} :
    ∀ {seen}, (∀ m ∈ ms, Passes fields m) → ((ms.filter (isKnown fields)).map (·.1)).Nodup →
      (∀ m ∈ ms.filter (isKnown fields), m.1 ∉ seen) → checkMembers fields seen ms = .ok () := by
  induction ms with
  | nil => exact fun _ _ _ => rfl
  | cons m ms ih =>
    intro seen hpass hnodup hseen
    rw [List.forall_mem_cons] at hpass
    rw [checkMembers]
    split
    · next hf =>
      have hunknown : ¬isKnown fields m = true := by simp [isKnown, hf]
      rw [List.filter_cons_of_neg hunknown] at hnodup hseen
      exact ih hpass.2 hnodup hseen
    · -- The name has been seen from here on, but it does not come again.
      next f hf =>
      have hknown : isKnown fields m = true := by simp [isKnown, hf]
      rw [List.filter_cons_of_pos hknown] at hnodup hseen
      rw [List.forall_mem_cons] at hseen
      rw [List.map_cons, List.nodup_cons] at hnodup
      have hcheck := hpass.1 f hf
      simp only [List.contains_eq_mem, hseen.1, decide_false, Bool.false_eq_true, if_false, hcheck]
      refine ih hpass.2 hnodup.2 fun n hn => ?_
      rw [List.mem_cons, not_or]
      exact ⟨fun h => hnodup.1 (h ▸ List.mem_map_of_mem hn), hseen.2 n hn⟩

/-- The members of an object in any order, and others with other names. -/
inductive Presents : Json → List (String × Json) → Prop
  | intro {told others ms : List (String × Json)} (hperm : ms.Perm (told ++ others))
    (hothers : ∀ m ∈ others, m.1 ∉ told.map (·.1)) : Presents (.obj told) ms

section Members

variable {α : Type} {fields : List Field} {told ms : List (String × Json)} {name : String}
  {read : Reads α} {v : Json} {a : α}

theorem presents_self (told : List (String × Json)) : Presents (.obj told) told := by
  have hperm : told.Perm (told ++ []) := by simp
  exact .intro hperm (List.forall_mem_nil _)

theorem member?_eq_some (hmem : (name, v) ∈ ms) (honly : ∀ w, (name, w) ∈ ms → w = v) :
    member? name ms = some v := by
  induction ms with
  | nil => cases hmem
  | cons m ms ih =>
    obtain ⟨key, w⟩ := m
    by_cases hkey : key = name
    · subst hkey
      simp [member?, honly w List.mem_cons_self]
    · have hms : (name, v) ∈ ms := by simpa [Ne.symm hkey] using hmem
      simp only [member?, hkey, if_false]
      exact ih hms fun w hw => honly w (List.mem_cons_of_mem _ hw)

/-- A name that is told once tells the same in any order. -/
theorem member?_of_presents (h : Presents (.obj told) ms) (hnodup : (told.map (·.1)).Nodup)
    (hname : name ∈ told.map (·.1)) : member? name ms = member? name told := by
  obtain @⟨_, others, _, hperm, hothers⟩ := h
  obtain ⟨⟨name, v⟩, hm, rfl⟩ := List.mem_map.mp hname
  have honly : ∀ w, (name, w) ∈ told → w = v := fun w hw =>
    congrArg Prod.snd (List.inj_on_of_nodup_map hnodup hw hm rfl)
  rw [member?_eq_some hm honly]
  refine member?_eq_some (hperm.mem_iff.mpr (List.mem_append_left _ hm)) fun w hw => ?_
  rcases List.mem_append.mp (hperm.mem_iff.mp hw) with hw | hw
  · exact honly w hw
  · exact absurd hname (hothers (name, w) hw)

theorem required_of_presents (h : Presents (.obj told) ms) (hnodup : (told.map (·.1)).Nodup)
    (hname : name ∈ told.map (·.1)) : required ms name read = required told name read := by
  rw [required, required, member?_of_presents h hnodup hname]

theorem checkMembers_of_presents (h : Presents (.obj told) ms)
    (hnames : told.map (·.1) = fields.map (·.name)) (hnodup : (told.map (·.1)).Nodup)
    (hpass : told.Forall (Passes fields)) : checkMembers fields [] ms = .ok () := by
  obtain @⟨_, others, _, hperm, hothers⟩ := h
  have hunknown : ∀ m ∈ others, fields.find? (·.name == m.1) = none := by
    intro m hm
    refine List.find?_eq_none.mpr fun f hf hname => hothers m hm ?_
    rw [hnames, ← eq_of_beq hname]
    exact List.mem_map_of_mem hf
  refine checkMembers_ok (fun m hm => ?_) ?_ (by simp)
  · rcases List.mem_append.mp (hperm.mem_iff.mp hm) with hm | hm
    · exact List.forall_iff_forall_mem.mp hpass m hm
    · simp [Passes, hunknown m hm]
  · have hnone : others.filter (isKnown fields) = [] := by
      refine List.filter_eq_nil_iff.mpr fun m hm => ?_
      simp [isKnown, hunknown m hm]
    have hknown := (hperm.filter (isKnown fields)).map (·.1)
    rw [List.filter_append, hnone, List.append_nil] at hknown
    exact hknown.nodup_iff.mpr (hnodup.sublist (List.filter_sublist.map _))

theorem readRecord_of_presents (record : String) (h : Presents (.obj told) ms)
    (hnames : told.map (·.1) = fields.map (·.name)) (hnodup : (told.map (·.1)).Nodup)
    (hpass : told.Forall (Passes fields)) : readRecord record fields (.obj ms) = .ok ms := by
  rw [readRecord, checkMembers_of_presents h hnames hnodup hpass]
  rfl

end Members

theorem readOffset_nat (n : Nat) : readOffset (nat n) = .ok n := rfl

theorem readLong_nat (n : Nat) : readLong (nat n) = .ok n := rfl

theorem readWord_nat (w : UInt32) : readWord (nat w.toNat) = .ok w := by
  have hread : readNumber "u32" (some UInt32.size) (nat w.toNat) = .ok w.toNat := by
    have hlt := w.toNat_lt_size
    simp [nat, readNumber, hlt]
  rw [readWord, hread]
  exact congrArg Except.ok (UInt32.ofNat_toNat)

end Json

open Json

variable {ms : List (String × Json)}

theorem Span.read_of_presents {s : Span} (h : Presents s.toJson ms) :
    Span.read (.obj ms) = .ok s := by
  rw [toJson] at h
  rw [Span.read, readRecord_of_presents "Span" h rfl (by simp)]
  · simp (disch := simp) only [bind, Except.bind, required_of_presents h]
    simp [required, member?, readOffset_nat, readWord_nat, pure, Except.pure]
  · exact ⟨passes_of rfl (readOffset_nat _), passes_of rfl (readOffset_nat _),
      passes_of rfl (readWord_nat _), passes_of rfl (readWord_nat _),
      passes_of rfl (readWord_nat _), passes_of rfl (readWord_nat _)⟩

theorem Span.read_toJson (s : Span) : Span.read s.toJson = .ok s :=
  read_of_presents (presents_self _)

theorem SyntaxError.read_of_presents {e : SyntaxError} {v : Json} (hspan : Span.read v = .ok e.span)
    (h : Presents (.obj [("message", .str e.message), ("span", v)]) ms) :
    SyntaxError.read (.obj ms) = .ok e := by
  have hmessage : readText (.str e.message) = .ok e.message := rfl
  rw [SyntaxError.read, readRecord_of_presents "SyntaxError" h rfl (by simp)]
  · simp (disch := simp) only [bind, Except.bind, required_of_presents h]
    simp [required, member?, hmessage, hspan, pure, Except.pure]
  · exact ⟨passes_of rfl hmessage, passes_of rfl hspan⟩

theorem ParseStats.read_of_presents {s : ParseStats} (h : Presents s.toJson ms) :
    ParseStats.read (.obj ms) = .ok s := by
  rw [toJson] at h
  rw [ParseStats.read, readRecord_of_presents "ParseStats" h rfl (by simp)]
  · simp (disch := simp) only [bind, Except.bind, required_of_presents h]
    simp [required, member?, readWord_nat, pure, Except.pure]
  · exact ⟨passes_of rfl (readWord_nat _), passes_of rfl (readWord_nat _)⟩

theorem ParserConfig.read_of_presents {c : ParserConfig} (h : Presents c.toJson ms) :
    ParserConfig.read (.obj ms) = .ok c := by
  rw [toJson] at h
  rw [ParserConfig.read, readRecord_of_presents "ParserConfig" h rfl (by simp)]
  · simp (disch := simp) only [bind, Except.bind, required_of_presents h]
    simp [required, member?, readLong_nat, pure, Except.pure]
  · exact ⟨passes_of rfl (readLong_nat _), passes_of rfl (readLong_nat _)⟩

namespace Meta

theorem find_filter (tag : Option MetaTag) (ms : List (String × Json)) :
    MetaTag.find tag (ms.filter (·.1 = "type")) = MetaTag.find tag ms := by
  induction ms generalizing tag with
  | nil => rfl
  | cons m ms ih =>
    obtain ⟨key, v⟩ := m
    by_cases hkey : key = "type"
    · simp [hkey, MetaTag.find, ih]
    · simp [hkey, MetaTag.find, ih]

/-- The tag is found wherever it stands. -/
theorem find_of_presents {told : List (String × Json)} {v : Json} {tag : MetaTag}
    (h : Presents (.obj told) ms) (htold : told.filter (·.1 = "type") = [("type", v)])
    (hread : MetaTag.read v = .ok tag) : MetaTag.find none ms = .ok (some tag) := by
  obtain @⟨_, others, _, hperm, hothers⟩ := h
  have htype : "type" ∈ told.map (·.1) := by
    have hm : ("type", v) ∈ told.filter (·.1 = "type") := htold ▸ List.mem_singleton_self _
    exact List.mem_map_of_mem (List.mem_filter.mp hm).1
  have hnone : others.filter (·.1 = "type") = [] := by
    refine List.filter_eq_nil_iff.mpr fun m hm hkey => hothers m hm ?_
    rwa [of_decide_eq_true hkey]
  have hfilter := hperm.filter (·.1 = "type")
  rw [List.filter_append, htold, hnone, List.append_nil, List.perm_singleton] at hfilter
  rw [← find_filter, hfilter]
  simp [MetaTag.find, hread]

theorem readName_of_presents {tag name : String}
    (h : Presents (.obj [("type", .str tag), ("name", .str name)]) ms) :
    readName ms = .ok name := by
  have hname : Presents (.obj [("name", .str name)]) (ms.filter (·.1 ≠ "type")) := by
    obtain @⟨_, others, _, hperm, hothers⟩ := h
    have hrest : (ms.filter (·.1 ≠ "type")).Perm
        ([("name", .str name)] ++ others.filter (·.1 ≠ "type")) := by
      simpa using hperm.filter (·.1 ≠ "type")
    refine .intro hrest fun m hm => ?_
    have hm' := hothers m (List.mem_filter.mp hm).1
    simp only [List.map_cons, List.mem_cons, not_or] at hm' ⊢
    exact hm'.2
  have hread : readText (.str name) = .ok name := rfl
  have hcheck : checkMembers [.of "name" readText] [] (ms.filter (·.1 ≠ "type")) = .ok () :=
    checkMembers_of_presents hname rfl (by simp) (passes_of rfl hread)
  simp (disch := simp) only [readName, bind, Except.bind, hcheck, required_of_presents hname]
  rfl

theorem read_of_presents {m : Meta} (h : Presents m.toJson ms) : Meta.read (.obj ms) = .ok m := by
  cases m with
  | metavariable name =>
    have htag : MetaTag.find none ms = .ok (some .metavariable) := find_of_presents h rfl rfl
    simp only [Meta.read, bind, Except.bind, htag, readName_of_presents h]
    rfl
  | ellipsisMetavariable name =>
    have htag : MetaTag.find none ms = .ok (some .ellipsisMetavariable) :=
      find_of_presents h rfl rfl
    simp only [Meta.read, bind, Except.bind, htag, readName_of_presents h]
    rfl
  | ellipsis =>
    have htag : MetaTag.find none ms = .ok (some .ellipsis) := find_of_presents h rfl rfl
    simp only [Meta.read, bind, Except.bind, htag]
    rfl

end Meta

namespace Json

/-- The text of a form is read as a value, by every reader that goes as deep as the form does. -/
def ReadsBack {α : Type} (read : Reads α) (v : Json) (a : α) : Prop :=
  ∀ levels, v.nesting ≤ levels → (readWithin? levels v.text).map read = some (.ok a)

theorem readsBack_iff {α : Type} {read : Reads α} {v : Json} {a : α} :
    ReadsBack read v a ↔ read v = .ok a := by
  have hread : ∀ levels, v.nesting ≤ levels →
      (readWithin? levels v.text).map read = some (read v) := by
    intro levels hlevels
    rw [readWithin?_text, allow_of_le hlevels, Option.map_some]
  constructor
  · intro h
    exact Option.some.inj ((hread _ (Nat.le_refl _)).symm.trans (h _ (Nat.le_refl _)))
  · intro h levels hlevels
    rw [hread levels hlevels, h]

/-- The form of a value is read as the value, also in another order and among unknown members. -/
def ReadsInAnyOrder {α : Type} (read : Reads α) (v : Json) (a : α) : Prop :=
  ReadsBack read v a ∧ ∀ ms, Presents v ms → ReadsBack read (.obj ms) a

theorem readsInAnyOrder_of {α : Type} {read : Reads α} {told : List (String × Json)} {a : α}
    (h : ∀ ms, Presents (.obj told) ms → read (.obj ms) = .ok a) :
    ReadsInAnyOrder read (.obj told) a :=
  ⟨readsBack_iff.mpr (h told (presents_self told)), fun ms hms => readsBack_iff.mpr (h ms hms)⟩

end Json

/-- What is written of the data that have a form of their own is read back, and members may come
in any order and among others, those of a span within an error too. -/
theorem data_read_back :
    (∀ s : Span, ReadsInAnyOrder Span.read s.toJson s) ∧
    (∀ m : Meta, ReadsInAnyOrder Meta.read m.toJson m) ∧
    (∀ e : SyntaxError, ReadsInAnyOrder SyntaxError.read e.toJson e ∧
      ∀ ms ms', Presents e.span.toJson ms →
        Presents (.obj [("message", .str e.message), ("span", .obj ms)]) ms' →
          ReadsBack SyntaxError.read (.obj ms') e) ∧
    (∀ s : ParseStats, ReadsInAnyOrder ParseStats.read s.toJson s) ∧
    (∀ c : ParserConfig, ReadsInAnyOrder ParserConfig.read c.toJson c) ∧
    (∀ l : Language, ReadsBack Language.read l.toJson l) ∧
    (∀ p : Package, ReadsBack Package.read p.toJson p) ∧
    ∀ k : PatternKind, ReadsBack PatternKind.read k.toJson k := by
  simp only [readsBack_iff]
  refine ⟨fun s => readsInAnyOrder_of fun _ => Span.read_of_presents, fun m => ?_,
    fun e => ⟨?_, fun ms ms' hspan => ?_⟩,
    fun s => readsInAnyOrder_of fun _ => ParseStats.read_of_presents,
    fun c => readsInAnyOrder_of fun _ => ParserConfig.read_of_presents,
    fun l => ?_, fun p => ?_, fun k => ?_⟩
  · have hread : ∀ ms, Presents m.toJson ms → Meta.read (.obj ms) = .ok m :=
      fun _ => Meta.read_of_presents
    cases m <;> exact readsInAnyOrder_of hread
  · exact readsInAnyOrder_of fun _ => SyntaxError.read_of_presents e.span.read_toJson
  · exact SyntaxError.read_of_presents (Span.read_of_presents hspan)
  · cases l <;> rfl
  · cases p <;> rfl
  · cases k <;> rfl

end CodePattern
