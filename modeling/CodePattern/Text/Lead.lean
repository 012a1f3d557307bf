/-! What a text begins with. -/

namespace CodePattern

variable {α : Type} [BEq α]

def afterLead? (lead text : List α) : Option (List α) :=
  if lead.isPrefixOf text then some (text.drop lead.length) else none

def withoutLead (lead text : List α) : List α := (afterLead? lead text).getD text

variable [LawfulBEq α]

theorem afterLead?_append (lead text : List α) :
    afterLead? lead (lead ++ text) = some text := by
  simp [afterLead?]

theorem append_of_afterLead? {lead text rest : List α} (h : afterLead? lead text = some rest) :
    text = lead ++ rest := by
  rw [afterLead?] at h
  split at h
  · next hlead =>
    obtain ⟨t, rfl⟩ := List.isPrefixOf_iff_prefix.mp hlead
    simpa using h
  · cases h

end CodePattern
