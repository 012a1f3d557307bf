import CodePattern.Path
import Mathlib.Data.List.Lex
import Mathlib.Order.Nat

/-! The order of paths. It is the order of lists of numbers, component by component, so any two
paths can be compared. -/

namespace CodePattern

namespace Component

/-- The rank of a component and then its octets, as numbers. -/
def key (c : Component) : List ℕ := c.rank :: c.text.map UInt8.toNat

theorem octets_lt_iff {s t : FileName} : s < t ↔ s.map UInt8.toNat < t.map UInt8.toNat := by
  induction s generalizing t with
  | nil => cases t <;> simp
  | cons a s ih =>
    cases t with
    | nil => simp
    | cons b t =>
      rw [List.map_cons, List.map_cons, List.cons_lt_cons_iff, List.cons_lt_cons_iff, ih,
        UInt8.lt_iff_toNat_lt, UInt8.toNat_inj]

theorem key_injective : Function.Injective key := by
  intro a b h
  obtain ⟨hrank, htext⟩ := List.cons.inj h
  have htext : a.text = b.text := List.map_injective_iff.mpr (fun _ _ => UInt8.toNat_inj.mp) htext
  cases a <;> cases b <;> simp_all [rank, text]

theorem before_iff {a b : Component} : a.before b = true ↔ a.key < b.key := by
  simp [before, key, List.cons_lt_cons_iff, octets_lt_iff]

end Component

namespace Path

/-- The components of a path as numbers. -/
def key (p : Path) : List (List ℕ) := p.components.map Component.key

theorem componentsBefore_iff {as bs : List Component} :
    componentsBefore as bs = true ↔ as.map Component.key < bs.map Component.key := by
  induction as generalizing bs with
  | nil => cases bs <;> simp [componentsBefore]
  | cons a as ih =>
    cases bs with
    | nil => simp [componentsBefore]
    | cons b bs =>
      simp [componentsBefore, Component.before_iff, ih, List.cons_lt_cons_iff,
        Component.key_injective.eq_iff]

theorem le_iff {p q : Path} : p.le q = true ↔ p.key ≤ q.key := by
  have hbefore : componentsBefore q.components p.components = true ↔ q.key < p.key :=
    componentsBefore_iff
  rw [le, Bool.not_eq_true', Bool.eq_false_iff, Ne, hbefore, not_lt]

theorem le_trans (p q r : Path) (hpq : p.le q = true) (hqr : q.le r = true) : p.le r = true :=
  le_iff.mpr ((le_iff.mp hpq).trans (le_iff.mp hqr))

theorem le_total (p q : Path) : (p.le q || q.le p) = true := by
  rw [Bool.or_eq_true, le_iff, le_iff]
  exact LinearOrder.le_total p.key q.key

end Path

end CodePattern
