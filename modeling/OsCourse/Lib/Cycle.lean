import Mathlib.Data.Fintype.Card
import Mathlib.Data.Fintype.EquivFin
import Mathlib.Data.Fintype.Sets
import Mathlib.Logic.Relation
import Mathlib.Order.WellFounded

/-! Cycles in a finite graph in which every vertex has a successor. -/
namespace OsCourse.Cycles
open Relation
variable {α : Type*}

/-- Some vertex of a finite nonempty set reaches itself, when none is a dead end. -/
theorem exists_cycle {r : α → α → Prop} {s : Finset α} (hne : s.Nonempty)
    (hs : ∀ a ∈ s, ∃ c ∈ s, r a c) : ∃ a ∈ s, TransGen r a a := by
  by_contra hno
  have hirr : Std.Irrefl fun a c : s => TransGen r c.1 a.1 :=
    ⟨fun a ha => hno ⟨a.1, a.2, ha⟩⟩
  have htrans : IsTrans s fun a c : s => TransGen r c.1 a.1 := ⟨fun a c d h k => k.trans h⟩
  have hwf := Finite.wellFounded_of_trans_of_irrefl fun a c : s => TransGen r c.1 a.1
  obtain ⟨x, hx⟩ := hne
  -- a vertex from which every other one is unreachable still has a successor
  obtain ⟨m, _, hmin⟩ := hwf.has_min Set.univ ⟨⟨x, hx⟩, trivial⟩
  obtain ⟨c, hc, hr⟩ := hs m.1 m.2
  exact hmin ⟨c, hc⟩ trivial (TransGen.single hr)

end OsCourse.Cycles
