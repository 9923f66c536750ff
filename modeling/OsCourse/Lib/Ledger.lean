import Mathlib.Data.List.Nodup

/-! The blocks of a heap as they are allocated and freed. In a balanced ledger each block that
was not freed is held by someone, and each that was, was freed once. -/
namespace OsCourse.Alloc
variable {β : Type*}

/-- Histories of the allocations and of the calls of `free`. -/
structure Ledger (β : Type*) where
  allocated : List β
  freed : List β

def Ledger.empty : Ledger β := ⟨[], []⟩

def Ledger.malloc (g : Ledger β) (b : β) : Ledger β := { g with allocated := g.allocated ++ [b] }

def Ledger.free (g : Ledger β) (b : β) : Ledger β := { g with freed := g.freed ++ [b] }

/-- Each block was allocated once, and is either one of `held` or freed, once. -/
structure Ledger.Balanced [DecidableEq β] (g : Ledger β) (held : List β) : Prop where
  nodup : g.allocated.Nodup
  count : ∀ b, g.allocated.count b = g.freed.count b + held.count b

namespace Ledger
variable [DecidableEq β] {g : Ledger β} {held held' : List β} {b : β}

theorem Balanced.empty : Balanced (Ledger.empty : Ledger β) [] := ⟨List.nodup_nil, fun _ => rfl⟩

theorem Balanced.perm (h : g.Balanced held) (hp : ∀ b, held'.count b = held.count b) :
    g.Balanced held' := by
  refine ⟨h.nodup, ?_⟩
  intro b
  rw [hp b]
  exact h.count b

theorem Balanced.malloc (h : g.Balanced held) (hnew : b ∉ g.allocated) :
    (g.malloc b).Balanced (b :: held) where
  nodup := by
    dsimp only [Ledger.malloc]
    rw [List.nodup_append]
    refine ⟨h.nodup, List.nodup_singleton b, ?_⟩
    intro x hx y hy
    rw [List.mem_singleton.mp hy]
    rintro rfl
    exact hnew hx
  count := by
    intro x
    have hcount := h.count x
    dsimp only [Ledger.malloc]
    rw [List.count_append, List.count_singleton, List.count_cons]
    omega

theorem Balanced.free (h : g.Balanced (b :: held)) : (g.free b).Balanced held where
  nodup := h.nodup
  count := by
    intro x
    have hcount := h.count x
    dsimp only [Ledger.free]
    rw [List.count_cons] at hcount
    rw [List.count_append, List.count_singleton]
    omega

/-- A block that is not held was freed, and only once. -/
theorem Balanced.freed_once (h : g.Balanced held) (hb : b ∈ g.allocated) (hout : b ∉ held) :
    g.freed.count b = 1 := by
  have hcount := h.count b
  rw [List.count_eq_one_of_mem h.nodup hb, List.count_eq_zero.mpr hout] at hcount
  exact hcount.symm

theorem Balanced.of_held (h : g.Balanced held) (hb : b ∈ held) :
    b ∈ g.allocated ∧ g.freed.count b = 0 ∧ held.count b = 1 := by
  have hcount := h.count b
  have hone : 0 < held.count b := List.count_pos_iff.mpr hb
  have hle := List.nodup_iff_count_le_one.mp h.nodup b
  refine ⟨?_, by omega, by omega⟩
  rw [← List.count_pos_iff]
  omega

end Ledger

end OsCourse.Alloc
