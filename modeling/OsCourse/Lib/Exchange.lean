import Mathlib.Algebra.BigOperators.Group.Finset.Basic
import Mathlib.Algebra.Order.BigOperators.Group.Finset
import Mathlib.Data.Multiset.AddSub
import OsCourse.Lib.Calls

/-! Parties that put items into a bounded buffer and get them out of it, each a number of times
that is known from the start: when all of them come to their ends. -/
namespace OsCourse.Exchange
open Calls Transition
variable {T σ ℓ ρ : Type*}

/-- What each party still has to put and to get, and what the buffer holds. -/
structure Trade (T : Type*) where
  cap : Nat
  inside : Nat
  puts : T → Nat
  gets : T → Nat

variable {parties : Finset T} {P G : Nat} {x : Trade T}

/-- The items of `P` puts and `G` gets in all are accounted for. -/
structure Trade.Balanced (parties : Finset T) (P G : Nat) (x : Trade T) : Prop where
  account : x.inside + parties.sum x.puts + G = P + parties.sum x.gets
  fits : x.inside ≤ x.cap

def Trade.Done (parties : Finset T) (x : Trade T) : Prop :=
  ∀ t ∈ parties, x.puts t = 0 ∧ x.gets t = 0

/-- Who has an item to put finds the buffer full, and who has one to get finds it empty. -/
structure Trade.Stuck (parties : Finset T) (x : Trade T) : Prop where
  full : ∀ t ∈ parties, 0 < x.puts t → x.inside = x.cap
  empty : ∀ t ∈ parties, 0 < x.gets t → x.inside = 0

theorem Trade.done_iff : x.Done parties ↔ parties.sum x.puts = 0 ∧ parties.sum x.gets = 0 := by
  rw [Finset.sum_eq_zero_iff, Finset.sum_eq_zero_iff]
  constructor
  · intro h
    exact ⟨fun t ht => (h t ht).1, fun t ht => (h t ht).2⟩
  · intro h t ht
    exact ⟨h.1 t ht, h.2 t ht⟩

theorem Trade.Balanced.of_done (h : x.Balanced parties P G) (hd : x.Done parties) :
    G ≤ P ∧ P ≤ G + x.cap := by
  have hacc := h.account
  have hfits := h.fits
  obtain ⟨hp, hg⟩ := Trade.done_iff.mp hd
  omega

/-- A stuck trade with room for the items that nobody gets is done. -/
theorem Trade.Balanced.done_of_stuck (h : x.Balanced parties P G) (hs : x.Stuck parties)
    (hcap : 0 < x.cap) (hfit : G ≤ P ∧ P ≤ G + x.cap) : x.Done parties := by
  have hacc := h.account
  have hput : parties.sum x.puts ≠ 0 → x.inside = x.cap := by
    intro hne
    obtain ⟨t, ht, hpos⟩ := Finset.exists_ne_zero_of_sum_ne_zero hne
    exact hs.full t ht (Nat.pos_of_ne_zero hpos)
  have hget : parties.sum x.gets ≠ 0 → x.inside = 0 := by
    intro hne
    obtain ⟨t, ht, hpos⟩ := Finset.exists_ne_zero_of_sum_ne_zero hne
    exact hs.empty t ht (Nat.pos_of_ne_zero hpos)
  rw [Trade.done_iff]
  by_cases hp : parties.sum x.puts = 0
  · by_cases hg : parties.sum x.gets = 0
    · exact ⟨hp, hg⟩
    · have := hget hg
      omega
  · have := hput hp
    by_cases hg : parties.sum x.gets = 0
    · omega
    · have := hget hg
      omega

/-- The acts of a party that puts only, or gets only. -/
def OneSided {α : Type*} (isPut isGet : α → Bool) (acts : List α) : Prop :=
  acts.countP isPut = 0 ∨ acts.countP isGet = 0

theorem OneSided.tail {α : Type*} {isPut isGet : α → Bool} {a : α} {acts : List α}
    (h : OneSided isPut isGet (a :: acts)) : OneSided isPut isGet acts := by
  have hput := (List.sublist_cons_self a acts).countP_le (p := isPut)
  have hget := (List.sublist_cons_self a acts).countP_le (p := isGet)
  unfold OneSided at *
  omega

theorem sum_move {f g : T → Nat} {t : T} (ht : t ∈ parties) (h : ∀ u, u ≠ t → g u = f u) :
    parties.sum g + f t = parties.sum f + g t := by
  classical
  have hg : g t + (parties.erase t).sum g = parties.sum g := Finset.add_sum_erase parties g ht
  have hf : f t + (parties.erase t).sum f = parties.sum f := Finset.add_sum_erase parties f ht
  have hrest : (parties.erase t).sum g = (parties.erase t).sum f :=
    Finset.sum_congr rfl fun u hu => h u (Finset.ne_of_mem_erase hu)
  omega

theorem sum_cons {α : Type*} {f g : T → List α} {t : T} {y : α} (ht : t ∈ parties)
    (hy : f t = y :: g t) (h : ∀ u, u ≠ t → g u = f u) :
    parties.sum (fun u => (f u : Multiset α)) =
      y ::ₘ parties.sum fun u => (g u : Multiset α) := by
  classical
  have hg := Finset.add_sum_erase parties (fun u => (g u : Multiset α)) ht
  have hf := Finset.add_sum_erase parties (fun u => (f u : Multiset α)) ht
  have hrest : (parties.erase t).sum (fun u => (g u : Multiset α)) =
      (parties.erase t).sum fun u => (f u : Multiset α) :=
    Finset.sum_congr rfl fun u hu => by rw [h u (Finset.ne_of_mem_erase hu)]
  rw [← hf, ← hg, hrest, hy, ← Multiset.cons_coe, Multiset.cons_add]

/-- The rule for a program of such parties: it returns exactly when the items that nobody gets
have room in the buffer. -/
theorem returns_iff {step : σ → ℓ → σ → Prop} {s : σ} {extra : ℓ → Bool}
    {result : σ → Option ρ} {r : ρ} {cap : Nat} (parties : Finset T) (c : Nat) (Inv : σ → Prop)
    (trade : σ → Trade T) (ahead : σ → Nat) (hcap : 0 < cap) (hinit : Inv s)
    (hkeep : ∀ a l b, Inv a → step a l b → Inv b)
    (hbal : ∀ a, Inv a → (trade a).Balanced parties P G ∧ (trade a).cap = cap)
    (hend : ∀ a y, Inv a → result a = some y → y = r ∧ (trade a).Done parties)
    (hnext : ∀ a, Inv a → result a = none → (∃ l u, step a l u ∧ extra l = false) ∨
      ((trade a).Stuck parties ∧ ¬ (trade a).Done parties))
    (hahead : ∀ a l b, Inv a → step a l b →
      ahead b + 1 ≤ ahead a + if extra l then c else 0) :
    Returns step s extra result r ↔ G ≤ P ∧ P ≤ G + cap := by
  constructor
  · intro h
    obtain ⟨ls, t, hrun, ht⟩ := h.exists_run
    have hinv := hrun.invariant hinit hkeep
    obtain ⟨hb, hc⟩ := hbal t hinv
    have hfit := hb.of_done (hend t r hinv ht).2
    rwa [hc] at hfit
  · intro hfit
    refine ⟨?_, ?_, bounded_of_invariant hinit hkeep hahead⟩
    · intro ls t y hrun hy
      exact (hend t y (hrun.invariant hinit hkeep) hy).1
    · intro ls t hrun hnone
      have hinv := hrun.invariant hinit hkeep
      obtain hgoes | ⟨hstuck, hno⟩ := hnext t hinv hnone
      · exact hgoes
      · obtain ⟨hb, hc⟩ := hbal t hinv
        rw [← hc] at hfit hcap
        exact absurd (hb.done_of_stuck hstuck hcap hfit) hno

end OsCourse.Exchange
