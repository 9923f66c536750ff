import Mathlib.Data.Finset.Card
import Mathlib.Data.List.Perm.Basic
import Mathlib.Logic.Function.Basic

/-! Tokens kept in places. `slots p` lists what place `p` holds; the placement is
a partition when every live token is held once, in one place, and no other is. -/
namespace OsCourse.Placement
open Function
variable {P T : Type*}

structure Partition (slots : P → List T) (live : Finset T) : Prop where
  nodup : ∀ p, (slots p).Nodup
  unique : ∀ p q t, t ∈ slots p → t ∈ slots q → p = q
  mem_live : ∀ t, t ∈ live ↔ ∃ p, t ∈ slots p

variable {slots : P → List T} {live : Finset T}

theorem Partition.count_eq_one [DecidableEq T] (h : Partition slots live) {p : P} {t : T}
    (ht : t ∈ slots p) : (slots p).count t = 1 :=
  List.count_eq_one_of_mem (h.nodup p) ht

/-- A live token is found exactly once in its place and nowhere else. -/
theorem Partition.exactly_once [DecidableEq T] (h : Partition slots live) {t : T} (ht : t ∈ live) :
    ∃ p, (slots p).count t = 1 ∧ ∀ q, q ≠ p → t ∉ slots q := by
  obtain ⟨p, hp⟩ := (h.mem_live t).1 ht
  exact ⟨p, h.count_eq_one hp, fun q hq hm => hq (h.unique q p t hm hp)⟩

theorem Partition.absent (h : Partition slots live) {t : T} (ht : t ∉ live) (p : P) :
    t ∉ slots p :=
  fun hm => ht ((h.mem_live t).2 ⟨p, hm⟩)

theorem Partition.not_mem_of_ne (h : Partition slots live) {p q : P} {t : T}
    (ht : t ∈ slots p) (hpq : p ≠ q) : t ∉ slots q :=
  fun hm => hpq (h.unique p q t ht hm)

theorem Partition.empty (h : ∀ p, slots p = []) : Partition slots (∅ : Finset T) where
  nodup p := by simp [h p]
  unique p q t hp := by simp [h p] at hp
  mem_live t := by simp [h]

variable [DecidableEq P]

theorem Partition.move (h : Partition slots live) {p q : P} {xs ys : List T} (hpq : p ≠ q)
    (hp : (slots p).Perm (xs ++ ys)) :
    Partition (update (update slots p ys) q (slots q ++ xs)) live := by
  have hnd : (xs ++ ys).Nodup := hp.nodup_iff.1 (h.nodup p)
  have hin : ∀ t, t ∈ slots p ↔ t ∈ xs ∨ t ∈ ys := fun t => by simp [hp.mem_iff]
  have hdis : ∀ t ∈ xs, t ∉ ys := fun t hx hy => (List.disjoint_of_nodup_append hnd) hx hy
  have hmem : ∀ r t, t ∈ update (update slots p ys) q (slots q ++ xs) r ↔
      (r = q ∧ (t ∈ slots q ∨ t ∈ xs)) ∨ (r = p ∧ t ∈ ys) ∨ (r ≠ q ∧ r ≠ p ∧ t ∈ slots r) := by
    intro r t
    by_cases hq : r = q
    · subst hq; simp [hpq.symm]
    · by_cases hr : r = p
      · subst hr; simp [hpq]
      · simp [hq, hr]
  constructor
  · intro r
    by_cases hq : r = q
    · subst hq
      have hx : ∀ a ∈ slots r, ∀ b ∈ xs, a ≠ b := by
        rintro a ha b hb rfl
        exact hpq (h.unique p r a ((hin a).2 (Or.inl hb)) ha)
      simpa [List.nodup_append, h.nodup r, hnd.of_append_left] using hx
    · by_cases hr : r = p
      · subst hr; simpa [hpq] using hnd.of_append_right
      · simpa [hq, hr] using h.nodup r
  · intro r r' t ht ht'
    -- only the tokens of `p` are shared out, and `xs` and `ys` have none in common
    have hxp : t ∈ xs → t ∈ slots p := fun hx => (hin t).2 (Or.inl hx)
    have hyp : t ∈ ys → t ∈ slots p := fun hy => (hin t).2 (Or.inr hy)
    have hne := hdis t
    have huq := h.unique p q t
    have hur := h.unique p r t
    have hur' := h.unique p r' t
    have hrr := h.unique r r' t
    have hqr := h.unique q r t
    have hqr' := h.unique q r' t
    rw [hmem] at ht ht'
    grind
  · intro t
    rw [h.mem_live]
    simp only [hmem]
    constructor
    · rintro ⟨r, hr⟩
      by_cases hq : r = q
      · exact ⟨q, Or.inl ⟨rfl, Or.inl (hq ▸ hr)⟩⟩
      · by_cases hrp : r = p
        · subst hrp
          cases (hin t).1 hr with
          | inl hx =>
            exact ⟨q, Or.inl ⟨rfl, Or.inr hx⟩⟩
          | inr hy =>
            exact ⟨r, Or.inr (Or.inl ⟨rfl, hy⟩)⟩
        · exact ⟨r, Or.inr (Or.inr ⟨hq, hrp, hr⟩)⟩
    · rintro ⟨r, ⟨rfl, hq | hx⟩ | ⟨rfl, hy⟩ | ⟨_, _, hr⟩⟩
      · exact ⟨r, hq⟩
      · exact ⟨p, (hin t).2 (Or.inl hx)⟩
      · exact ⟨r, (hin t).2 (Or.inr hy)⟩
      · exact ⟨r, hr⟩

theorem Partition.enter [DecidableEq T] (h : Partition slots live) {t : T} (ht : t ∉ live) (p : P) :
    Partition (update slots p (slots p ++ [t])) (insert t live) := by
  have hno := h.absent ht
  have hmem : ∀ r u, u ∈ update slots p (slots p ++ [t]) r ↔ u ∈ slots r ∨ (r = p ∧ u = t) := by
    intro r u
    by_cases hr : r = p
    · subst hr; simp
    · simp [hr]
  constructor
  · intro r
    by_cases hr : r = p
    · subst hr
      have hx : ∀ a ∈ slots r, ¬ a = t := fun a ha he => hno r (he ▸ ha)
      simpa [List.nodup_append, h.nodup r] using hx
    · simpa [hr] using h.nodup r
  · intro r r' u hu hu'
    rw [hmem] at hu hu'
    have hrr := h.unique r r' u
    grind
  · intro u
    simp only [Finset.mem_insert, h.mem_live, hmem]
    grind

theorem Partition.leave [DecidableEq T] (h : Partition slots live) {t : T} {p : P}
    (hp : slots p = [t]) : Partition (update slots p []) (live.erase t) := by
  have hmem : ∀ r u, u ∈ update slots p [] r ↔ u ∈ slots r ∧ r ≠ p := by
    intro r u
    by_cases hr : r = p
    · subst hr; simp
    · simp [hr]
  have htp : t ∈ slots p := by simp [hp]
  constructor
  · intro r
    by_cases hr : r = p
    · subst hr; simp
    · simpa [hr] using h.nodup r
  · intro r r' u hu hu'
    rw [hmem] at hu hu'
    exact h.unique r r' u hu.1 hu'.1
  · intro u
    simp only [Finset.mem_erase, h.mem_live, hmem]
    constructor
    · rintro ⟨hne, r, hr⟩
      refine ⟨r, hr, fun he => hne ?_⟩
      subst he
      simpa [hp] using hr
    · rintro ⟨r, hr, hrp⟩
      exact ⟨fun he => hrp (h.unique r p t (he ▸ hr) htp), r, hr⟩

end OsCourse.Placement
