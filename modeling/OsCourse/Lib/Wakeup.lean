import Mathlib.Logic.Function.Basic
import OsCourse.Lib.Transition
import OsCourse.Lib.Tally

/-! A mutex and its condition variables. The threads that wait on a variable are those at a program
point that `wake` sends elsewhere; a thread woken has to check its condition again. -/
namespace OsCourse.Wakeup
open Function Transition Tally
variable {T P : Type*} {wake : P → Option P} {pc : T → P}

/-- `pthread_cond_signal` releases one of the threads that wait, if there is one. -/
inductive Signal [DecidableEq T] (wake : P → Option P) (pc : T → P) : Option T → (T → P) → Prop
  | one {t : T} {p : P} : wake (pc t) = some p → Signal wake pc (some t) (update pc t p)
  | nobody : (∀ t, wake (pc t) = none) → Signal wake pc none pc

/-- `pthread_cond_broadcast` releases all of them. -/
def broadcast (wake : P → Option P) (pc : T → P) : T → P := fun t => (wake (pc t)).getD (pc t)

theorem exists_signal [DecidableEq T] (wake : P → Option P) (pc : T → P) :
    ∃ o pc', Signal wake pc o pc' := by
  by_cases h : ∀ t, wake (pc t) = none
  · exact ⟨_, _, Signal.nobody h⟩
  · obtain ⟨t, ht⟩ := not_forall.mp h
    obtain ⟨p, hp⟩ := Option.ne_none_iff_exists'.mp ht
    exact ⟨_, _, Signal.one hp⟩

theorem broadcast_of_none {t : T} (h : wake (pc t) = none) : broadcast wake pc t = pc t := by
  rw [broadcast, h, Option.getD_none]

theorem broadcast_of_some {t : T} {p : P} (h : wake (pc t) = some p) :
    broadcast wake pc t = p := by
  rw [broadcast, h, Option.getD_some]

theorem broadcast_cases (wake : P → Option P) (pc : T → P) (t : T) :
    (wake (pc t) = none ∧ broadcast wake pc t = pc t) ∨
      ∃ p, wake (pc t) = some p ∧ broadcast wake pc t = p := by
  cases h : wake (pc t) with
  | none => exact Or.inl ⟨rfl, broadcast_of_none h⟩
  | some p => exact Or.inr ⟨p, rfl, broadcast_of_some h⟩

theorem broadcast_iff {α : Type*} (f : P → α) (hf : ∀ p q, wake p = some q → f q = f p)
    (t : T) : f (broadcast wake pc t) = f (pc t) := by
  obtain ⟨_, he⟩ | ⟨p, hp, he⟩ := broadcast_cases wake pc t
  · rw [he]
  · rw [he, hf _ _ hp]

theorem Signal.apply {α : Type*} [DecidableEq T] {o : Option T} {pc' : T → P}
    (h : Signal wake pc o pc') (f : P → α) (hf : ∀ p q, wake p = some q → f q = f p) (t : T) :
    f (pc' t) = f (pc t) := by
  cases h with
  | nobody => rfl
  | @one u p hp =>
    by_cases htu : t = u
    · subst htu
      rw [update_self, hf _ _ hp]
    · rw [update_of_ne htu]

section Mutex
variable {X : Type*} {held : X → Bool} {holder : Option X} {x : X}

/-- The threads at a point inside a locked section are those the mutex records. -/
def Owned (held : X → Bool) (holder : Option X) : Prop := ∀ x, held x = true ↔ holder = some x

theorem Owned.free (h : Owned held none) (x : X) : held x = false := by
  by_contra hne
  have := (h x).mp (by simpa using hne)
  cases this

theorem Owned.acquire [DecidableEq X] (h : Owned held none) (x : X) :
    Owned (update held x true) (some x) := by
  intro y
  by_cases hxy : y = x
  · subst hxy
    simp
  · rw [update_of_ne hxy, h y]
    simpa using fun he : x = y => hxy he.symm

theorem Owned.release [DecidableEq X] (h : Owned held holder) (hx : held x = true) :
    Owned (update held x false) none := by
  intro y
  by_cases hxy : y = x
  · subst hxy
    simp
  · have hholder := (h x).mp hx
    rw [update_of_ne hxy, h y, hholder]
    simpa using fun he : x = y => hxy he.symm

theorem Owned.keep [DecidableEq X] (h : Owned held holder) {b : Bool} (hx : held x = b) :
    Owned (update held x b) holder := by
  rw [← hx, update_eq_self]
  exact h

end Mutex

section Gauge

/-- What is there to take, who waits for it, who was woken and has not looked yet, and
how many signals are still to be sent. -/
structure Gauge where
  items : Nat
  blocked : Nat
  woken : Nat
  signals : Nat

/-- No wakeup is lost: while some thread is blocked, each item has a signal on its way
or a thread that was woken for it. -/
def Gauge.Covered (g : Gauge) : Prop := 0 < g.blocked → g.items ≤ g.signals + g.woken

/-- The moves of the threads around one condition variable. -/
inductive Gauge.Move (g g' : Gauge) : Prop
  /-- an item is added by a thread that will signal -/
  | produce : g'.items = g.items + 1 → g'.blocked = g.blocked → g'.woken = g.woken →
      g'.signals = g.signals + 1 → Gauge.Move g g'
  /-- one thread is released, by a signal or without one -/
  | wake : g'.items = g.items → g'.blocked + 1 = g.blocked → g'.woken = g.woken + 1 →
      g.signals ≤ g'.signals + 1 → Gauge.Move g g'
  /-- a signal is sent while nobody waits, or a broadcast -/
  | empty : g'.blocked = 0 → Gauge.Move g g'
  /-- a thread found nothing and waits -/
  | sleep : g'.items = 0 → Gauge.Move g g'
  /-- a thread that may be one of the woken takes an item -/
  | take : g.items = g'.items + 1 → g'.blocked = g.blocked → g.woken ≤ g'.woken + 1 →
      g'.signals = g.signals → Gauge.Move g g'
  | same : g'.items = g.items → g'.blocked = g.blocked → g'.woken = g.woken →
      g'.signals = g.signals → Gauge.Move g g'

theorem Gauge.Move.covered {g g' : Gauge} (h : Gauge.Move g g') (hc : g.Covered) :
    g'.Covered := by
  intro hb
  cases h with
  | produce hi hbl hw hs =>
    have := hc (by omega)
    omega
  | wake hi hbl hw hs =>
    have := hc (by omega)
    omega
  | empty h0 => omega
  | sleep h0 => omega
  | take hi hbl hw hs =>
    have := hc (by omega)
    omega
  | same hi hbl hw hs =>
    have := hc (by omega)
    omega

/-- With no signal to come and nobody woken, a thread is blocked for want of items. -/
theorem Gauge.Covered.empty {g : Gauge} (h : g.Covered) (hb : 0 < g.blocked)
    (hs : g.signals = 0) (hw : g.woken = 0) : g.items = 0 := by
  have := h hb
  omega

/-- Runs whose steps are moves of the gauge lose no wakeup. -/
theorem covered_of_runs {σ ℓ : Type*} {step : σ → ℓ → σ → Prop} (gauge : σ → Gauge)
    {s t : σ} {ls : List ℓ} (hrun : Runs step s ls t)
    (hmove : ∀ a l b, step a l b → (gauge a).Move (gauge b)) (h0 : (gauge s).blocked = 0) :
    (gauge t).Covered := by
  apply hrun.invariant (P := fun a => (gauge a).Covered)
  · intro hb
    omega
  · intro a l b hc hstep
    exact (hmove a l b hstep).covered hc

end Gauge

theorem Signal.moves [Fintype T] [DecidableEq T] {o : Option T} {pc' : T → P}
    (h : Signal wake pc o pc') (blocked woken : P → Nat)
    (hb : ∀ p, 0 < blocked p → wake p ≠ none)
    (hw : ∀ p q, wake p = some q → blocked p = blocked q + 1 ∧ woken q = woken p + 1) :
    (tally blocked pc = tally blocked pc' + 1 ∧ tally woken pc' = tally woken pc + 1) ∨
      (tally blocked pc' = 0 ∧ pc' = pc) := by
  cases h with
  | nobody hnone =>
    refine Or.inr ⟨tally_eq_zero.mpr fun t => ?_, rfl⟩
    by_contra hne
    exact hb _ (by omega) (hnone t)
  | @one t p hp =>
    have h1 := tally_update blocked pc t p
    have h2 := tally_update woken pc t p
    obtain ⟨h3, h4⟩ := hw _ _ hp
    exact Or.inl ⟨by omega, by omega⟩

theorem Signal.of_none [DecidableEq T] {o : Option T} {pc' : T → P} (h : Signal wake pc o pc')
    {t : T} (ht : wake (pc t) = none) : pc' t = pc t := by
  cases h with
  | nobody => rfl
  | @one u p hp =>
    have htu : t ≠ u := fun he => by
      rw [he, hp] at ht
      cases ht
    exact update_of_ne htu p pc

section GaugeOf
variable [Fintype T] {b w s : P → Nat} {n n' : Nat} {t : T} {q : P}

/-- The gauge of a condition variable for threads of one kind: the weights say who is
blocked on it, who was woken from it, and who is to signal it. -/
def gaugeOf (b w s : P → Nat) (pc : T → P) (n : Nat) : Gauge :=
  ⟨n, tally b pc, tally w pc, tally s pc⟩

variable [DecidableEq T]

theorem gaugeOf_keep (hb : b (pc t) = b q) (hw : w (pc t) = w q) (hs : s (pc t) = s q) :
    (gaugeOf b w s pc n).Move (gaugeOf b w s (update pc t q) n) :=
  Gauge.Move.same rfl (tally_same hb) (tally_same hw) (tally_same hs)

theorem gaugeOf_produce (hn : n' = n + 1) (hb : b (pc t) = b q) (hw : w (pc t) = w q)
    (hs : s q = s (pc t) + 1) :
    (gaugeOf b w s pc n).Move (gaugeOf b w s (update pc t q) n') := by
  have h := tally_update s pc t q
  apply Gauge.Move.produce hn (tally_same hb) (tally_same hw)
  simp only [gaugeOf]
  omega

theorem gaugeOf_take (hn : n = n' + 1) (hb : b (pc t) = b q) (hw : w (pc t) ≤ w q + 1)
    (hs : s (pc t) = s q) :
    (gaugeOf b w s pc n).Move (gaugeOf b w s (update pc t q) n') := by
  have h := tally_update w pc t q
  apply Gauge.Move.take hn (tally_same hb) _ (tally_same hs)
  simp only [gaugeOf]
  omega

theorem gaugeOf_wake (hb : b (pc t) = b q + 1) (hw : w q = w (pc t) + 1) (hs : s (pc t) = s q) :
    (gaugeOf b w s pc n).Move (gaugeOf b w s (update pc t q) n) := by
  have h1 := tally_update b pc t q
  have h2 := tally_update w pc t q
  have h3 : tally s (update pc t q) = tally s pc := tally_same hs
  refine Gauge.Move.wake rfl ?_ ?_ ?_ <;> simp only [gaugeOf] <;> omega

theorem gaugeOf_signal {o : Option T} {pc' : T → P} (h : Signal wake pc o pc')
    (hwb : ∀ p, 0 < b p → wake p ≠ none)
    (hwake : ∀ p q, wake p = some q → b p = b q + 1 ∧ w q = w p + 1)
    (hws : ∀ p q, wake p = some q → s q = s p)
    (ht : wake (pc t) = none) (hb : b (pc t) = b q) (hw : w (pc t) = w q)
    (hs : s (pc t) = s q + 1) :
    (gaugeOf b w s pc n).Move (gaugeOf b w s (update pc' t q) n) := by
  have hsame := h.of_none ht
  have h1 : tally b (update pc' t q) = tally b pc' := tally_same (by rw [hsame, hb])
  have h2 : tally w (update pc' t q) = tally w pc' := tally_same (by rw [hsame, hw])
  have h3 := tally_update s pc' t q
  have h4 : tally s pc' = tally s pc := tally_congr (h.apply s hws)
  rw [hsame] at h3
  obtain ⟨h5, h6⟩ | ⟨h5, _⟩ := h.moves b w hwb hwake
  · refine Gauge.Move.wake rfl ?_ ?_ ?_ <;> simp only [gaugeOf] <;> omega
  · apply Gauge.Move.empty
    simp only [gaugeOf]
    omega

theorem gaugeOf_apart {o : Option T} {pc' : T → P} (h : Signal wake pc o pc')
    (hwake : ∀ p q, wake p = some q → (b q, w q, s q) = (b p, w p, s p))
    (ht : (b (pc t), w (pc t), s (pc t)) = (b q, w q, s q)) :
    (gaugeOf b w s pc n).Move (gaugeOf b w s (update pc' t q) n) := by
  have hpc := h.apply (fun p => (b p, w p, s p)) hwake
  have hall : ∀ u, (b (update pc' t q u), w (update pc' t q u), s (update pc' t q u)) =
      (b (pc u), w (pc u), s (pc u)) := by
    intro u
    by_cases hu : u = t
    · subst hu
      rw [update_self, ht]
    · rw [update_of_ne hu]
      exact hpc u
  refine Gauge.Move.same rfl ?_ ?_ ?_
  · exact tally_congr fun u => congrArg Prod.fst (hall u)
  · exact tally_congr fun u => congrArg (fun x => x.2.1) (hall u)
  · exact tally_congr fun u => congrArg (fun x => x.2.2) (hall u)

end GaugeOf

end OsCourse.Wakeup
