import Mathlib.Data.List.Induction
import Mathlib.Logic.Function.Basic
import Mathlib.Logic.Relation

/-! Finite runs of labelled steps: composition, invariants and simulations.
Nothing here depends on what the states or the labels are. -/
namespace OsCourse.Transition
variable {σ τ ℓ κ : Type*}

/-- `Runs step s ls t`: steps labelled `ls`, in this order, lead from `s` to `t`. -/
inductive Runs (step : σ → ℓ → σ → Prop) : σ → List ℓ → σ → Prop
  | nil (s : σ) : Runs step s [] s
  | snoc {s t u : σ} {ls : List ℓ} {l : ℓ} :
      Runs step s ls t → step t l u → Runs step s (ls ++ [l]) u

variable {step : σ → ℓ → σ → Prop} {stepB : τ → κ → τ → Prop}

theorem Runs.single {s t : σ} {l : ℓ} (h : step s l t) : Runs step s [l] t :=
  Runs.snoc (Runs.nil s) h

theorem Runs.append {s t u : σ} {ls ms : List ℓ} (h : Runs step s ls t)
    (k : Runs step t ms u) : Runs step s (ls ++ ms) u := by
  induction k with
  | nil => simpa using h
  | snoc _ hs ih => simpa [List.append_assoc] using Runs.snoc ih hs

theorem Runs.invariant {P : σ → Prop} {s t : σ} {ls : List ℓ} (h : Runs step s ls t)
    (h0 : P s) (hs : ∀ a l b, P a → step a l b → P b) : P t := by
  induction h with
  | nil => exact h0
  | snoc _ hstep ih => exact hs _ _ _ ih hstep

/-- An invariant of the steps with the labels of the run. -/
theorem Runs.invariant_of {P : σ → Prop} {Q : ℓ → Prop} {s t : σ} {ls : List ℓ}
    (h : Runs step s ls t) (hq : ∀ l ∈ ls, Q l) (h0 : P s)
    (hs : ∀ a l b, Q l → P a → step a l b → P b) : P t := by
  induction h with
  | nil => exact h0
  | snoc _ hstep ih =>
    have hpre := ih (fun l hl => hq l (List.mem_append_left _ hl))
    exact hs _ _ _ (hq _ (by simp)) hpre hstep

/-- The steps of a run are steps of any relation that they imply under an invariant. -/
theorem Runs.mono_of {step' : σ → ℓ → σ → Prop} {P : σ → Prop} {s t : σ} {ls : List ℓ}
    (h : Runs step s ls t) (h0 : P s) (hs : ∀ a l b, P a → step a l b → step' a l b ∧ P b) :
    Runs step' s ls t ∧ P t := by
  induction h with
  | nil => exact ⟨Runs.nil _, h0⟩
  | snoc _ hstep ih =>
    obtain ⟨hrun, hp⟩ := ih
    obtain ⟨hnext, hp'⟩ := hs _ _ _ hp hstep
    exact ⟨hrun.snoc hnext, hp'⟩

/-- Two kinds of steps make the same runs when each implies the other, under invariants. -/
theorem Runs.iff_of {step' : σ → ℓ → σ → Prop} {P Q : σ → Prop} {s t : σ} {ls : List ℓ}
    (hp : P s) (hq : Q s) (h : ∀ a l b, P a → step a l b → step' a l b ∧ P b)
    (h' : ∀ a l b, Q a → step' a l b → step a l b ∧ Q b) :
    Runs step s ls t ↔ Runs step' s ls t := by
  constructor
  · intro hrun
    exact (hrun.mono_of hp h).1
  · intro hrun
    exact (hrun.mono_of hq h').1

theorem Runs.mono {step' : σ → ℓ → σ → Prop} {s t : σ} {ls : List ℓ}
    (h : Runs step s ls t) (hs : ∀ a l b, step a l b → step' a l b) :
    Runs step' s ls t := by
  induction h with
  | nil => exact Runs.nil _
  | snoc _ hstep ih => exact Runs.snoc ih (hs _ _ _ hstep)

theorem Runs.mono_labels {step' : σ → ℓ → σ → Prop} {Q : ℓ → Prop} {s t : σ} {ls : List ℓ}
    (h : Runs step s ls t) (hq : ∀ l ∈ ls, Q l)
    (hs : ∀ a l b, Q l → step a l b → step' a l b) : Runs step' s ls t := by
  induction h with
  | nil => exact Runs.nil _
  | snoc _ hstep ih =>
    have hrun := ih fun l hl => hq l (List.mem_append_left _ hl)
    exact hrun.snoc (hs _ _ _ (hq _ (by simp)) hstep)

/-- Under an invariant, the steps of a run are steps of another kind, or one of them led where
there is no way back from. -/
theorem Runs.mono_or {step' : σ → ℓ → σ → Prop} {P Q : σ → Prop} {s t : σ} {ls : List ℓ}
    (h : Runs step s ls t) (h0 : P s)
    (hs : ∀ a l b, P a → step a l b → (step' a l b ∨ Q b) ∧ P b)
    (hq : ∀ a l b, P a → Q a → step a l b → Q b) : (Runs step' s ls t ∨ Q t) ∧ P t := by
  induction h with
  | nil => exact ⟨Or.inl (Runs.nil _), h0⟩
  | snoc _ hstep ih =>
    obtain ⟨hbefore, hp⟩ := ih
    obtain ⟨hnext, hp'⟩ := hs _ _ _ hp hstep
    refine ⟨?_, hp'⟩
    cases hbefore with
    | inl hrun =>
      cases hnext with
      | inl hgood => exact Or.inl (hrun.snoc hgood)
      | inr hled => exact Or.inr hled
    | inr hlost => exact Or.inr (hq _ _ _ hp hlost hstep)

theorem Runs.nil_inv {s t : σ} (h : Runs step s [] t) : t = s := by
  generalize hm : ([] : List ℓ) = ms at h
  cases h with
  | nil => rfl
  | snoc => simp at hm

theorem Runs.snoc_inv {s u : σ} {ls : List ℓ} {l : ℓ} (h : Runs step s (ls ++ [l]) u) :
    ∃ t, Runs step s ls t ∧ step t l u := by
  generalize hm : ls ++ [l] = ms at h
  cases h with
  | nil => simp at hm
  | snoc hrun hstep =>
    obtain ⟨rfl, hl⟩ := List.append_inj' hm rfl
    cases hl
    exact ⟨_, hrun, hstep⟩

/-- Forward simulation: a relation kept by matching steps relates whole runs. -/
theorem Runs.simulation {R : σ → τ → Prop} {f : ℓ → κ} {Q : ℓ → Prop} {s s' : σ} {t : τ}
    {ls : List ℓ} (h : Runs step s ls s') (hq : ∀ l ∈ ls, Q l) (h0 : R s t)
    (hs : ∀ a b l a', Q l → R a b → step a l a' → ∃ b', stepB b (f l) b' ∧ R a' b') :
    ∃ t', Runs stepB t (ls.map f) t' ∧ R s' t' := by
  induction h with
  | nil => exact ⟨t, Runs.nil t, h0⟩
  | snoc _ hstep ih =>
    obtain ⟨t1, hrun, hrel⟩ := ih fun l hl => hq l (List.mem_append_left _ hl)
    obtain ⟨t2, hnext, hrel'⟩ := hs _ _ _ _ (hq _ (by simp)) hrel hstep
    exact ⟨t2, by simpa using Runs.snoc hrun hnext, hrel'⟩

/-- Backward simulation, for runs whose labels are images. -/
theorem Runs.simulation_back {R : σ → τ → Prop} {f : ℓ → κ} {Q : ℓ → Prop} {s : σ} {t t' : τ}
    {ls : List ℓ} (h : Runs stepB t (ls.map f) t') (hq : ∀ l ∈ ls, Q l) (h0 : R s t)
    (hs : ∀ a b l b', Q l → R a b → stepB b (f l) b' → ∃ a', step a l a' ∧ R a' b') :
    ∃ s', Runs step s ls s' ∧ R s' t' := by
  induction ls using List.reverseRecOn generalizing t' with
  | nil =>
    rw [List.map_nil] at h
    exact ⟨s, Runs.nil s, h.nil_inv ▸ h0⟩
  | append_singleton ls l ih =>
    rw [List.map_append] at h
    obtain ⟨t1, hrun, hstep⟩ := h.snoc_inv
    obtain ⟨s1, hrun', hrel⟩ := ih hrun fun l hl => hq l (List.mem_append_left _ hl)
    obtain ⟨s2, hnext, hrel'⟩ := hs _ _ _ _ (hq _ (by simp)) hrel hstep
    exact ⟨s2, Runs.snoc hrun' hnext, hrel'⟩

theorem update_cases {T P : Type*} [DecidableEq T] {f : T → P} {t u : T} {x y : P}
    (h : Function.update f t x u = y) : (u = t ∧ x = y) ∨ (u ≠ t ∧ f u = y) := by
  by_cases hu : u = t
  · rw [hu, Function.update_self] at h
    exact Or.inl ⟨hu, h⟩
  · rw [Function.update_of_ne hu] at h
    exact Or.inr ⟨hu, h⟩

/-- Execution of a list of operations, each of them allowed where it is executed. -/
def runAll {ε : Type*} (allowed : σ → ℓ → Prop) [∀ s l, Decidable (allowed s l)]
    (exec : ℓ → σ → Except ε σ) : List ℓ → σ → Option σ
  | [], s => some s
  | l :: ls, s =>
    if allowed s l then
      match exec l s with
      | .ok t => runAll allowed exec ls t
      | .error _ => none
    else none

theorem runs_of_runAll {ε : Type*} (allowed : σ → ℓ → Prop)
    [∀ s l, Decidable (allowed s l)] (exec : ℓ → σ → Except ε σ) (ls : List ℓ) (s : σ) {t : σ}
    (h : runAll allowed exec ls s = some t) :
    Runs (fun s l t => allowed s l ∧ exec l s = .ok t) s ls t := by
  induction ls generalizing s with
  | nil =>
    cases h
    exact Runs.nil _
  | cons l ls ih =>
    unfold runAll at h
    split at h
    · rename_i ha
      split at h
      · rename_i u hu
        exact Runs.append (Runs.single ⟨ha, hu⟩) (ih u h)
      · cases h
    · cases h

theorem bind_ok.{u} {ε : Type*} {α β : Type u} {x : Except ε α} {f : α → Except ε β} {b : β}
    (h : x >>= f = .ok b) : ∃ a, x = .ok a ∧ f a = .ok b := by
  cases x with
  | error e => cases h
  | ok a => exact ⟨a, rfl, h⟩

/-- Two computations with the same outcome: related results, or the same error. -/
inductive Matched.{u} {ε : Type*} {α β : Type u} (R : α → β → Prop) :
    Except ε α → Except ε β → Prop
  | ok {a : α} {b : β} : R a b → Matched R (.ok a) (.ok b)
  | error (e : ε) : Matched R (.error e) (.error e)

theorem Matched.bind.{u} {ε : Type*} {α β α' β' : Type u} {R : α → β → Prop}
    {S : α' → β' → Prop} {x : Except ε α} {y : Except ε β} {f : α → Except ε α'}
    {g : β → Except ε β'} (h : Matched R x y) (hf : ∀ a b, R a b → Matched S (f a) (g b)) :
    Matched S (x >>= f) (y >>= g) := by
  cases h with
  | ok hab => exact hf _ _ hab
  | error e => exact Matched.error e

theorem Matched.same.{u} {ε : Type*} {α : Type u} (x : Except ε α) : Matched Eq x x := by
  cases x with
  | error e => exact Matched.error e
  | ok a => exact Matched.ok rfl

theorem Matched.ok_left.{u} {ε : Type*} {α β : Type u} {R : α → β → Prop} {x : Except ε α}
    {y : Except ε β} (h : Matched R x y) {a : α} (hx : x = .ok a) : ∃ b, y = .ok b ∧ R a b := by
  cases h with
  | ok hab => cases hx; exact ⟨_, rfl, hab⟩
  | error e => cases hx

theorem Matched.ok_right.{u} {ε : Type*} {α β : Type u} {R : α → β → Prop} {x : Except ε α}
    {y : Except ε β} (h : Matched R x y) {b : β} (hy : y = .ok b) : ∃ a, x = .ok a ∧ R a b := by
  cases h with
  | ok hab => cases hy; exact ⟨_, rfl, hab⟩
  | error e => cases hy

end OsCourse.Transition
