import OsCourse.Lib.Transition

/-! Threads that touch what they share only while they hold its mutex: the sections between lock
and unlock may as well be single steps. -/
namespace OsCourse.Sections
open Function Relation Transition

/-- What the threads `T` do, each from its place in `κ`: outside of the sections with what no
section touches, in `ε`, and inside of them with what is shared, in `σ`. -/
structure Code (T κ ε σ : Type*) where
  outside : T → κ → ε → κ → ε → Prop
  lock : κ → κ → Prop
  inside : κ × σ → κ × σ → Prop
  unlock : κ → κ → Prop

structure State (T κ ε σ : Type*) where
  shared : σ
  holder : Option T
  env : ε
  pc : T → κ

inductive Label (T : Type*) where
  | outside (t : T)
  | lock (t : T)
  | inside (t : T)
  | unlock (t : T)
  /-- a section as a single step -/
  | whole (t : T)

variable {T κ ε σ : Type*}

def Code.Whole (code : Code T κ ε σ) (k : κ) (x : σ) (k' : κ) (x' : σ) : Prop :=
  ∃ k1 k2, code.lock k k1 ∧ ReflTransGen code.inside (k1, x) (k2, x') ∧ code.unlock k2 k'

variable [DecidableEq T]

inductive Step (code : Code T κ ε σ) : State T κ ε σ → Label T → State T κ ε σ → Prop
  | outside {s : State T κ ε σ} {t : T} {k : κ} {e : ε} : s.holder ≠ some t →
      code.outside t (s.pc t) s.env k e →
      Step code s (.outside t) { s with env := e, pc := update s.pc t k }
  | lock {s : State T κ ε σ} {t : T} {k : κ} : s.holder = none → code.lock (s.pc t) k →
      Step code s (.lock t) { s with holder := some t, pc := update s.pc t k }
  | inside {s : State T κ ε σ} {t : T} {k : κ} {x : σ} : s.holder = some t →
      code.inside (s.pc t, s.shared) (k, x) →
      Step code s (.inside t) { s with shared := x, pc := update s.pc t k }
  | unlock {s : State T κ ε σ} {t : T} {k : κ} : s.holder = some t → code.unlock (s.pc t) k →
      Step code s (.unlock t) { s with holder := none, pc := update s.pc t k }

/-- The same threads, with each section a single step. -/
inductive Atomic (code : Code T κ ε σ) : State T κ ε σ → Label T → State T κ ε σ → Prop
  | outside {s : State T κ ε σ} {t : T} {k : κ} {e : ε} : code.outside t (s.pc t) s.env k e →
      Atomic code s (.outside t) { s with env := e, pc := update s.pc t k }
  | whole {s : State T κ ε σ} {t : T} {k : κ} {x : σ} : code.Whole (s.pc t) s.shared k x →
      Atomic code s (.whole t) { s with shared := x, pc := update s.pc t k }

/-- The holder of the mutex is where it gets in its section from the state `a`, in which it has
yet to lock; everything else is as in `a`. -/
inductive Begun (code : Code T κ ε σ) (a : State T κ ε σ) : State T κ ε σ → Prop
  | free : Begun code a a
  | held {t : T} {k k' : κ} {x : σ} : code.lock (a.pc t) k →
      ReflTransGen code.inside (k, a.shared) (k', x) →
      Begun code a { a with shared := x, holder := some t, pc := update a.pc t k' }

variable {code : Code T κ ε σ} {s s' a b : State T κ ε σ} {l : Label T}

theorem Begun.step (h : Begun code a s) (ha : a.holder = none) (hstep : Step code s l s') :
    ∃ ms b, Runs (Atomic code) a ms b ∧ b.holder = none ∧ Begun code b s' := by
  cases h with
  | free =>
    cases hstep with
    | outside _ hout => exact ⟨_, _, Runs.single (Atomic.outside hout), ha, Begun.free⟩
    | lock _ hlock => exact ⟨[], _, Runs.nil _, ha, Begun.held hlock ReflTransGen.refl⟩
    | inside hheld _ | unlock hheld _ =>
      rw [ha] at hheld
      cases hheld
  | @held t k k' x hlock hins =>
    cases hstep with
    | @outside u q e hne hout =>
      -- another thread goes on outside, before the section as well as within it
      have hu : u ≠ t := fun he => hne (congrArg some he.symm)
      dsimp only at hout
      rw [update_of_ne hu] at hout
      have hlock' : code.lock (update a.pc u q t) k := by rwa [update_of_ne hu.symm]
      refine ⟨_, { a with env := e, pc := update a.pc u q },
        Runs.single (l := Label.outside u) (Atomic.outside hout), ha, ?_⟩
      dsimp only
      rw [update_comm hu.symm]
      exact Begun.held (a := { a with env := e, pc := update a.pc u q }) hlock' hins
    | lock hfree _ => cases hfree
    | inside hheld hin =>
      cases hheld
      dsimp only at hin ⊢
      rw [update_self] at hin
      rw [update_idem]
      exact ⟨[], a, Runs.nil a, ha, Begun.held hlock (hins.tail hin)⟩
    | @unlock u q hheld hunlock =>
      cases hheld
      dsimp only at hunlock ⊢
      rw [update_self] at hunlock
      rw [update_idem]
      refine ⟨_, { a with shared := x, pc := update a.pc t q },
        Runs.single (l := Label.whole t) (Atomic.whole ⟨k, k', hlock, hins, hunlock⟩), ha, ?_⟩
      rw [← ha]
      exact Begun.free

theorem begun_of_runs {ls : List (Label T)} (hrun : Runs (Step code) s ls s')
    (hfree : s.holder = none) :
    ∃ ms a, Runs (Atomic code) s ms a ∧ a.holder = none ∧ Begun code a s' := by
  induction hrun with
  | nil => exact ⟨[], s, Runs.nil s, hfree, Begun.free⟩
  | snoc _ hstep ih =>
    obtain ⟨ms, a, hatomic, ha, hbegun⟩ := ih
    obtain ⟨ns, b, hmore, hb, hnext⟩ := hbegun.step ha hstep
    exact ⟨ms ++ ns, b, hatomic.append hmore, hb, hnext⟩

theorem inside_runs {t : T} {k k' : κ} {x x' : σ} (hheld : s.holder = some t)
    (hpc : s.pc t = k) (hx : s.shared = x) (h : ReflTransGen code.inside (k, x) (k', x')) :
    ∃ ls, Runs (Step code) s ls { s with shared := x', pc := update s.pc t k' } := by
  generalize hp : (k', x') = p at h
  induction h generalizing k' x' with
  | refl =>
    cases hp
    rw [← hpc, ← hx, update_eq_self]
    exact ⟨[], Runs.nil s⟩
  | @tail q p _ hlast ih =>
    subst hp
    obtain ⟨ls, hrun⟩ := @ih q.1 q.2 rfl
    have hin : Step code { s with shared := q.2, pc := update s.pc t q.1 } (.inside t) _ :=
      Step.inside hheld (by dsimp only; rw [update_self]; exact hlast)
    dsimp only at hin
    rw [update_idem] at hin
    exact ⟨_, hrun.snoc hin⟩

theorem Atomic.runs (h : Atomic code a l b) (ha : a.holder = none) :
    (∃ ls, Runs (Step code) a ls b) ∧ b.holder = none := by
  cases h with
  | outside hout =>
    refine ⟨⟨_, Runs.single (Step.outside ?_ hout)⟩, ha⟩
    rw [ha]
    exact nofun
  | @whole t q x hwhole =>
    obtain ⟨k, k', hlock, hins, hunlock⟩ := hwhole
    refine ⟨?_, ha⟩
    have hlocked : Step code a (.lock t) _ := Step.lock ha hlock
    obtain ⟨ls, hrun⟩ := inside_runs (t := t)
      (s := { a with holder := some t, pc := update a.pc t k }) rfl (update_self t k a.pc) rfl hins
    have hdone := (Runs.single hlocked |>.append hrun).snoc
      (Step.unlock (t := t) rfl (by dsimp only; rw [update_self]; exact hunlock))
    dsimp only at hdone
    rw [update_idem, update_idem, ← ha] at hdone
    exact ⟨_, hdone⟩

/-- The states in which nobody holds the mutex are those that threads with atomic sections
reach. -/
theorem reaches_iff (hfree : s.holder = none) (hfree' : s'.holder = none) :
    (∃ ls, Runs (Step code) s ls s') ↔ ∃ ms, Runs (Atomic code) s ms s' := by
  constructor
  · rintro ⟨ls, hrun⟩
    obtain ⟨ms, a, hatomic, _, hbegun⟩ := begun_of_runs hrun hfree
    cases hbegun with
    | free => exact ⟨ms, hatomic⟩
    | held => cases hfree'
  · rintro ⟨ms, hrun⟩
    have hboth : (∃ ls, Runs (Step code) s ls s') ∧ s'.holder = none := by
      apply hrun.invariant (P := fun b => (∃ ls, Runs (Step code) s ls b) ∧ b.holder = none)
      · exact ⟨⟨[], Runs.nil s⟩, hfree⟩
      · rintro a l b ⟨⟨ls, hls⟩, ha⟩ hstep
        obtain ⟨⟨ms, hms⟩, hb⟩ := hstep.runs ha
        exact ⟨⟨ls ++ ms, hls.append hms⟩, hb⟩
    exact hboth.1

/-- What atomic sections keep holds whenever nobody holds the mutex. -/
theorem invariant_of_atomic {P : State T κ ε σ → Prop} {ls : List (Label T)}
    (hrun : Runs (Step code) s ls s') (hfree : s.holder = none) (hfree' : s'.holder = none)
    (h0 : P s) (hs : ∀ a l b, P a → Atomic code a l b → P b) : P s' := by
  obtain ⟨ms, hatomic⟩ := (reaches_iff hfree hfree').mp ⟨ls, hrun⟩
  exact hatomic.invariant h0 hs

end OsCourse.Sections
