import Mathlib.Data.Fintype.BigOperators
import OsCourse.Lib.Calls
import OsCourse.Lib.Ints
import OsCourse.Lib.Tally
import OsCourse.Race.Model

/-! No update is lost: what `main` prints is the number of all iterations. -/
namespace OsCourse.Race
open Calls Function Relation Sections Tally Transition

section Places

def Pc.isMain : Pc → Bool
  | .creating _ | .joining _ | .printing => true
  | _ => false

/-- Between lock and unlock. -/
def Pc.inside : Pc → Bool
  | .locked _ | .read _ _ | .added _ _ | .stored _ => true
  | _ => false

def Pc.done (niterations : Nat) : Pc → Nat
  | .head i | .locked i | .read i _ | .added i _ => i
  | .stored i => i + 1
  | .returned => niterations
  | _ => 0

def Pc.weight (maxThreads niterations : Nat) : Pc → Nat
  | .creating i => maxThreads - i + (maxThreads + 2)
  | .joining i => maxThreads - i + 1
  | .start => 5 * niterations + 2
  | .head i => 5 * (niterations - i) + 1
  | .locked i => 5 * (niterations - i)
  | .read i _ => 5 * (niterations - i) - 1
  | .added i _ => 5 * (niterations - i) - 2
  | .stored i => 5 * (niterations - i) - 3
  | .printing | .returned => 0

/-- A worker has not more than its iterations behind, and one less inside of a section. -/
def Pc.Fits (niterations : Nat) : Pc → Prop
  | .head i => i ≤ niterations
  | .locked i | .read i _ | .added i _ | .stored i => i < niterations
  | _ => True

/-- The threads that `main` has created and joined, by where it is. -/
def MainOk {n : Nat} (status : Fin n → Status) : Pc → Prop
  | .creating i => i ≤ n ∧ ∀ w : Fin n, status w = .unborn ↔ i ≤ w.val
  | .joining i => i ≤ n ∧ (∀ w : Fin n, status w ≠ .unborn) ∧
      ∀ w : Fin n, w.val < i → status w = .ended
  | .printing => ∀ w : Fin n, status w = .ended
  | _ => True

end Places

section Increment
variable {n niterations i j : Nat} {k : Pc} {x y : Int64}

theorem whole_section (h : (pthreadFunc n niterations).Whole (.head i) x k y) :
    k = .head (i + 1) ∧ i < niterations ∧ y = (x.toInt32 + 1).toInt64 := by
  obtain ⟨k1, k2, hlock, hins, hunlock⟩ := h
  cases hlock with
  | lock hi =>
    obtain hnow | ⟨p, hread, hrest⟩ := hins.cases_head
    · cases hnow
      cases hunlock
    cases hread
    obtain hnow | ⟨p, hadd, hrest⟩ := hrest.cases_head
    · cases hnow
      cases hunlock
    cases hadd
    obtain hnow | ⟨p, hstore, hrest⟩ := hrest.cases_head
    · cases hnow
      cases hunlock
    cases hstore
    obtain hnow | ⟨p, hmore, _⟩ := hrest.cases_head
    · cases hnow
      cases hunlock
      exact ⟨rfl, hi, rfl⟩
    · cases hmore

theorem toInt_increment (h : 0 ≤ x.toInt) (hx : x.toInt + 1 < 2 ^ 31) :
    (x.toInt32 + 1).toInt64.toInt = x.toInt + 1 := by
  have hcut : x.toInt32.toInt = x.toInt := by
    rw [Int64.toInt_toInt32]
    exact Int.bmod_eq_of_le (by omega) (by omega)
  have hone : (1 : Int32).toInt = 1 := rfl
  rw [Int32.toInt_toInt64, Ints.toInt_add_of_fits (by rw [hone]; omega), hcut, hone]
  rw [hcut, hone, Int32.toInt_maxValue]
  omega

end Increment

section Counter
variable {n niterations : Nat} {s a b : World n} {pc : Option (Fin n) → Pc}
  {t : Option (Fin n)} {k : Pc}

/-- Only `main` is where it creates and joins, and the iterations are in their bounds. -/
structure Placed (niterations : Nat) (pc : Option (Fin n) → Pc) : Prop where
  role : ∀ t, (pc t).isMain = t.isNone
  fits : ∀ t, (pc t).Fits niterations

theorem Placed.update (h : Placed niterations pc) (hmain : k.isMain = (pc t).isMain)
    (hfits : k.Fits niterations) : Placed niterations (update pc t k) := by
  constructor
  · intro u
    by_cases hu : u = t
    · rw [hu, update_self, hmain, h.role]
    · rw [update_of_ne hu, h.role]
  · intro u
    by_cases hu : u = t
    · rw [hu, update_self]
      exact hfits
    · rw [update_of_ne hu]
      exact h.fits u

theorem Pc.Fits.done_le (h : k.Fits niterations) : k.done niterations ≤ niterations := by
  cases k with
  | head | stored => exact h
  | locked | read | added => exact Nat.le_of_lt h
  | returned => exact le_rfl
  | creating | joining | printing | start => exact Nat.zero_le _

theorem Placed.done_le (h : Placed niterations pc) :
    tally (Pc.done niterations) pc ≤ n * niterations := by
  have hmain : (pc none).done niterations = 0 := by
    have hrole := h.role none
    cases hpc : pc none <;> rw [hpc] at hrole <;> first | rfl | cases hrole
  unfold tally
  rw [Fintype.sum_option, hmain, Nat.zero_add]
  calc ∑ w, (pc (some w)).done niterations ≤ ∑ _w : Fin n, niterations :=
        Finset.sum_le_sum fun w _ => (h.fits (some w)).done_le
    _ = n * niterations := by
        rw [Finset.sum_const_nat fun _ _ => rfl, Finset.card_univ, Fintype.card_fin]

/-- `result` is the number of the sections behind. -/
structure Counted (niterations : Nat) (s : World n) : Prop where
  result : s.shared.toInt = tally (Pc.done niterations) s.pc
  placed : Placed niterations s.pc

theorem placed_init : Placed niterations (init n).pc := by
  constructor <;> intro t <;> cases t <;> trivial

theorem counted_init : Counted niterations (init n) := by
  refine ⟨?_, placed_init⟩
  have hzero : tally (Pc.done niterations) (init n).pc = 0 := by
    rw [tally_eq_zero]
    intro t
    cases t <;> rfl
  rw [hzero]
  rfl

theorem Counted.outside (h : Counted niterations a) {e : Fin n → Status}
    (hout : Outside n niterations t (a.pc t) a.env k e) :
    Counted niterations { a with env := e, pc := Function.update a.pc t k } := by
  have hold := h.placed.fits t
  generalize hpc : a.pc t = k0 at hout hold
  have hkeep : k.isMain = k0.isMain ∧ k.done niterations = k0.done niterations ∧
      k.Fits niterations := by
    cases hout with
    | create | created | join | joined => exact ⟨rfl, rfl, trivial⟩
    | begin => exact ⟨rfl, rfl, Nat.zero_le _⟩
    | finish hi => exact ⟨rfl, Nat.le_antisymm (Nat.not_lt.mp hi) hold, trivial⟩
  obtain ⟨hmain, hdone, hfits⟩ := hkeep
  refine ⟨?_, h.placed.update (by rw [hmain, hpc]) hfits⟩
  dsimp only
  rw [h.result, tally_same]
  rw [hdone, hpc]

/-- A section is counted when it is behind, and there is room for it. -/
theorem Counted.whole (h : Counted niterations a) (hfit : n * niterations < 2 ^ 31) {x : Int64}
    (hwhole : (pthreadFunc n niterations).Whole (a.pc t) a.shared k x) :
    Counted niterations { a with shared := x, pc := Function.update a.pc t k } := by
  generalize hpc : a.pc t = k0 at hwhole
  obtain ⟨i, rfl⟩ : ∃ i, k0 = .head i := by
    obtain ⟨_, _, hlock, _⟩ := hwhole
    cases hlock with
    | lock => exact ⟨_, rfl⟩
  obtain ⟨rfl, hi, rfl⟩ := whole_section hwhole
  have hplaced : Placed niterations (Function.update a.pc t (.head (i + 1))) :=
    h.placed.update (by rw [hpc]; rfl) hi
  refine ⟨?_, hplaced⟩
  have hmove := tally_update (Pc.done niterations) a.pc t (.head (i + 1))
  rw [hpc] at hmove
  simp only [Pc.done] at hmove
  have hroom := hplaced.done_le
  have hresult := h.result
  dsimp only
  rw [toInt_increment (by omega) (by omega)]
  omega

end Counter

section Control
variable {n niterations : Nat} {s s' : World n} {l : Label (Option (Fin n))}

structure Inv (niterations : Nat) (s : World n) : Prop where
  placed : Placed niterations s.pc
  holder : ∀ t, s.holder = some t ↔ (s.pc t).inside = true
  unborn : ∀ w, s.env w = .unborn → s.pc (some w) = .start
  ended : ∀ w, s.env w = .ended ↔ s.pc (some w) = .returned
  main : MainOk s.env (s.pc none)

theorem inv_init : Inv niterations (init n) where
  placed := placed_init
  holder := by
    intro t
    cases t <;> exact ⟨nofun, nofun⟩
  unborn := fun _ _ => rfl
  ended := fun _ => ⟨nofun, nofun⟩
  main := ⟨Nat.zero_le n, fun _ => ⟨fun _ => Nat.zero_le _, fun _ => rfl⟩⟩

theorem holder_update {holder : Option (Option (Fin n))} {pc : Option (Fin n) → Pc}
    {t : Option (Fin n)} {k : Pc} (h : ∀ u, holder = some u ↔ (pc u).inside = true)
    (hk : k.inside = (pc t).inside) (u : Option (Fin n)) :
    holder = some u ↔ (update pc t k u).inside = true := by
  by_cases hu : u = t
  · rw [hu, update_self, hk, h]
  · rw [update_of_ne hu, h]

theorem Inv.main_step (h : Inv niterations s) {k : Pc} {e : Fin n → Status}
    (hmain : k.isMain = true) (hok : MainOk e k)
    (hunborn : ∀ w, e w = .unborn → s.env w = .unborn)
    (hended : ∀ w, e w = .ended ↔ s.env w = .ended) :
    Inv niterations { s with env := e, pc := update s.pc none k } := by
  have hrole := h.placed.role none
  have hk : k.inside = false ∧ k.Fits niterations := by
    cases k <;> cases hmain <;> exact ⟨rfl, trivial⟩
  have hold : (s.pc none).inside = false := by
    cases hpc : s.pc none <;> rw [hpc] at hrole <;> first | rfl | cases hrole
  refine ⟨h.placed.update (by rw [hmain, hrole]; rfl) hk.2,
    holder_update h.holder (by rw [hk.1, hold]), ?_, ?_, ?_⟩
  · intro w hw
    dsimp only
    rw [update_of_ne (Option.some_ne_none w)]
    exact h.unborn w (hunborn w hw)
  · intro w
    dsimp only
    rw [update_of_ne (Option.some_ne_none w), hended, h.ended]
  · dsimp only
    rw [update_self]
    exact hok

theorem Inv.worker_step (h : Inv niterations s) {w : Fin n} {k : Pc} {x : Int64}
    {holder : Option (Option (Fin n))} (hmain : k.isMain = false) (hfits : k.Fits niterations)
    (hholder : ∀ t, holder = some t ↔ (update s.pc (some w) k t).inside = true)
    (hborn : s.env w ≠ .unborn) (hgoing : s.pc (some w) ≠ .returned) (hk : k ≠ .returned) :
    Inv niterations { s with shared := x, holder := holder, pc := update s.pc (some w) k } := by
  refine ⟨h.placed.update (by rw [hmain, h.placed.role]; rfl) hfits, hholder, ?_, ?_, ?_⟩
  · intro v hv
    have he : v ≠ w := fun he => hborn (he ▸ hv)
    dsimp only
    rw [update_of_ne fun hsome => he (Option.some.inj hsome)]
    exact h.unborn v hv
  · intro v
    by_cases he : v = w
    · dsimp only
      rw [he, update_self, h.ended]
      exact ⟨fun hr => absurd hr hgoing, fun hr => absurd hr hk⟩
    · dsimp only
      rw [update_of_ne fun hsome => he (Option.some.inj hsome)]
      exact h.ended v
  · dsimp only
    rw [update_of_ne (Option.some_ne_none w).symm]
    exact h.main

theorem Placed.worker {pc : Option (Fin n) → Pc} (h : Placed niterations pc)
    {t : Option (Fin n)} (ht : (pc t).isMain = false) : ∃ w, t = some w := by
  rw [h.role] at ht
  exact Option.isSome_iff_exists.mp (Option.isNone_eq_false_iff.mp ht)

theorem Inv.finish (h : Inv niterations s) {w : Fin n} {i : Nat} (hpc : s.pc (some w) = .head i) :
    Inv niterations
      { s with env := update s.env w .ended, pc := update s.pc (some w) .returned } := by
  have hborn : s.env w ≠ .unborn := by
    intro hw
    rw [h.unborn w hw] at hpc
    cases hpc
  refine ⟨h.placed.update (by rw [hpc]; rfl) trivial,
    holder_update h.holder (by rw [hpc]; rfl), ?_, ?_, ?_⟩
  · intro v hv
    obtain ⟨_, he⟩ | ⟨he, hold⟩ := update_cases hv
    · cases he
    · dsimp only
      rw [update_of_ne fun hsome => he (Option.some.inj hsome)]
      exact h.unborn v hold
  · intro v
    by_cases he : v = w
    · simp [he]
    · dsimp only
      rw [update_of_ne he, update_of_ne fun hsome => he (Option.some.inj hsome)]
      exact h.ended v
  · dsimp only
    rw [update_of_ne (Option.some_ne_none w).symm]
    have hmain := h.main
    -- a worker that ends was there, so what `main` has created and joined stays
    have hmore : ∀ v, update s.env w .ended v = .unborn ↔ s.env v = .unborn := by
      intro v
      by_cases he : v = w
      · rw [he, update_self]
        exact ⟨nofun, fun hw => absurd hw hborn⟩
      · rw [update_of_ne he]
    have hstays : ∀ v, s.env v = .ended → update s.env w .ended v = .ended := by
      intro v hv
      by_cases he : v = w
      · rw [he, update_self]
      · rw [update_of_ne he, hv]
    cases hp : s.pc none <;> rw [hp] at hmain
    case creating j => exact ⟨hmain.1, fun v => (hmore v).trans (hmain.2 v)⟩
    case joining j =>
      exact ⟨hmain.1, fun v hv => hmain.2.1 v ((hmore v).mp hv),
        fun v hv => hstays v (hmain.2.2 v hv)⟩
    case printing => exact fun v => hstays v (hmain v)
    all_goals trivial

theorem Inv.inside (h : Inv niterations s) {t : Option (Fin n)} {k : Pc} {x : Int64}
    (hheld : s.holder = some t) (hin : Inside (s.pc t, s.shared) (k, x)) :
    Inv niterations { s with shared := x, pc := update s.pc t k } := by
  have hfits := h.placed.fits t
  have hplace : (s.pc t).isMain = false ∧ s.pc t ≠ .start ∧ s.pc t ≠ .returned ∧
      k.isMain = false ∧ k ≠ .returned ∧ k.inside = (s.pc t).inside ∧ k.Fits niterations := by
    generalize s.pc t = k0 at hin hfits
    cases hin with
    | read | add | store => exact ⟨rfl, nofun, nofun, rfl, nofun, rfl, hfits⟩
  obtain ⟨hmain, hstart, hgoing, hkmain, hk, hinside, hkfits⟩ := hplace
  obtain ⟨w, rfl⟩ := h.placed.worker hmain
  have hborn : s.env w ≠ .unborn := fun hw => hstart (h.unborn w hw)
  exact h.worker_step hkmain hkfits (holder_update h.holder hinside) hborn hgoing hk

theorem holder_move {holder : Option (Option (Fin n))} {pc : Option (Fin n) → Pc}
    {t : Option (Fin n)} {k : Pc} (h : ∀ u, holder = some u ↔ (pc u).inside = true)
    (ht : holder = none ∨ holder = some t) (u : Option (Fin n)) :
    (if k.inside then some t else none) = some u ↔ (update pc t k u).inside = true := by
  by_cases hu : u = t
  · rw [hu, update_self]
    cases k.inside <;> simp
  · have hother : (pc u).inside ≠ true := by
      intro hin
      have hheld := (h u).mpr hin
      obtain hfree | hself := ht
      · rw [hfree] at hheld
        cases hheld
      · rw [hself] at hheld
        exact hu (Option.some.inj hheld).symm
    rw [update_of_ne hu]
    refine ⟨?_, fun hin => absurd hin hother⟩
    intro hsome
    split at hsome
    · exact absurd (Option.some.inj hsome).symm hu
    · cases hsome

theorem Inv.outside (h : Inv niterations s) {t : Option (Fin n)} {k : Pc} {e : Fin n → Status}
    (hout : Outside n niterations t (s.pc t) s.env k e) :
    Inv niterations { s with env := e, pc := update s.pc t k } := by
  have hmain := h.main
  generalize hp : s.pc t = k0 at hout
  generalize henv : s.env = e0 at hout
  cases hout with
  | @create i e0 hi =>
    rw [hp] at hmain
    obtain ⟨_, hborn⟩ := hmain
    have hnew : s.env ⟨i, hi⟩ = .unborn := (hborn ⟨i, hi⟩).mpr le_rfl
    subst henv
    refine h.main_step rfl ⟨hi, ?_⟩ ?_ ?_
    · intro w
      by_cases hw : w = ⟨i, hi⟩
      · rw [hw, update_self]
        exact ⟨nofun, fun hle => absurd hle (Nat.not_succ_le_self i)⟩
      · have hne : w.val ≠ i := fun he => hw (Fin.ext he)
        rw [update_of_ne hw, hborn]
        omega
    · intro w hw
      obtain ⟨_, he⟩ | ⟨_, hold⟩ := update_cases hw
      · cases he
      · exact hold
    · intro w
      by_cases hw : w = ⟨i, hi⟩
      · rw [hw, update_self, hnew]
        exact ⟨nofun, nofun⟩
      · rw [update_of_ne hw]
  | created =>
    rw [hp] at hmain
    obtain ⟨_, hborn⟩ := hmain
    subst henv
    refine h.main_step rfl ⟨Nat.zero_le n, ?_, nofun⟩ (fun _ => id) fun _ => Iff.rfl
    intro w hw
    exact absurd ((hborn w).mp hw) (Nat.not_le.mpr w.isLt)
  | @join i e0 hi hjoined =>
    rw [hp] at hmain
    obtain ⟨_, hborn, hbefore⟩ := hmain
    subst henv
    refine h.main_step rfl ⟨hi, hborn, ?_⟩ (fun _ => id) fun _ => Iff.rfl
    intro w hw
    obtain hlt | heq := Nat.lt_or_eq_of_le (Nat.lt_succ_iff.mp hw)
    · exact hbefore w hlt
    · have hself : w = ⟨i, hi⟩ := Fin.ext heq
      rw [hself, hjoined]
  | joined =>
    rw [hp] at hmain
    subst henv
    exact h.main_step rfl (fun w => hmain.2.2 w w.isLt) (fun _ => id) fun _ => Iff.rfl
  | @begin w e0 hrun =>
    subst henv
    have hborn : s.env w ≠ .unborn := by
      rw [hrun]
      exact nofun
    exact h.worker_step rfl (Nat.zero_le _) (holder_update h.holder (by rw [hp]; rfl)) hborn
      (by rw [hp]; exact nofun) nofun
  | finish =>
    subst henv
    exact h.finish hp

theorem step_inv (hstep : Step (pthreadFunc n niterations) s l s') (h : Inv niterations s) :
    Inv niterations s' := by
  cases hstep with
  | outside _ hout => exact h.outside hout
  | inside hheld hin => exact h.inside hheld hin
  | @lock t k hfree hlock =>
    generalize hp : s.pc t = k0 at hlock
    cases hlock with
    | @lock i hi =>
      obtain ⟨w, rfl⟩ := h.placed.worker (t := t) (by rw [hp]; rfl)
      have hborn : s.env w ≠ .unborn := by
        intro hw
        rw [h.unborn w hw] at hp
        cases hp
      exact h.worker_step rfl hi (holder_move (k := .locked i) h.holder (Or.inl hfree))
        hborn (by rw [hp]; exact nofun) nofun
  | @unlock t k hheld hunlock =>
    have hfits := h.placed.fits t
    generalize hp : s.pc t = k0 at hunlock hfits
    cases hunlock with
    | @unlock i =>
      obtain ⟨w, rfl⟩ := h.placed.worker (t := t) (by rw [hp]; rfl)
      have hborn : s.env w ≠ .unborn := by
        intro hw
        rw [h.unborn w hw] at hp
        cases hp
      exact h.worker_step rfl hfits (holder_move (k := .head (i + 1)) h.holder (Or.inr hheld))
        hborn (by rw [hp]; exact nofun) nofun

theorem step_ahead (hstep : Step (pthreadFunc n niterations) s l s') (h : Inv niterations s) :
    tally (Pc.weight n niterations) s'.pc + 1 ≤ tally (Pc.weight n niterations) s.pc := by
  have hmoves : ∃ t k, s'.pc = update s.pc t k ∧
      k.weight n niterations + 1 ≤ (s.pc t).weight n niterations := by
    cases hstep with
    | @outside t k e _ hout =>
      refine ⟨t, k, rfl, ?_⟩
      generalize s.pc t = k0 at hout
      generalize s.env = e0 at hout
      cases hout <;> simp only [Pc.weight] <;> omega
    | @lock t k _ hlock =>
      refine ⟨t, k, rfl, ?_⟩
      generalize s.pc t = k0 at hlock
      cases hlock with
      | lock hi => exact le_rfl
    | @inside t k x _ hin =>
      refine ⟨t, k, rfl, ?_⟩
      have hfits := h.placed.fits t
      generalize s.pc t = k0 at hin hfits
      cases hin <;> simp only [Pc.weight, Pc.Fits] at hfits ⊢ <;> omega
    | @unlock t k _ hunlock =>
      refine ⟨t, k, rfl, ?_⟩
      have hfits := h.placed.fits t
      generalize s.pc t = k0 at hunlock hfits
      cases hunlock
      simp only [Pc.weight, Pc.Fits] at hfits ⊢
      omega
  obtain ⟨t, k, hpc, hlt⟩ := hmoves
  have hmove := tally_update (Pc.weight n niterations) s.pc t k
  rw [hpc]
  omega

theorem Inv.holder_goes_on (h : Inv niterations s) {t : Option (Fin n)}
    (hheld : s.holder = some t) : ∃ l s', Step (pthreadFunc n niterations) s l s' := by
  have hin := (h.holder t).mp hheld
  cases hp : s.pc t with
  | locked i => exact ⟨_, _, Step.inside hheld (hp ▸ Inside.read)⟩
  | read i temp => exact ⟨_, _, Step.inside hheld (hp ▸ Inside.add)⟩
  | added i temp => exact ⟨_, _, Step.inside hheld (hp ▸ Inside.store)⟩
  | stored i => exact ⟨_, _, Step.unlock hheld (hp ▸ Unlock.unlock)⟩
  | creating | joining | printing | start | head | returned =>
    rw [hp] at hin
    cases hin

theorem Inv.worker_goes_on (h : Inv niterations s) (hfree : s.holder = none) {w : Fin n}
    (hborn : s.env w ≠ .unborn) (hend : s.env w ≠ .ended) :
    ∃ l s', Step (pthreadFunc n niterations) s l s' := by
  have hnot : s.holder ≠ some (some w) := by
    rw [hfree]
    exact nofun
  have hout : (s.pc (some w)).inside ≠ true := fun hin => hnot ((h.holder _).mpr hin)
  have hgoing : s.pc (some w) ≠ .returned := fun hr => hend ((h.ended w).mpr hr)
  have hrole := h.placed.role (some w)
  cases hp : s.pc (some w) with
  | start =>
    have hrun : s.env w = .running := by
      cases he : s.env w with
      | running => rfl
      | unborn => exact absurd he hborn
      | ended => exact absurd he hend
    exact ⟨_, _, Step.outside hnot (hp ▸ Outside.begin hrun)⟩
  | head i =>
    by_cases hi : i < niterations
    · exact ⟨_, _, Step.lock hfree (hp ▸ Lock.lock hi)⟩
    · exact ⟨_, _, Step.outside hnot (hp ▸ Outside.finish hi)⟩
  | returned => exact absurd hp hgoing
  | locked | read | added | stored =>
    rw [hp] at hout
    exact absurd rfl hout
  | creating | joining | printing =>
    rw [hp] at hrole
    cases hrole

theorem Inv.goes_on (h : Inv niterations s) (hnot : s.pc none ≠ .printing) :
    ∃ l s', Step (pthreadFunc n niterations) s l s' := by
  cases hheld : s.holder with
  | some t => exact h.holder_goes_on hheld
  | none =>
    have hmain := h.main
    have hrole := h.placed.role none
    have hself : s.holder ≠ some none := by
      rw [hheld]
      exact nofun
    cases hp : s.pc none with
    | printing => exact absurd hp hnot
    | creating i =>
      rw [hp] at hmain
      obtain hlt | rfl := Nat.lt_or_eq_of_le hmain.1
      · exact ⟨_, _, Step.outside hself (hp ▸ Outside.create hlt)⟩
      · exact ⟨_, _, Step.outside hself (hp ▸ Outside.created)⟩
    | joining i =>
      rw [hp] at hmain
      obtain hlt | rfl := Nat.lt_or_eq_of_le hmain.1
      · by_cases hend : s.env ⟨i, hlt⟩ = .ended
        · exact ⟨_, _, Step.outside hself (hp ▸ Outside.join hlt hend)⟩
        · exact h.worker_goes_on hheld (hmain.2.1 ⟨i, hlt⟩) hend
      · exact ⟨_, _, Step.outside hself (hp ▸ Outside.joined)⟩
    | start | head | locked | read | added | stored | returned =>
      rw [hp] at hrole
      cases hrole

theorem Inv.printing (h : Inv niterations s) (hprint : s.pc none = .printing) :
    (∀ w, s.pc (some w) = .returned) ∧ s.holder = none := by
  have hmain := h.main
  rw [hprint] at hmain
  have hall : ∀ w, s.pc (some w) = .returned := fun w => (h.ended w).mp (hmain w)
  refine ⟨hall, ?_⟩
  by_contra hheld
  obtain ⟨t, ht⟩ := Option.ne_none_iff_exists'.mp hheld
  have hin := (h.holder t).mp ht
  cases t with
  | none =>
    rw [hprint] at hin
    cases hin
  | some w =>
    rw [hall w] at hin
    cases hin

theorem Inv.total (h : Inv niterations s) (hprint : s.pc none = .printing) :
    tally (Pc.done niterations) s.pc = n * niterations := by
  obtain ⟨hall, _⟩ := h.printing hprint
  unfold tally
  rw [Fintype.sum_option, hprint, Finset.sum_congr rfl fun w _ => by rw [hall w]]
  rw [Finset.sum_const_nat fun _ _ => rfl, Finset.card_univ, Fintype.card_fin]
  exact Nat.zero_add _

end Control

section Result
variable {n niterations : Nat}

/-- Any number of threads that make so many iterations each that an `int` holds the number of all:
in any order of the single statements, `main` prints this number; and whenever nobody holds the
mutex, `result` is the number of the sections that are behind. -/
theorem no_update_lost (hfit : n * niterations < 2 ^ 31) :
    Returns (Step (pthreadFunc n niterations)) (init n) (fun _ => false) printed
        (n * niterations : Nat) ∧
      ∀ ls s, Runs (Step (pthreadFunc n niterations)) (init n) ls s → s.holder = none →
        s.shared.toInt = tally (Pc.done niterations) s.pc := by
  have hkeep : ∀ (a : World n) l b, Inv niterations a → Step (pthreadFunc n niterations) a l b →
      Inv niterations b := fun a l b ha h => step_inv h ha
  have hcount : ∀ ls s, Runs (Step (pthreadFunc n niterations)) (init n) ls s →
      s.holder = none → Counted niterations s := by
    intro ls s hrun hfree
    apply invariant_of_atomic hrun rfl hfree counted_init
    intro a l b ha hstep
    cases hstep with
    | outside hout => exact ha.outside hout
    | whole hwhole => exact ha.whole hfit hwhole
  refine ⟨⟨?_, ?_, ?_⟩, fun ls s hrun hfree => (hcount ls s hrun hfree).result⟩
  · intro ls s x hrun hx
    have hi := hrun.invariant inv_init hkeep
    unfold printed at hx
    split at hx
    · rename_i hprint
      rw [← Option.some.inj hx, (hcount ls s hrun (hi.printing hprint).2).result, hi.total hprint]
    · cases hx
  · intro ls s hrun hnone
    have hnot : s.pc none ≠ .printing := by
      intro hprint
      rw [printed, if_pos hprint] at hnone
      cases hnone
    obtain ⟨l, s', hstep⟩ := (hrun.invariant inv_init hkeep).goes_on hnot
    exact ⟨l, s', hstep, rfl⟩
  · exact bounded_of_invariant (c := 0) inv_init hkeep fun a l b ha h => step_ahead h ha

/-- The ten threads of ten million iterations. -/
theorem no_update_lost_ten :
    Returns (Step (pthreadFunc 10 10000000)) (init 10) (fun _ => false) printed 100000000 :=
  (@no_update_lost 10 10000000 (by decide)).1

end Result

end OsCourse.Race
