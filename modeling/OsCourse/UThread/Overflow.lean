import OsCourse.UThread.ZeroUnits

/-! The sum of `sem_post` in `int`. Cut at the limit, the units fit in `int` again, but the
sum is formed before it is compared with the limit. -/
namespace OsCourse.UThread
open Ints Transition

/-- The units are between zero and the limit, and no waiter asks for a negative number. -/
structure Semaphore.InRange (sem : Semaphore) : Prop where
  nonneg : 0 ≤ sem.units.toInt
  le_limit : sem.units.toInt ≤ sem.limit.toInt
  sizes : ∀ wb ∈ sem.waiters, 0 ≤ wb.size

/-- No `sem_post` of semaphore `i` adds up to more than an `int` holds. -/
def FitsStep (i : Nat) (w : World) (op : Op) (w' : World) : Prop :=
  NonnegStep i w op w' ∧ ∀ p, op = .semPost i p →
    (w.sems i).units.toInt + p.toInt ≤ Int32.maxValue.toInt

/-- What `sem_post` stores before it serves waiters is the sum of the integers, cut at the
limit, and no call takes the units out of their range. -/
def ExactStep (i : Nat) (w : World) (op : Op) (w' : World) : Prop :=
  NonnegStep i w op w' ∧
    (∀ p, op = .semPost i p → (semPostUnits (w.sems i) p).units.toInt =
      min ((w.sems i).units.toInt + p.toInt) (w.sems i).limit.toInt) ∧
    0 ≤ (w'.sems i).units.toInt ∧ (w'.sems i).units.toInt ≤ (w'.sems i).limit.toInt

theorem semPostLoop_units (wbs : List SemaphoreWaitblock) (sem : Semaphore) (s : Sched)
    (hs : ∀ wb ∈ wbs, 0 ≤ wb.size) (hu : 0 ≤ sem.units.toInt) :
    0 ≤ (semPostLoop wbs sem s).1.units.toInt ∧
      (semPostLoop wbs sem s).1.units.toInt ≤ sem.units.toInt := by
  induction wbs generalizing sem s with
  | nil => exact ⟨hu, le_rfl⟩
  | cons wb wbs ih =>
    have hwb : 0 ≤ wb.size := hs wb List.mem_cons_self
    have hwbs : ∀ x ∈ wbs, 0 ≤ x.size := fun x hx => hs x (List.mem_cons_of_mem wb hx)
    obtain ⟨-, hstop⟩ | ⟨-, hle, sem', hunits, -, hserve⟩ := semPostLoop_cons wbs sem s hwb
    · rw [hstop]
      exact ⟨hu, le_rfl⟩
    · obtain ⟨hlow, hhigh⟩ := ih sem' (utActivate wb.header.thread s) hwbs (by omega)
      rw [hserve]
      exact ⟨hlow, by omega⟩

theorem Semaphore.InRange.post {sem : Semaphore} {p : Int32} (hr : sem.InRange)
    (hp : 0 ≤ p.toInt) (hfit : sem.units.toInt + p.toInt ≤ Int32.maxValue.toInt) (s : Sched) :
    0 ≤ (semPost sem p s).1.units.toInt ∧
      (semPost sem p s).1.units.toInt ≤ (semPost sem p s).1.limit.toInt := by
  have hstored := semPostUnits_toInt hp hfit
  have hunits := hr.nonneg
  have hlimit := hr.le_limit
  obtain ⟨_, _, _, _, hkeep, _⟩ := semPostLoop_spec sem.waiters (semPostUnits sem p) s
  have hloop := semPostLoop_units sem.waiters (semPostUnits sem p) s hr.sizes (by omega)
  unfold semPost
  rw [hkeep, semPostUnits_limit]
  omega

/-- A sum that does not fit comes out negative, and the limit does not cut it. -/
theorem Semaphore.InRange.fits {sem : Semaphore} {p : Int32} (hr : sem.InRange)
    (hp : 0 ≤ p.toInt) (hexact : (semPostUnits sem p).units.toInt =
      min (sem.units.toInt + p.toInt) sem.limit.toInt) :
    sem.units.toInt + p.toInt ≤ Int32.maxValue.toInt := by
  by_contra hover
  have hneg := semPostUnits_wrapped (not_le.mp hover)
  have hunits := hr.nonneg
  have hlimit := hr.le_limit
  omega

theorem Semaphore.InRange.wait {sem sem' : Semaphore} {n : Int32} {s s' : Sched}
    (hr : sem.InRange) (hn : 0 ≤ n.toInt) (hwait : semWait sem n s = .ok (sem', s')) :
    0 ≤ sem'.units.toInt ∧ sem'.units.toInt ≤ sem'.limit.toInt := by
  have hunits := hr.nonneg
  have hlimit := hr.le_limit
  obtain ⟨_, hle, _, rfl⟩ | ⟨_, _, _, _, rfl⟩ := semWait_cases hwait
  · have hunits' := Int32.le_iff_toInt_le.mp hle
    have hsub := toInt_sub_of_fits hn hunits'
    dsimp only
    omega
  · exact ⟨hunits, hlimit⟩

theorem FitsStep.inRange {i : Nat} {op : Op} {w w' : World} (h : FitsStep i w op w')
    (hr : (w.sems i).InRange) : (w'.sems i).InRange := by
  obtain ⟨hstep, hfit⟩ := h
  have hsizes := nonneg_step hstep hr.sizes
  suffices hunits : 0 ≤ (w'.sems i).units.toInt ∧
      (w'.sems i).units.toInt ≤ (w'.sems i).limit.toInt from ⟨hunits.1, hunits.2, hsizes⟩
  by_cases ht : op.touches = some (.sem i)
  · cases op with
    | semWait j n =>
      cases ht
      exact hr.wait (hstep.2 rfl) (semWait_step hstep.1)
    | semPost j p =>
      cases ht
      have hpost : w'.sems i = (semPost (w.sems i) p w.sched).1 :=
        congrArg Prod.fst (semPost_step hstep.1)
      rw [hpost]
      exact hr.post (hstep.2 rfl) (hfit p rfl) w.sched
    | _ => simp [Op.touches] at ht
  · rw [(step_frame hstep.1).1 i ht]
    exact ⟨hr.nonneg, hr.le_limit⟩

/-- The runs in which every sum fits in `int` are those in which the arithmetic of the
semaphore is that of the integers. -/
theorem exact_iff (c : Config) (i : Nat) (h0 : 0 ≤ (c.semUnits i).toInt)
    (h1 : (c.semUnits i).toInt ≤ (c.semLimit i).toInt) (ops : List Op) (w : World) :
    Runs (FitsStep i) (World.init c) ops w ↔ Runs (ExactStep i) (World.init c) ops w := by
  have hinit : ((World.init c).sems i).InRange := ⟨h0, h1, fun wb hwb => by cases hwb⟩
  apply Runs.iff_of (P := fun w => (w.sems i).InRange) (Q := fun w => (w.sems i).InRange)
    hinit hinit
  · intro a op b ha hstep
    have hb := hstep.inRange ha
    refine ⟨⟨hstep.1, ?_, hb.nonneg, hb.le_limit⟩, hb⟩
    rintro p rfl
    exact semPostUnits_toInt (hstep.1.2 rfl) (hstep.2 p rfl)
  · intro a op b ha hstep
    have hfits : FitsStep i a op b := by
      refine ⟨hstep.1, ?_⟩
      rintro p rfl
      exact ha.fits (hstep.1.2 rfl) (hstep.2.1 p rfl)
    exact ⟨hfits, hfits.inRange ha⟩

/-- Three units are posted to a semaphore of one, under a limit of two. -/
theorem exact_iff_cut : ∃ w, Runs (ExactStep 0)
    (World.init ⟨fun _ => false, fun _ => 1, fun _ => 2⟩) [.semPost 0 3] w := by
  have hstep : FitsStep 0 (World.init ⟨fun _ => false, fun _ => 1, fun _ => 2⟩) (.semPost 0 3) _ :=
    ⟨⟨⟨by decide, rfl⟩, by decide⟩, fun p hp => by cases hp; decide⟩
  have hrun := Runs.single hstep
  exact ⟨_, (exact_iff _ 0 (by decide) (by decide) _ _).mp hrun⟩

/-- The largest post makes one unit the most negative number, under the largest limit. -/
theorem semPost_overflows : ¬∀ (c : Config) (i : Nat) (ops : List Op) (w : World),
    0 ≤ (c.semUnits i).toInt → (c.semUnits i).toInt ≤ (c.semLimit i).toInt →
    Runs (NonnegStep i) (World.init c) ops w → Runs (ExactStep i) (World.init c) ops w := by
  intro hall
  have hstep : NonnegStep 0 (World.init ⟨fun _ => false, fun _ => 1, fun _ => Int32.maxValue⟩)
      (.semPost 0 Int32.maxValue) _ := ⟨⟨by decide, rfl⟩, by decide⟩
  have hrun : Runs (ExactStep 0) _ ([] ++ [_]) _ :=
    hall _ 0 _ _ (by decide) (by decide) (Runs.single hstep)
  obtain ⟨a, hnone, -, hexact, -⟩ := hrun.snoc_inv
  cases hnone.nil_inv
  exact absurd (hexact Int32.maxValue rfl) (by decide)

end OsCourse.UThread
