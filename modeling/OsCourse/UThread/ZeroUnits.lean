import OsCourse.UThread.Batch

/-! Requests for no units. `sem_wait` lets one pass whenever nobody waits, but the loop
of `sem_post` ends when the units are used up and leaves such a request asleep. -/
namespace OsCourse.UThread
open Greedy Ints Transition

/-- The test of the fast path of `sem_wait` refuses the request of the first waiter. -/
def Semaphore.HeadRefused (sem : Semaphore) : Prop :=
  ∀ wb ∈ sem.waiters.head?, ¬ sem.units ≥ wb.units

theorem headRefused_cons {wb : SemaphoreWaitblock} {wbs : List SemaphoreWaitblock}
    {sem : Semaphore} :
    Semaphore.HeadRefused { sem with waiters := wb :: wbs } ↔ ¬ wb.size ≤ sem.units.toInt := by
  simp [Semaphore.HeadRefused, SemaphoreWaitblock.size, Int32.le_iff_toInt_le]

/-- What the loop leaves at the head would be refused, unless a request for no units
stands where the units are used up. -/
theorem semPostLoop_headRefused (wbs : List SemaphoreWaitblock) (sem : Semaphore) (s : Sched)
    (hs : ∀ wb ∈ wbs, 0 ≤ wb.size) : (semPostLoop wbs sem s).1.HeadRefused ↔
      ¬ UsedUp SemaphoreWaitblock.size sem.units.toInt wbs := by
  induction wbs generalizing sem s with
  | nil => simp [semPostLoop, Semaphore.HeadRefused, not_usedUp_nil]
  | cons wb wbs ih =>
    have hwb : 0 ≤ wb.size := hs wb (by simp)
    have hwbs : ∀ x ∈ wbs, 0 ≤ x.size := fun x hx => hs x (List.mem_cons_of_mem wb hx)
    obtain ⟨hshort, hstop⟩ | ⟨hpos, hle, sem', hunits, -, hserve⟩ :=
      semPostLoop_cons wbs sem s hwb
    · rw [hstop, headRefused_cons]
      cases hshort with
      | inl hnone => rw [usedUp_of_nonpos hs hnone]
      | inr hsize =>
        rw [usedUp_cons]
        constructor
        · intro _ hused
          cases hused with
          | inl hfirst => omega
          | inr hbehind =>
            have hleft := usedUp_nonneg hwbs hbehind
            omega
        · intro _
          omega
    · have hnot : ¬ (wb.size = 0 ∧ sem.units.toInt = 0) := by omega
      rw [hserve, ih _ _ hwbs, usedUp_cons, hunits]
      simp only [hnot, false_or]

/-- A waiter asks for no units and those before it for just what `sem_post(p)` makes of
the units: all of the sum, or what the limit leaves of it. -/
def Semaphore.Stranded (sem : Semaphore) (p : Int32) : Prop :=
  sem.units.toInt + p.toInt ≤ Int32.maxValue.toInt ∧
    UsedUp SemaphoreWaitblock.size (min (sem.units.toInt + p.toInt) sem.limit.toInt)
      sem.waiters

theorem semPostUnits_wrapped {sem : Semaphore} {p : Int32}
    (hover : Int32.maxValue.toInt < sem.units.toInt + p.toInt) :
    (semPostUnits sem p).units.toInt < 0 := by
  have hu := Int32.toInt_lt sem.units
  have hp := Int32.toInt_lt p
  have hsum := toInt_add_of_over hover
  have hneg : (sem.units + p).toInt < 0 := by omega
  rw [semPostUnits_min]
  omega

theorem semPost_headRefused {sem : Semaphore} {p : Int32} (s : Sched) (hp : 0 ≤ p.toInt)
    (hs : ∀ wb ∈ sem.waiters, 0 ≤ wb.size) :
    (semPost sem p s).1.HeadRefused ↔ ¬ sem.Stranded p := by
  have hloop := semPostLoop_headRefused sem.waiters (semPostUnits sem p) s hs
  unfold Semaphore.Stranded
  by_cases hfit : sem.units.toInt + p.toInt ≤ Int32.maxValue.toInt
  · rw [semPostUnits_toInt hp hfit] at hloop
    simp only [hfit, true_and]
    exact hloop
  · have hneg := semPostUnits_wrapped (not_le.mp hfit)
    have hnot : ¬ UsedUp SemaphoreWaitblock.size (semPostUnits sem p).units.toInt
        sem.waiters := by
      intro hused
      have hnonneg := usedUp_nonneg hs hused
      omega
    simp only [hfit, false_and, not_false_eq_true, iff_true]
    exact hloop.mpr hnot

/-- Semaphore `i` is asked for, and given, no negative number of units. -/
def Op.Nonneg (i : Nat) : Op → Prop
  | .semWait j n => j = i → 0 ≤ n.toInt
  | .semPost j p => j = i → 0 ≤ p.toInt
  | _ => True

instance (i : Nat) (op : Op) : Decidable (op.Nonneg i) :=
  match op with
  | .semWait j n => inferInstanceAs (Decidable (j = i → 0 ≤ n.toInt))
  | .semPost j p => inferInstanceAs (Decidable (j = i → 0 ≤ p.toInt))
  | .utCreate _ | .utYield | .utExit | .utDeactivate | .utActivate _ | .utRun | .eventWait _
  | .eventSet _ | .autoEventWait _ | .autoEventSet _ | .ret => isTrue trivial

def NonnegStep (i : Nat) (w : World) (op : Op) (w' : World) : Prop :=
  Step w op w' ∧ op.Nonneg i

/-- No `sem_post` strands a request for no units. -/
def PlainStep (i : Nat) (w : World) (op : Op) (w' : World) : Prop :=
  NonnegStep i w op w' ∧ ∀ p, op = .semPost i p → ¬ (w.sems i).Stranded p

/-- Every `sem_post` releases all at the head that `sem_wait` would let pass. -/
def ReleasingStep (i : Nat) (w : World) (op : Op) (w' : World) : Prop :=
  NonnegStep i w op w' ∧ ∀ p, op = .semPost i p → (w'.sems i).HeadRefused

theorem nonneg_step {i : Nat} {op : Op} {w w' : World} (h : NonnegStep i w op w')
    (hw : ∀ wb ∈ (w.sems i).waiters, 0 ≤ wb.size) :
    ∀ wb ∈ (w'.sems i).waiters, 0 ≤ wb.size := by
  obtain ⟨hs, huse⟩ := h
  by_cases ht : op.touches = some (.sem i)
  · cases op with
    | semWait j n =>
      cases ht
      obtain ⟨_, _, _, he⟩ | ⟨t, _, _, _, he⟩ := semWait_cases (semWait_step hs)
      · rw [he]
        exact hw
      · rw [he]
        intro wb hwb
        cases List.mem_append.mp hwb with
        | inl hold => exact hw wb hold
        | inr hnew =>
          rw [List.mem_singleton.mp hnew]
          exact huse rfl
    | semPost j p =>
      cases ht
      have hpost : w'.sems i = (semPost (w.sems i) p w.sched).1 :=
        congrArg Prod.fst (semPost_step hs)
      obtain ⟨served, rest, hall, hrest, _⟩ :=
        semPostLoop_spec (w.sems i).waiters (semPostUnits (w.sems i) p) w.sched
      intro wb hwb
      apply hw
      rw [hall]
      apply List.mem_append_right
      rw [hpost] at hwb
      exact hrest ▸ hwb
    | _ => simp [Op.touches] at ht
  · rw [(step_frame hs).1 i ht]
    exact hw

theorem semPost_step_headRefused {i : Nat} {p : Int32} {w w' : World}
    (h : NonnegStep i w (.semPost i p) w') (hw : ∀ wb ∈ (w.sems i).waiters, 0 ≤ wb.size) :
    (w'.sems i).HeadRefused ↔ ¬ (w.sems i).Stranded p := by
  have hpost : w'.sems i = (semPost (w.sems i) p w.sched).1 :=
    congrArg Prod.fst (semPost_step h.1)
  rw [hpost]
  exact semPost_headRefused w.sched (h.2 rfl) hw

/-- The runs in which no post strands a request for no units are those in which every
post leaves only a first waiter that `sem_wait` would refuse. -/
theorem semPost_releases (c : Config) (i : Nat) (ops : List Op) (w : World) :
    Runs (PlainStep i) (World.init c) ops w ↔ Runs (ReleasingStep i) (World.init c) ops w := by
  have hinit : ∀ wb ∈ ((World.init c).sems i).waiters, 0 ≤ wb.size := by
    intro wb hwb
    cases hwb
  apply Runs.iff_of (P := fun w => ∀ wb ∈ (w.sems i).waiters, 0 ≤ wb.size)
    (Q := fun w => ∀ wb ∈ (w.sems i).waiters, 0 ≤ wb.size) hinit hinit
  · intro a op b ha hstep
    refine ⟨⟨hstep.1, ?_⟩, nonneg_step hstep.1 ha⟩
    intro p hp
    subst hp
    exact (semPost_step_headRefused hstep.1 ha).mpr (hstep.2 p rfl)
  · intro a op b ha hstep
    refine ⟨⟨hstep.1, ?_⟩, nonneg_step hstep.1 ha⟩
    intro p hp
    subst hp
    exact (semPost_step_headRefused hstep.1 ha).mp (hstep.2 p rfl)

/-- One thread waits for two units and another, behind it, for none. The post of two
units serves the first and leaves the second, which `sem_wait` would let pass. -/
theorem semPost_strands : ∃ w,
    Runs (NonnegStep 0) (World.init ⟨fun _ => false, fun _ => 0, fun _ => 2⟩)
      [.utCreate 1, .utCreate 2, .utCreate 3, .utRun, .semWait 0 2, .semWait 0 0, .semPost 0 2]
      w ∧
    ¬ (w.sems 0).HeadRefused ∧ (w.sems 0).waiters = [⟨⟨2⟩, 0⟩] ∧ (w.sems 0).units = 0 := by
  have hrun := runs_of_runAll (fun w op => Allowed w op ∧ op.Nonneg 0) exec
    [.utCreate 1, .utCreate 2, .utCreate 3, .utRun, .semWait 0 2, .semWait 0 0, .semPost 0 2]
    (World.init ⟨fun _ => false, fun _ => 0, fun _ => 2⟩) rfl
  have huse : Runs (NonnegStep 0) _ _ _ := hrun.mono fun _ _ _ h => ⟨⟨h.1.1, h.2⟩, h.1.2⟩
  refine ⟨_, huse, ?_, rfl, rfl⟩
  intro hrefused
  exact hrefused ⟨⟨2⟩, 0⟩ rfl (by decide)

end OsCourse.UThread
