import OsCourse.Lib.Greedy
import OsCourse.UThread.Semaphore

/-! One `sem_post` against two: the units are added up front and cut at the limit, so
what the first of two posts hands out makes room for the second. -/
namespace OsCourse.UThread
open Greedy Ints Transition

def SemaphoreWaitblock.size (wb : SemaphoreWaitblock) : Int := wb.units.toInt

/-- What one pass of the loop of `sem_post` does: it stops at the first request, or serves it
and goes on with what is left. -/
theorem semPostLoop_cons {wb : SemaphoreWaitblock} (wbs : List SemaphoreWaitblock)
    (sem : Semaphore) (s : Sched) (hwb : 0 ≤ wb.size) :
    ((sem.units.toInt ≤ 0 ∨ sem.units.toInt < wb.size) ∧
      semPostLoop (wb :: wbs) sem s = ({ sem with waiters := wb :: wbs }, s)) ∨
    (0 < sem.units.toInt ∧ wb.size ≤ sem.units.toInt ∧ ∃ sem' : Semaphore,
      sem'.units.toInt = sem.units.toInt - wb.size ∧ sem'.limit = sem.limit ∧
      semPostLoop (wb :: wbs) sem s = semPostLoop wbs sem' (utActivate wb.header.thread s)) := by
  by_cases hu : sem.units > 0
  · have hpos := Int32.lt_iff_toInt_lt.mp hu
    rw [Int32.toInt_zero] at hpos
    by_cases hlt : sem.units < wb.units
    · exact Or.inl ⟨Or.inr (Int32.lt_iff_toInt_lt.mp hlt), by simp [semPostLoop, hu, hlt]⟩
    · have hle := hlt
      rw [Int32.lt_iff_toInt_lt, not_lt] at hle
      have hsub : (sem.units - wb.units).toInt = sem.units.toInt - wb.size :=
        toInt_sub_of_fits hwb hle
      refine Or.inr ⟨hpos, hle,
        { sem with
          units := sem.units - wb.units
          log := sem.log ++ [.granted (some (.user wb.header.thread)) wb.units,
            .activated wb.header.thread] }, hsub, rfl, ?_⟩
      simp only [semPostLoop, hu, hlt, if_true, if_false]
  · have hnone := hu
    rw [gt_iff_lt, Int32.lt_iff_toInt_lt, Int32.toInt_zero, not_lt] at hnone
    exact Or.inl ⟨Or.inl hnone, by simp [semPostLoop, hu]⟩

theorem semPostLoop_serves (wbs : List SemaphoreWaitblock) (sem : Semaphore) (s : Sched)
    (hpos : ∀ wb ∈ wbs, 1 ≤ wb.size) :
    (semPostLoop wbs sem s).1.units.toInt = left SemaphoreWaitblock.size sem.units.toInt wbs ∧
    (semPostLoop wbs sem s).1.waiters = rest SemaphoreWaitblock.size sem.units.toInt wbs ∧
    (semPostLoop wbs sem s).1.limit = sem.limit ∧
    (semPostLoop wbs sem s).2 = s.activateAll
      ((served SemaphoreWaitblock.size sem.units.toInt wbs).map (·.header.thread)) := by
  induction wbs generalizing sem s with
  | nil => simp [semPostLoop, left, rest, served, activateAll_nil]
  | cons wb wbs ih =>
    have hwb : 1 ≤ wb.size := hpos wb (by simp)
    have hnonneg : 0 ≤ wb.size := by omega
    obtain ⟨hshort, hstop⟩ | ⟨-, hle, sem', hunits, hlimit, hserve⟩ :=
      semPostLoop_cons wbs sem s hnonneg
    · have hlt : sem.units.toInt < wb.size := by omega
      rw [hstop, left_stop hlt, rest_stop hlt, served_stop hlt]
      simp [activateAll_nil]
    · obtain ⟨hl, hr, hlim, hs⟩ := ih sem' (utActivate wb.header.thread s)
        fun x hx => hpos x (List.mem_cons_of_mem wb hx)
      rw [hunits] at hl hr hs
      rw [hserve, left_cons hle, rest_cons hle, served_cons hle, List.map_cons,
        ← activateAll_cons]
      exact ⟨hl, hr, hlim.trans hlimit, hs⟩

theorem semPostUnits_min (sem : Semaphore) (p : Int32) :
    (semPostUnits sem p).units.toInt = min (sem.units + p).toInt sem.limit.toInt := by
  unfold semPostUnits
  by_cases hgt : sem.units + p > sem.limit
  · have hlt := Int32.lt_iff_toInt_lt.mp hgt
    simp only [hgt, if_true]
    omega
  · have hle := hgt
    rw [gt_iff_lt, Int32.lt_iff_toInt_lt] at hle
    simp only [hgt, if_false]
    omega

theorem semPostUnits_toInt {sem : Semaphore} {p : Int32} (hp : 0 ≤ p.toInt)
    (hfit : sem.units.toInt + p.toInt ≤ Int32.maxValue.toInt) :
    (semPostUnits sem p).units.toInt = min (sem.units.toInt + p.toInt) sem.limit.toInt := by
  rw [semPostUnits_min, toInt_add_of_fits hp hfit]

theorem semPostUnits_limit (sem : Semaphore) (p : Int32) :
    (semPostUnits sem p).limit = sem.limit := by
  unfold semPostUnits
  dsimp only
  split <;> rfl

theorem semPost_serves {sem : Semaphore} {p : Int32} (s : Sched) (hp : 0 ≤ p.toInt)
    (hfit : sem.units.toInt + p.toInt ≤ Int32.maxValue.toInt)
    (hpos : ∀ wb ∈ sem.waiters, 1 ≤ wb.size) {T : Int}
    (hT : T = min (sem.units.toInt + p.toInt) sem.limit.toInt) :
    (semPost sem p s).1.units.toInt = left SemaphoreWaitblock.size T sem.waiters ∧
    (semPost sem p s).1.waiters = rest SemaphoreWaitblock.size T sem.waiters ∧
    (semPost sem p s).1.limit = sem.limit ∧
    (semPost sem p s).2 = s.activateAll
      ((served SemaphoreWaitblock.size T sem.waiters).map (·.header.thread)) := by
  have hserves := semPostLoop_serves sem.waiters (semPostUnits sem p) s hpos
  rw [semPostUnits_toInt hp hfit, ← hT, semPostUnits_limit] at hserves
  exact hserves

/-- The units of both posts are under the limit, the second post adds nothing, or the
first post cannot meet the first request. -/
def SplitsEvenly (sem : Semaphore) (a b : Int32) : Prop :=
  sem.units.toInt + a.toInt + b.toInt ≤ sem.limit.toInt ∨ b = 0 ∨
    ∀ wb ∈ sem.waiters.head?, min (sem.units.toInt + a.toInt) sem.limit.toInt < wb.size

/-- Posting `a` and then `b`. -/
def semPostTwice (sem : Semaphore) (a b : Int32) (s : Sched) : Semaphore × Sched :=
  semPost (semPost sem a s).1 b (semPost sem a s).2

/-- The two posts serve what one amount would: the first cut sum, and of the second what
the limit still admits. -/
theorem semPostTwice_serves {sem : Semaphore} {a b : Int32} (s : Sched) (ha : 0 ≤ a.toInt)
    (hb : 0 ≤ b.toInt)
    (hfit : sem.units.toInt + a.toInt + b.toInt ≤ Int32.maxValue.toInt)
    (hpos : ∀ wb ∈ sem.waiters, 1 ≤ wb.size) {T T' : Int}
    (hT : T = min (sem.units.toInt + a.toInt) sem.limit.toInt)
    (hT' : T' = min (T + b.toInt) (sem.limit.toInt +
      ((served SemaphoreWaitblock.size T sem.waiters).map SemaphoreWaitblock.size).sum)) :
    (semPostTwice sem a b s).1.units.toInt = left SemaphoreWaitblock.size T' sem.waiters ∧
    (semPostTwice sem a b s).1.waiters = rest SemaphoreWaitblock.size T' sem.waiters ∧
    (semPostTwice sem a b s).2 = s.activateAll
      ((served SemaphoreWaitblock.size T' sem.waiters).map (·.header.thread)) := by
  obtain ⟨hu, hw, hl, hs⟩ := semPost_serves s ha (by omega) hpos hT
  have hpos' : ∀ wb ∈ (semPost sem a s).1.waiters, 1 ≤ wb.size := by
    intro wb hwb
    rw [hw] at hwb
    exact hpos wb (List.mem_of_mem_drop hwb)
  have hle : left SemaphoreWaitblock.size T sem.waiters ≤ T :=
    left_le fun wb hwb => by have := hpos wb hwb; omega
  have hleft : left SemaphoreWaitblock.size T sem.waiters = T -
    ((served SemaphoreWaitblock.size T sem.waiters).map SemaphoreWaitblock.size).sum := rfl
  have hgain : 0 ≤ T' - T := by omega
  have hsecond : left SemaphoreWaitblock.size T sem.waiters + (T' - T) =
      min ((semPost sem a s).1.units.toInt + b.toInt) (semPost sem a s).1.limit.toInt := by
    rw [hu, hl]
    omega
  obtain ⟨hu', hw', _, hs'⟩ := semPost_serves (semPost sem a s).2 hb (by rw [hu]; omega) hpos'
    hsecond
  have hsum : T' = T + (T' - T) := by omega
  rw [hw] at hu' hw' hs'
  refine ⟨?_, ?_, ?_⟩
  · rw [hsum, left_add hgain]
    exact hu'
  · rw [hsum, rest_add hgain]
    exact hw'
  · rw [hsum, served_add _ _ hgain, List.map_append, ← activateAll_append, ← hs]
    exact hs'

/-- One post of `a + b` and posts of `a` and `b` leave the same units, the same waiters
and the same ready queue exactly when the limit cuts nothing that the first of the two
posts made room for. -/
theorem semPost_split {sem : Semaphore} {a b : Int32} (s : Sched) (ha : 0 ≤ a.toInt)
    (hb : 0 ≤ b.toInt) (hab : a.toInt + b.toInt ≤ Int32.maxValue.toInt)
    (hfit : sem.units.toInt + a.toInt + b.toInt ≤ Int32.maxValue.toInt)
    (hpos : ∀ wb ∈ sem.waiters, 1 ≤ wb.size) :
    ((semPost sem (a + b) s).1.units = (semPostTwice sem a b s).1.units ∧
      (semPost sem (a + b) s).1.waiters = (semPostTwice sem a b s).1.waiters ∧
      (semPost sem (a + b) s).2 = (semPostTwice sem a b s).2) ↔ SplitsEvenly sem a b := by
  have hsum : (a + b).toInt = a.toInt + b.toInt := toInt_add_of_fits hb hab
  obtain ⟨hu, hw, _, hs⟩ := semPost_serves (p := a + b) s (by omega) (by omega) hpos rfl
  obtain ⟨hu', hw', hs'⟩ := semPostTwice_serves s ha hb hfit hpos rfl rfl
  have hnothing := sum_served_eq_zero (u := min (sem.units.toInt + a.toInt) sem.limit.toInt)
    fun wb hwb => Int.lt_of_lt_of_le Int.zero_lt_one (hpos wb hwb)
  have hsome := sum_served_nonneg SemaphoreWaitblock.size
    (min (sem.units.toInt + a.toInt) sem.limit.toInt)
    fun wb hwb => Int.le_trans Int.one_nonneg (hpos wb hwb)
  have hzero : b = 0 ↔ b.toInt = 0 := by
    rw [← Int32.toInt_zero]
    exact Int32.toInt_inj.symm
  unfold SplitsEvenly
  rw [← hnothing, hzero]
  generalize ((served SemaphoreWaitblock.size _ sem.waiters).map
    SemaphoreWaitblock.size).sum = S at *
  constructor
  · rintro ⟨hunits, hwaiters, -⟩
    rw [hw, hw'] at hwaiters
    have hleft := congrArg Int32.toInt hunits
    rw [hu, hu'] at hleft
    have hamount := amount_eq hleft hwaiters
    omega
  · intro heven
    have hamount : min (sem.units.toInt + (a + b).toInt) sem.limit.toInt =
        min (min (sem.units.toInt + a.toInt) sem.limit.toInt + b.toInt)
          (sem.limit.toInt + S) := by omega
    rw [hamount] at hu hw hs
    exact ⟨Int32.toInt_inj.mp (hu.trans hu'.symm), hw.trans hw'.symm, hs.trans hs'.symm⟩

/-- Three units and two more for a queue of requests for two and for four units, under a
limit of nine. -/
theorem semPost_split_two_requests :
    (semPost ⟨[⟨⟨1⟩, 2⟩, ⟨⟨2⟩, 4⟩], 1, 9, []⟩ (3 + 2) utInit).1.units =
      (semPostTwice ⟨[⟨⟨1⟩, 2⟩, ⟨⟨2⟩, 4⟩], 1, 9, []⟩ 3 2 utInit).1.units :=
  ((@semPost_split ⟨[⟨⟨1⟩, 2⟩, ⟨⟨2⟩, 4⟩], 1, 9, []⟩ 3 2 utInit
    (by decide) (by decide) (by decide) (by decide) (by decide)).mpr (Or.inl (by decide))).1

/-- A thread asks for two units of a semaphore of limit two that has none. Four units at
once are cut to the two that it takes, and two posts of two leave it two more. -/
theorem semPost_cut : ∃ w,
    Runs (SemUseStep 0) (World.init ⟨fun _ => false, fun _ => 0, fun _ => 2⟩)
      [.utCreate 1, .utCreate 2, .utRun, .semWait 0 2] w ∧
    (w.sems 0).waiters = [⟨⟨1⟩, 2⟩] ∧
    (semPost (w.sems 0) (2 + 2) w.sched).1.units = 0 ∧
    (semPostTwice (w.sems 0) 2 2 w.sched).1.units = 2 := by
  have hrun := runs_of_runAll (fun w op => Allowed w op ∧ UsesSem 0 w op) exec
    [.utCreate 1, .utCreate 2, .utRun, .semWait 0 2]
    (World.init ⟨fun _ => false, fun _ => 0, fun _ => 2⟩) rfl
  have huse : Runs (SemUseStep 0) _ _ _ := hrun.mono fun _ _ _ h => ⟨⟨h.1.1, h.2⟩, h.1.2⟩
  exact ⟨_, huse, rfl, rfl, rfl⟩

end OsCourse.UThread
