import Mathlib.Algebra.Ring.Int.Defs
import OsCourse.Lib.Ints
import OsCourse.UThread.Fifo

/-! The counting semaphore over whole histories: units are conserved, requests are
granted in the order of the calls and no request that could be met is left asleep. -/
namespace OsCourse.UThread
open Function Ints Placement Transition

/-- The calls of `sem_wait`, in order. -/
def requests (log : List SemStep) : List (Option Thread × Int32) :=
  log.filterMap fun | .requested who n => some (who, n) | _ => none

/-- The requests whose units were taken, in the order in which they were taken. -/
def grants (log : List SemStep) : List (Option Thread × Int32) :=
  log.filterMap fun | .granted who n => some (who, n) | _ => none

/-- The calls of `sem_wait` that blocked their thread. -/
def blockings (log : List SemStep) : List Handle :=
  log.filterMap fun | .blocked t => some t | _ => none

/-- The threads that `sem_post` passed to `ut_activate`. -/
def activations (log : List SemStep) : List Handle :=
  log.filterMap fun | .activated t => some t | _ => none

def postedUnits (log : List SemStep) : Int :=
  (log.map fun | .posted n => n.toInt | _ => 0).sum

def grantedUnits (log : List SemStep) : Int :=
  (log.map fun | .granted _ n => n.toInt | _ => 0).sum

def cutUnits (log : List SemStep) : Int :=
  (log.map fun | .cut k => k | _ => 0).sum

def SemaphoreWaitblock.request (wb : SemaphoreWaitblock) : Option Thread × Int32 :=
  (some (.user wb.header.thread), wb.units)

@[simp] theorem requests_append (a b : List SemStep) :
    requests (a ++ b) = requests a ++ requests b := List.filterMap_append
@[simp] theorem grants_append (a b : List SemStep) :
    grants (a ++ b) = grants a ++ grants b := List.filterMap_append
@[simp] theorem blockings_append (a b : List SemStep) :
    blockings (a ++ b) = blockings a ++ blockings b := List.filterMap_append
@[simp] theorem activations_append (a b : List SemStep) :
    activations (a ++ b) = activations a ++ activations b := List.filterMap_append
@[simp] theorem postedUnits_append (a b : List SemStep) :
    postedUnits (a ++ b) = postedUnits a + postedUnits b := by simp [postedUnits]
@[simp] theorem grantedUnits_append (a b : List SemStep) :
    grantedUnits (a ++ b) = grantedUnits a + grantedUnits b := by simp [grantedUnits]
@[simp] theorem cutUnits_append (a b : List SemStep) :
    cutUnits (a ++ b) = cutUnits a + cutUnits b := by simp [cutUnits]

/-- The accounts of a semaphore that began with `u` units of at most `l` and whose
blocked requests are `wbs`. -/
structure SemLedger (u l : Int32) (wbs : List SemaphoreWaitblock) (sem : Semaphore) : Prop where
  limit_eq : sem.limit = l
  nonneg : 0 ≤ sem.units.toInt
  le_limit : sem.units.toInt ≤ l.toInt
  positive : ∀ wb ∈ wbs, 1 ≤ wb.units.toInt
  order : requests sem.log = grants sem.log ++ wbs.map (·.request)
  wakes : blockings sem.log = activations sem.log ++ wbs.map (·.header.thread)
  balance : u.toInt + postedUnits sem.log =
    sem.units.toInt + grantedUnits sem.log + cutUnits sem.log

structure SemInv (u l : Int32) (sem : Semaphore) : Prop where
  ledger : SemLedger u l sem.waiters sem
  unmet : ∀ wb rest, sem.waiters = wb :: rest → sem.units < wb.units

theorem semInv_init {u l : Int32} (h0 : 0 ≤ u.toInt) (h1 : u.toInt ≤ l.toInt) :
    SemInv u l (semInit u l) where
  ledger :=
    { limit_eq := rfl
      nonneg := h0
      le_limit := h1
      positive := fun _ h => by cases h
      order := rfl
      wakes := rfl
      balance := by simp [semInit, postedUnits, grantedUnits, cutUnits] }
  unmet _ _ h := by cases h

theorem SemLedger.fast {u l n : Int32} {sem : Semaphore} (who : Option Thread)
    (h : SemLedger u l [] sem) (hn : 0 ≤ n.toInt) (hle : n.toInt ≤ sem.units.toInt) :
    SemLedger u l [] { sem with
      units := sem.units - n
      log := sem.log ++ [.requested who n, .granted who n] } := by
  have hsub := toInt_sub_of_fits hn hle
  have hlim := h.le_limit
  have horder := h.order
  have hwakes := h.wakes
  have hbal := h.balance
  refine ⟨h.limit_eq, by simp only [hsub]; omega, by simp only [hsub]; omega, h.positive,
    ?_, ?_, ?_⟩
  · rw [requests_append, grants_append, horder]
    simp [requests, grants]
  · rw [blockings_append, activations_append, hwakes]
    simp [blockings, activations]
  · simp [hsub, postedUnits, grantedUnits, cutUnits] at hbal ⊢
    omega

theorem SemLedger.queue {u l n : Int32} {wbs : List SemaphoreWaitblock} {sem : Semaphore}
    (t : Handle) (h : SemLedger u l wbs sem) (hn : 1 ≤ n.toInt) :
    SemLedger u l (wbs ++ [⟨⟨t⟩, n⟩]) { sem with
      waiters := wbs ++ [⟨⟨t⟩, n⟩]
      log := sem.log ++ [.requested (some (.user t)) n, .blocked t] } := by
  have horder := h.order
  have hwakes := h.wakes
  have hbal := h.balance
  refine ⟨h.limit_eq, h.nonneg, h.le_limit, ?_, ?_, ?_, ?_⟩
  · intro wb hwb
    cases List.mem_append.1 hwb with
    | inl hwb =>
      exact h.positive wb hwb
    | inr hwb =>
      simp only [List.mem_singleton] at hwb
      rw [hwb]
      exact hn
  · rw [requests_append, grants_append, horder]
    simp [requests, grants, SemaphoreWaitblock.request]
  · rw [blockings_append, activations_append, hwakes]
    simp [blockings, activations]
  · simpa [postedUnits, grantedUnits, cutUnits] using hbal

/-- One turn of the loop of `sem_post`: the first request is met. -/
theorem SemLedger.serve {u l : Int32} {wb : SemaphoreWaitblock}
    {wbs : List SemaphoreWaitblock} {sem : Semaphore}
    (h : SemLedger u l (wb :: wbs) sem) (hle : wb.units.toInt ≤ sem.units.toInt) :
    SemLedger u l wbs { sem with
      units := sem.units - wb.units
      log := sem.log ++ [.granted (some (.user wb.header.thread)) wb.units,
        .activated wb.header.thread] } := by
  have hwb := h.positive wb (by simp)
  have hsub := toInt_sub_of_fits (by omega) hle
  have hlim := h.le_limit
  have horder := h.order
  have hwakes := h.wakes
  have hbal := h.balance
  refine ⟨h.limit_eq, by simp only [hsub]; omega, by simp only [hsub]; omega,
    fun x hx => h.positive x (List.mem_cons_of_mem wb hx), ?_, ?_, ?_⟩
  · rw [requests_append, grants_append, horder]
    simp [requests, grants, SemaphoreWaitblock.request]
  · rw [blockings_append, activations_append, hwakes]
    simp [blockings, activations]
  · simp [hsub, postedUnits, grantedUnits, cutUnits] at hbal ⊢
    omega

/-- The addition of `sem_post`, with the clamp. -/
theorem SemLedger.post {u l p : Int32} {wbs : List SemaphoreWaitblock} {sem : Semaphore}
    (h : SemLedger u l wbs sem) (hp : 0 ≤ p.toInt)
    (hfit : sem.units.toInt + p.toInt ≤ Int32.maxValue.toInt) :
    SemLedger u l wbs (semPostUnits sem p) := by
  have hsum := toInt_add_of_fits hp hfit
  have h0 := h.nonneg
  have hlim := h.le_limit
  have hbal := h.balance
  have horder := h.order
  have hwakes := h.wakes
  unfold semPostUnits
  simp only [h.limit_eq]
  split
  · rename_i hgt
    rw [gt_iff_lt, Int32.lt_iff_toInt_lt, hsum] at hgt
    refine ⟨rfl, by simp only; omega, le_refl _, h.positive, ?_, ?_, ?_⟩
    · rw [requests_append, grants_append, horder]
      simp [requests, grants]
    · rw [blockings_append, activations_append, hwakes]
      simp [blockings, activations]
    · simp only [postedUnits_append, grantedUnits_append, cutUnits_append, hsum]
      simp [postedUnits, grantedUnits, cutUnits] at hbal ⊢
      omega
  · rename_i hle
    rw [gt_iff_lt, Int32.lt_iff_toInt_lt, hsum] at hle
    refine ⟨rfl, by simp only [hsum]; omega, by simp only [hsum]; omega, h.positive, ?_, ?_, ?_⟩
    · rw [requests_append, grants_append, horder]
      simp [requests, grants]
    · rw [blockings_append, activations_append, hwakes]
      simp [blockings, activations]
    · simp only [postedUnits_append, grantedUnits_append, cutUnits_append, hsum]
      simp [postedUnits, grantedUnits, cutUnits] at hbal ⊢
      omega

theorem SemLedger.with_waiters {u l : Int32} {wbs : List SemaphoreWaitblock}
    {sem : Semaphore} (h : SemLedger u l wbs sem) :
    SemLedger u l wbs { sem with waiters := wbs } :=
  ⟨h.limit_eq, h.nonneg, h.le_limit, h.positive, h.order, h.wakes, h.balance⟩

theorem semWait_inv {u l n : Int32} {sem sem' : Semaphore} {s s' : Sched}
    (hi : SemInv u l sem) (hn : 1 ≤ n.toInt) (h : semWait sem n s = .ok (sem', s')) :
    SemInv u l sem' := by
  obtain ⟨hw, hle, rfl, rfl⟩ | ⟨t, hno, hcur, _, rfl⟩ := semWait_cases h
  · have hempty : SemLedger u l [] sem := hw ▸ hi.ledger
    refine ⟨?_, fun wb rest he => by simp [hw] at he⟩
    have hfast := hempty.fast (utSelf s') (by omega) (Int32.le_iff_toInt_le.1 hle)
    simpa only [hw] using hfast
  · have hwho : utSelf s = some (.user t) := current_eq_some.1 hcur
    rw [hwho]
    refine ⟨hi.ledger.queue t hn, fun wb rest he => ?_⟩
    cases hw : sem.waiters with
    | nil =>
      simp only [hw, List.nil_append, List.cons.injEq] at he
      rw [← he.1]
      exact Int32.not_le.1 fun hle => hno ⟨hw, hle⟩
    | cons x xs =>
      simp only [hw, List.cons_append, List.cons.injEq] at he
      rw [← he.1]
      exact hi.unmet x xs hw

theorem semPostLoop_inv {u l : Int32} (wbs : List SemaphoreWaitblock) (sem : Semaphore)
    (s : Sched) (h : SemLedger u l wbs sem) : SemInv u l (semPostLoop wbs sem s).1 := by
  induction wbs generalizing sem s with
  | nil => exact ⟨h.with_waiters, fun wb rest he => by cases he⟩
  | cons wb wbs ih =>
    have hwb : 1 ≤ wb.units.toInt := h.positive wb (by simp)
    -- a positive request above the units left stops the loop on either test
    have hstop : ¬ wb.units.toInt ≤ sem.units.toInt →
        SemInv u l { sem with waiters := wb :: wbs } := fun hlt =>
      ⟨h.with_waiters, fun x xs he => by
        cases he
        rw [Int32.lt_iff_toInt_lt]
        exact not_le.1 hlt⟩
    unfold semPostLoop
    split
    · split
      · rename_i hlt
        rw [Int32.lt_iff_toInt_lt] at hlt
        exact hstop (by omega)
      · rename_i hge
        rw [Int32.lt_iff_toInt_lt] at hge
        exact ih _ _ (h.serve (by omega))
    · rename_i hu
      rw [gt_iff_lt, Int32.lt_iff_toInt_lt, Int32.toInt_zero] at hu
      exact hstop (by omega)

theorem semPost_inv {u l p : Int32} {sem : Semaphore} (s : Sched) (hi : SemInv u l sem)
    (hp : 0 ≤ p.toInt) (hfit : sem.units.toInt + p.toInt ≤ Int32.maxValue.toInt) :
    SemInv u l (semPost sem p s).1 :=
  semPostLoop_inv _ _ s (hi.ledger.post hp hfit)

/-- How a program uses semaphore `i`: it asks for one unit or more, posts no
negative number, and the sum that `sem_post` forms stays inside `int`. -/
def UsesSem (i : Nat) (w : World) : Op → Prop
  | .semWait j n => j = i → 1 ≤ n.toInt
  | .semPost j p => j = i →
      0 ≤ p.toInt ∧ (w.sems i).units.toInt + p.toInt ≤ Int32.maxValue.toInt
  | _ => True

instance (i : Nat) (w : World) (op : Op) : Decidable (UsesSem i w op) :=
  match op with
  | .semWait j n => inferInstanceAs (Decidable (j = i → 1 ≤ n.toInt))
  | .semPost j p => inferInstanceAs (Decidable (j = i →
      0 ≤ p.toInt ∧ (w.sems i).units.toInt + p.toInt ≤ Int32.maxValue.toInt))
  | .utCreate _ | .utYield | .utExit | .utDeactivate | .utActivate _ | .utRun | .eventWait _
  | .eventSet _ | .autoEventWait _ | .autoEventSet _ | .ret => isTrue trivial

def SemUseStep (i : Nat) (w : World) (op : Op) (w' : World) : Prop :=
  Step w op w' ∧ UsesSem i w op

end OsCourse.UThread
