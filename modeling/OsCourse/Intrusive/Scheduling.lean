import OsCourse.Intrusive.Rings

/-! The functions of the scheduler on the rings do what they do on sequences, or end the program
with the same fault. -/
namespace OsCourse.Intrusive
open Function Linked OsCourse.Lists Transition
open UThread (Handle Sched Sync Thread)

structure SchedHolds (bs : Sync → List Nat) (m : Mem) (s : Sched) : Prop where
  rings : Rings m.links (entries s.readyQueue bs)
  numberOfThreads : m.numberOfThreads = s.numberOfThreads
  running : m.runningThread = s.runningThread
  main : m.mainThread = s.mainThread
  live : m.live = s.live

structure Untouched (m m' : Mem) : Prop where
  blocks : m'.blocks = m.blocks
  signaled : m'.signaled = m.signaled
  units : m'.units = m.units
  limit : m'.limit = m.limit

def Scheduled (bs : Sync → List Nat) (m m' : Mem) (s' : Sched) : Prop :=
  SchedHolds bs m' s' ∧ Untouched m m'

variable {bs : Sync → List Nat} {m m' m'' : Mem} {s : Sched} {t : Handle}

theorem Untouched.refl (m : Mem) : Untouched m m := ⟨rfl, rfl, rfl, rfl⟩

theorem Untouched.trans (h : Untouched m m') (k : Untouched m' m'') : Untouched m m'' :=
  ⟨k.blocks.trans h.blocks, k.signaled.trans h.signaled, k.units.trans h.units,
    k.limit.trans h.limit⟩

theorem Scheduled.after {x : Except UThread.Fault Mem} {y : Except UThread.Fault Sched}
    (h : Matched (Scheduled bs m') x y) (hu : Untouched m m') :
    Matched (Scheduled bs m) x y := by
  cases h with
  | ok hab => exact Matched.ok ⟨hab.1, hu.trans hab.2⟩
  | error e => exact Matched.error e

theorem SchedHolds.current (h : SchedHolds bs m s) : m.current = s.current := by
  rw [Mem.current, h.running]
  rfl

theorem SchedHolds.empty (h : SchedHolds bs m s) :
    isListEmpty m.links .readyQueue = UThread.isListEmpty s.readyQueue := ready_empty h.rings

theorem SchedHolds.activate (h : SchedHolds bs m s) (ht : t ∉ s.readyQueue) :
    SchedHolds bs (utActivate t m) (UThread.utActivate t s) :=
  ⟨activate_rings h.rings ht, h.numberOfThreads, h.running, h.main, h.live⟩

theorem SchedHolds.extract (h : SchedHolds bs m s) :
    (extractNextThread m).1 = (UThread.extractNextThread s).1 ∧
      Scheduled bs m (extractNextThread m).2 (UThread.extractNextThread s).2 := by
  have hrings := h.rings
  cases hq : s.readyQueue with
  | nil =>
    rw [hq] at hrings
    rw [extract_none hrings, UThread.extractNextThread, hq]
    exact ⟨h.main, h, Untouched.refl m⟩
  | cons x q =>
    rw [hq] at hrings
    obtain ⟨hnext, heap, hm, hr⟩ := extract_ready hrings
    rw [hnext, hm, UThread.extractNextThread, hq]
    exact ⟨rfl, ⟨hr, h.numberOfThreads, h.running, h.main, h.live⟩, ⟨rfl, rfl, rfl, rfl⟩⟩

theorem SchedHolds.contextSwitch (h : SchedHolds bs m s) (curr next : Option Thread) :
    Matched (Scheduled bs m) (contextSwitch curr next m) (UThread.contextSwitch curr next s) := by
  unfold Intrusive.contextSwitch UThread.contextSwitch
  cases curr with
  | none => exact Matched.error _
  | some c =>
    cases next with
    | none => exact Matched.error _
    | some t =>
      exact Matched.ok ⟨⟨h.rings, h.numberOfThreads, rfl, h.main, h.live⟩, ⟨rfl, rfl, rfl, rfl⟩⟩

theorem SchedHolds.schedule (h : SchedHolds bs m s) :
    Matched (Scheduled bs m) (schedule m) (UThread.schedule s) := by
  obtain ⟨hnext, hheld, huntouched⟩ := h.extract
  unfold Intrusive.schedule UThread.schedule
  rw [h.running, hnext]
  exact Scheduled.after (hheld.contextSwitch _ _) huntouched

theorem SchedHolds.utRun (h : SchedHolds bs m s) :
    Matched (Scheduled bs m) (utRun m) (UThread.utRun s) := by
  unfold Intrusive.utRun UThread.utRun
  rw [h.running, h.empty]
  split
  · exact Matched.error _
  · split
    · exact Matched.ok ⟨h, Untouched.refl m⟩
    · have hstart : SchedHolds bs { m with mainThread := some .main, runningThread := some .main }
          { s with mainThread := some .main, runningThread := some .main } :=
        ⟨h.rings, h.numberOfThreads, rfl, rfl, h.live⟩
      exact Scheduled.after hstart.schedule ⟨rfl, rfl, rfl, rfl⟩

theorem SchedHolds.utRunEnd (h : SchedHolds bs m s) :
    Matched (Scheduled bs m) (utRunEnd m) (UThread.utRunEnd s) := by
  have hcount : (m.numberOfThreads ≠ 0) = (s.numberOfThreads ≠ 0) := by rw [h.numberOfThreads]
  simp only [Intrusive.utRunEnd, UThread.utRunEnd, h.empty, hcount]
  split
  · exact Matched.error _
  · split
    · exact Matched.error _
    · exact Matched.ok ⟨⟨h.rings, h.numberOfThreads, rfl, rfl, h.live⟩, ⟨rfl, rfl, rfl, rfl⟩⟩

theorem SchedHolds.internalExit (h : SchedHolds bs m s) {curr curr' next next' : Option Thread}
    (hcurr : curr = curr') (hnext : next = next') :
    Matched (Scheduled bs m) (internalExit curr next m) (UThread.internalExit curr' next' s) := by
  subst hcurr hnext
  unfold Intrusive.internalExit UThread.internalExit
  cases curr with
  | none => exact Matched.error _
  | some c =>
    cases c with
    | main => exact Matched.error _
    | user x =>
      cases next with
      | none => exact Matched.error _
      | some t =>
        exact Matched.ok ⟨⟨h.rings, h.numberOfThreads, rfl, h.main,
          congrArg (fun l => Finset.erase l x) h.live⟩, ⟨rfl, rfl, rfl, rfl⟩⟩

theorem SchedHolds.utExit (h : SchedHolds bs m s) :
    Matched (Scheduled bs m) (utExit m) (UThread.utExit s) := by
  have hless : SchedHolds bs { m with numberOfThreads := m.numberOfThreads - 1 }
      { s with numberOfThreads := s.numberOfThreads - 1 } :=
    ⟨h.rings, congrArg (· - 1) h.numberOfThreads, h.running, h.main, h.live⟩
  obtain ⟨hnext, hheld, huntouched⟩ := hless.extract
  exact Scheduled.after (hheld.internalExit h.running hnext)
    ⟨huntouched.blocks, huntouched.signaled, huntouched.units, huntouched.limit⟩

theorem utYield_user (hq : isListEmpty m.links .readyQueue = false)
    (hr : m.runningThread = some (.user t)) :
    Intrusive.utYield m = Intrusive.schedule (utActivate t m) := by
  simp [Intrusive.utYield, hq, hr, utActivate]

theorem SchedHolds.utYield (h : SchedHolds bs m s)
    (hnot : ∀ t, s.current = some t → t ∉ s.readyQueue) :
    Matched (Scheduled bs m) (utYield m) (UThread.utYield s) := by
  by_cases hq : UThread.isListEmpty s.readyQueue = true
  · rw [Intrusive.utYield, UThread.utYield, h.empty, if_pos hq, if_pos hq]
    exact Matched.ok ⟨h, Untouched.refl m⟩
  · have hfull : isListEmpty m.links .readyQueue = false := by
      rw [h.empty]
      simpa using hq
    cases hr : s.runningThread with
    | none =>
      simp only [Intrusive.utYield, UThread.utYield, hfull, h.running, hr, if_neg hq]
      exact Matched.error _
    | some c =>
      cases c with
      | main =>
        simp only [Intrusive.utYield, UThread.utYield, hfull, h.running, hr, if_neg hq]
        exact Matched.error _
      | user t =>
        have hready := h.activate (hnot t (UThread.current_eq_some.mpr hr))
        have hyield : UThread.utYield s = UThread.schedule (UThread.utActivate t s) := by
          rw [UThread.utYield, if_neg hq, hr]
          rfl
        rw [utYield_user hfull (h.running.trans hr), hyield]
        exact Scheduled.after hready.schedule ⟨rfl, rfl, rfl, rfl⟩

theorem SchedHolds.utCreate (h : SchedHolds bs m s) (ht : t ∉ s.readyQueue) :
    SchedHolds bs (utCreate t m) (UThread.utCreate t s) :=
  ⟨activate_rings h.rings ht, congrArg (· + 1) h.numberOfThreads, h.running, h.main,
    congrArg (insert t) h.live⟩

end OsCourse.Intrusive
