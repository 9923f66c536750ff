import OsCourse.UThread.Partition

/-! First in, first out dispatch: the whole history of insertions in the ready
queue against the whole history of dispatches. -/
namespace OsCourse.UThread
open Function Placement Transition

theorem fifo_step {op : Op} {w w' : World} (he : Effect op w w') (h : w.sched.Fifo) :
    w'.sched.Fifo := by
  cases he with
  | quiet hs => rw [hs]; exact h
  | create x _ _ hs =>
    rw [hs]
    refine fifo_activateAll (s := { w.sched with
      live := insert x w.sched.live
      trace := w.sched.trace ++ [.created x]
      numberOfThreads := w.sched.numberOfThreads + 1 }) ?_ [x]
    simpa [Sched.Fifo, inserted, dispatched] using h
  | park t q _ _ _ _ hs =>
    rw [hs]
    split
    · exact fifo_dispatch (fifo_activateAll h [t])
    · exact fifo_dispatch h
  | wake p ts _ _ _ hs => rw [hs]; exact fifo_activateAll h ts
  | exit t _ _ hs =>
    have hd := fifo_dispatch (s := { w.sched with
      numberOfThreads := w.sched.numberOfThreads - 1 }) h
    rw [hs]
    simpa [Sched.Fifo, internalCleanup, inserted, dispatched] using hd
  | start _ hs => rw [hs]; exact fifo_dispatch h
  | finish _ _ _ hs => rw [hs]; exact h

theorem trace_step {op : Op} {w w' : World} (he : Effect op w w') :
    ∃ es, w'.sched.trace = w.sched.trace ++ es := by
  cases he with
  | quiet hs => exact ⟨[], by simp [hs]⟩
  | create x _ _ hs => exact ⟨[.created x, .inserted x], by
      simp [hs, utCreate, utActivate, Sched.activateAll]⟩
  | park t q _ _ _ _ hs =>
    rw [hs, dispatch_trace]
    split
    · exact ⟨_, List.append_assoc _ _ _⟩
    · exact ⟨_, rfl⟩
  | wake p ts _ _ _ hs => exact ⟨ts.map .inserted, by rw [hs]; rfl⟩
  | exit t _ _ hs =>
    rw [hs]
    simp only [internalCleanup, dispatch_trace, List.append_assoc]
    exact ⟨_, rfl⟩
  | start _ hs => rw [hs, dispatch_trace]; exact ⟨_, rfl⟩
  | finish _ _ _ hs => exact ⟨[], by simp [hs]⟩

theorem trace_runs {w w' : World} {ops : List Op} (h : Runs Step w ops w') (hi : w.Inv) :
    ∃ es, w'.sched.trace = w.sched.trace ++ es := by
  have hboth := h.invariant
    (P := fun v => v.Inv ∧ ∃ es, v.sched.trace = w.sched.trace ++ es)
    ⟨hi, [], by simp⟩ (fun a op b ⟨ha, es, hes⟩ hs => by
      obtain ⟨fs, hfs⟩ := trace_step (step_effect hs ha.mainThread)
      exact ⟨inv_step ha hs, es ++ fs, by rw [hfs, hes, List.append_assoc]⟩)
  exact hboth.2

theorem fifo_of_runs {c : Config} {ops : List Op} {w : World}
    (h : Runs Step (World.init c) ops w) : w.sched.Fifo := by
  have hboth := h.invariant (P := fun v => v.Inv ∧ v.sched.Fifo) ⟨inv_init c, rfl⟩
    (fun a op b ha hs =>
      ⟨inv_step ha.1 hs, fifo_step (step_effect hs ha.1.mainThread) ha.2⟩)
  exact hboth.2

/-- Dispatches are a prefix of insertions, and the ready queue is the rest. The
thread at position `k` is the one switched in after `k` other dispatches, whatever
is called in between, and until then it only moves towards the head. A yield with
nothing ready changes nothing. -/
theorem dispatch_in_insertion_order {c : Config} {ops more : List Op} {w w' : World}
    (h : Runs Step (World.init c) ops w) (hmore : Runs Step w more w') :
    inserted w.sched.trace = dispatched w.sched.trace ++ w.sched.readyQueue ∧
    (∃ later, dispatched w'.sched.trace = dispatched w.sched.trace ++ later ∧
      ∀ k t, w.sched.readyQueue[k]? = some t →
        (k < later.length → later[k]? = some t) ∧
        (later.length ≤ k → w'.sched.readyQueue[k - later.length]? = some t ∧
          w'.sched.runningThread ≠ some .main)) ∧
    (w.sched.readyQueue = [] → utYield w.sched = .ok w.sched ∧ exec .utYield w = .ok w) := by
  have hall := h.append hmore
  obtain ⟨es, htr⟩ := trace_runs hmore (inv_of_runs h)
  have hq := dispatches_after (fifo_of_runs h) (fifo_of_runs hall) htr
  refine ⟨fifo_of_runs h, ⟨dispatched es, by rw [htr, dispatched_append], ?_⟩, ?_⟩
  · intro k t hk
    have hlt : k < w.sched.readyQueue.length := (List.getElem?_eq_some_iff.1 hk).1
    have hget : (dispatched es ++ w'.sched.readyQueue)[k]? = some t := by
      rw [← hq, List.getElem?_append_left hlt]
      exact hk
    constructor
    · intro hkl
      rwa [List.getElem?_append_left hkl] at hget
    · intro hkl
      rw [List.getElem?_append_right hkl] at hget
      refine ⟨hget, fun hr => ?_⟩
      simp [(inv_of_runs hall).drained hr] at hget
  · intro hempty
    have hy : utYield w.sched = .ok w.sched := by simp [utYield, hempty, isListEmpty]
    refine ⟨hy, ?_⟩
    calc exec .utYield w = .ok (w.leave .utYield w.sched) := by simp only [exec, hy]; rfl
      _ = .ok w := by rw [leave_same]

/-- Three threads, two yields: the third thread is the second to come after the first. -/
theorem dispatch_in_insertion_order_yields :
    ∃ w w', Runs Step (World.init Config.plain)
      [.utCreate 1, .utCreate 2, .utCreate 3, .utRun] w ∧
      Runs Step w [.utYield, .utYield] w' ∧
      ∃ later, dispatched w'.sched.trace = dispatched w.sched.trace ++ later ∧
        later[1]? = some 3 := by
  have key : ∀ w w', Runs Step (World.init Config.plain)
      [.utCreate 1, .utCreate 2, .utCreate 3, .utRun] w → Runs Step w [.utYield, .utYield] w' →
      (dispatched w'.sched.trace).length = 3 → (dispatched w.sched.trace).length = 1 →
      w.sched.readyQueue[1]? = some 3 →
      ∃ later, dispatched w'.sched.trace = dispatched w.sched.trace ++ later ∧
        later[1]? = some 3 := by
    intro w w' hrun hmore h3 h1 hk
    obtain ⟨_, ⟨later, hlater, hpos⟩, _⟩ := dispatch_in_insertion_order hrun hmore
    have hlen := congrArg List.length hlater
    rw [List.length_append, h3, h1] at hlen
    exact ⟨later, hlater, (hpos 1 3 hk).1 (by omega)⟩
  have hrun := runs_of_runAll Allowed exec
    [.utCreate 1, .utCreate 2, .utCreate 3, .utRun] (World.init Config.plain) rfl
  exact ⟨_, _, hrun, runs_of_runAll _ _ _ _ rfl,
    key _ _ hrun (runs_of_runAll _ _ _ _ rfl) rfl rfl rfl⟩

end OsCourse.UThread
