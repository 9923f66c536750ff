import OsCourse.Intrusive.Refinement

/-! Programs on the memory and programs on sequences make the same runs. -/
namespace OsCourse.Intrusive
open Function Linked OsCourse.Lists Transition
open UThread (Config Handle Op SemaphoreWaitblock Sync World)

variable {bs : Sync → List Nat} {c c' : HeapWorld} {w w' : World} {b : Nat} {op : Op}

theorem Holds.ret (h : Holds bs c w) (hi : w.Inv) (n : Nat) {x : Except UThread.Fault HeapWorld}
    (hx : exec n b .ret c = some x) : Matched Rel x (UThread.exec .ret w) := by
  have hrun := h.sched.running
  cases hr : w.sched.runningThread with
  | none =>
    simp only [exec, hrun, hr, Option.some.injEq] at hx
    simp only [UThread.exec, hr, ← hx]
    exact Matched.ok ⟨bs, h⟩
  | some u =>
    cases u with
    | main =>
      simp only [exec, hrun, hr, Option.some.injEq] at hx
      simp only [UThread.exec, hr, ← hx]
      exact Matched.bind h.sched.utRunEnd fun m s hm => Matched.ok ⟨bs, h.scheduled hm⟩
    | user t =>
      simp only [exec, hrun, hr, Option.some.injEq] at hx
      simp only [UThread.exec, hr, ← hx]
      refine Matched.ok ⟨bs, h.sched, ?_, ?_, h.halted, ?_⟩
      · refine ⟨fun e => ?_, h.sync.auto, h.sync.units, h.sync.limit, fun o => ?_⟩
        · have hsame : (w.logReturn t e).signaled = (w.events e).signaled := by
            unfold World.logReturn
            split <;> rfl
          exact (h.sync.event e).trans hsame.symm
        · refine (h.sync.waiters o).trans ?_
          cases o with
          | event e => simp only [shown, World.resume, UThread.logReturn_waiters]
          | auto | sem => rfl
      · simp only [HeapWorld.resume, World.resume, h.pending]
      · intro o b' hb'
        have hne := h.not_current hi (UThread.current_eq_some.mpr hr) hb'
        simp only [HeapWorld.resume]
        rw [update_of_ne hne]
        exact h.frames o b' hb'

theorem Holds.exec (h : Holds bs c w) (hi : w.Inv) (hall : UThread.Allowed w op)
    (hb : ∀ t, c.frame t ≠ some b) :
    (∀ n x, exec n b op c = some x → Matched Rel x (UThread.exec op w)) ∧
      ∃ n x, exec n b op c = some x := by
  cases op with
  | utCreate t =>
    refine ⟨fun n x hx => ?_, 0, _, rfl⟩
    cases hx
    have hnew : t ∉ w.sched.live := by simpa [World.admits] using hall.2
    have hready := hi.partition.absent hnew .ready
    refine Matched.ok ⟨bs, h.sched.utCreate hready, ?_, ?_, h.halted, ?_⟩
    · exact h.sync.untouched ⟨rfl, rfl, rfl, rfl⟩ rfl rfl rfl
    · dsimp only
      rw [h.pending]
    · intro o b' hb'
      have hne : (c.mem.blocks b').header.thread ≠ t := by
        rintro rfl
        exact hi.partition.absent hnew (.waiters o) (h.sync.mem_waiting hb')
      exact (update_of_ne hne _ _).trans (h.frames o b' hb')
  | utYield =>
    refine ⟨fun n x hx => ?_, 0, _, rfl⟩
    cases hx
    exact Matched.bind (h.sched.utYield fun t ht => hi.current_not_ready ht)
      fun m s hm => Matched.ok ⟨bs, h.leave hi .utYield b hm⟩
  | utExit =>
    refine ⟨fun n x hx => ?_, 0, _, rfl⟩
    cases hx
    exact Matched.bind h.sched.utExit fun m s hm => Matched.ok ⟨bs, h.scheduled hm⟩
  | utDeactivate =>
    refine ⟨fun n x hx => ?_, 0, _, rfl⟩
    cases hx
    refine Matched.bind h.sched.schedule fun m s hm => Matched.ok ⟨bs, ?_⟩
    have hleave := h.leave hi .utDeactivate b hm
    refine ⟨hleave.sched, hleave.sync.untouched (Untouched.refl _) rfl rfl rfl, hleave.pending,
      ?_, hleave.frames⟩
    dsimp only
    rw [h.halted, h.sched.current]
  | utActivate t =>
    refine ⟨fun n x hx => ?_, 0, _, rfl⟩
    cases hx
    have hhalted : t ∈ w.halted := by simpa [World.admits] using hall.2
    have hready : t ∉ w.sched.readyQueue := fun hmem => by
      cases hi.partition.unique .halted .ready t hhalted hmem
    refine Matched.ok ⟨bs, h.sched.activate hready, ?_, h.pending, ?_, h.frames⟩
    · exact h.sync.untouched ⟨rfl, rfl, rfl, rfl⟩ rfl rfl rfl
    · dsimp only
      rw [h.halted]
  | utRun =>
    refine ⟨fun n x hx => ?_, 0, _, rfl⟩
    cases hx
    exact Matched.bind h.sched.utRun fun m s hm => Matched.ok ⟨bs, h.scheduled hm⟩
  | eventWait e =>
    refine ⟨fun n x hx => ?_, 0, _, rfl⟩
    cases hx
    exact h.eventWait hi hb e
  | autoEventWait a =>
    refine ⟨fun n x hx => ?_, 0, _, rfl⟩
    cases hx
    exact h.autoEventWait hi hb a
  | semWait i units =>
    refine ⟨fun n x hx => ?_, 0, _, rfl⟩
    cases hx
    exact h.semWait hi hb i units
  | eventSet e =>
    refine ⟨fun n x hx => ?_, (bs (.event e)).length + 1, ?_⟩
    · obtain ⟨m', hm, rfl⟩ := Option.map_eq_some_iff.mp hx
      obtain ⟨w', hw, hrel⟩ := (h.eventSet hi e n).1 m' hm
      exact hw ▸ Matched.ok hrel
    · obtain ⟨m', hm⟩ := (h.eventSet hi e ((bs (.event e)).length + 1)).2 (Nat.lt_succ_self _)
      exact ⟨_, Option.map_eq_some_iff.mpr ⟨m', hm, rfl⟩⟩
  | autoEventSet a =>
    obtain ⟨m', w', hm, hw, hrel⟩ := h.autoEventSet hi a
    refine ⟨fun n x hx => ?_, 0, _, Option.map_eq_some_iff.mpr ⟨m', hm, rfl⟩⟩
    obtain ⟨m'', hm', rfl⟩ := Option.map_eq_some_iff.mp hx
    cases hm.symm.trans hm'
    exact hw ▸ Matched.ok hrel
  | semPost i units =>
    refine ⟨fun n x hx => ?_, (w.sems i).waiters.length + 1, ?_⟩
    · obtain ⟨m', hm, rfl⟩ := Option.map_eq_some_iff.mp hx
      obtain ⟨w', hw, hrel⟩ := (h.semPost hi i n units).1 m' hm
      exact hw ▸ Matched.ok hrel
    · obtain ⟨m', hm⟩ := (h.semPost hi i ((w.sems i).waiters.length + 1) units).2
        (Nat.lt_succ_self _)
      exact ⟨_, Option.map_eq_some_iff.mpr ⟨m', hm, rfl⟩⟩
  | ret => exact ⟨fun n x hx => h.ret hi n hx, 0, _, rfl⟩

theorem Rel.init (cfg : Config) (h : Heap Addr) (blocks : Nat → SemaphoreWaitblock) :
    Rel (HeapWorld.init cfg h blocks) (World.init cfg) := by
  refine ⟨fun _ => [], ⟨init_rings h, rfl, rfl, rfl, rfl⟩, ?_, rfl, rfl, ?_⟩
  · refine ⟨fun _ => rfl, fun _ => rfl, fun _ => rfl, fun _ => rfl, fun o => ?_⟩
    cases o <;> rfl
  · intro o b hb
    cases hb

theorem Step.forward {l : Op × Nat} (hs : Step c l c') (hr : Rel c w) (hi : w.Inv) :
    ∃ w', UThread.Step w l.1 w' ∧ Rel c' w' := by
  obtain ⟨bs, h⟩ := hr
  obtain ⟨hall, n, hexec⟩ := hs
  obtain ⟨hallowed, hb⟩ := h.allowed.mp hall
  obtain ⟨w', hw, hrel⟩ := ((h.exec hi hallowed hb).1 n _ hexec).ok_left rfl
  exact ⟨w', ⟨hallowed, hw⟩, hrel⟩

theorem Step.backward (hs : UThread.Step w op w') (hr : Rel c w) (hi : w.Inv)
    (hb : ∀ t, c.frame t ≠ some b) : ∃ c', Step c (op, b) c' ∧ Rel c' w' := by
  obtain ⟨bs, h⟩ := hr
  obtain ⟨hallowed, hexec⟩ := hs
  obtain ⟨hright, n, x, hx⟩ := h.exec hi hallowed hb
  obtain ⟨c', rfl, hrel⟩ := (hright n x hx).ok_right hexec
  exact ⟨c', ⟨h.allowed.mpr ⟨hallowed, hb⟩, n, hx⟩, hrel⟩

theorem leave_frame (op : Op) (m : Mem) (u : Handle) :
    (c.leave op b m).frame u = c.frame u ∨ (c.leave op b m).frame u = none ∨
      (c.leave op b m).frame u = some b := by
  unfold HeapWorld.leave
  split
  · split
    · exact Or.inl rfl
    · rename_i t _ _
      by_cases hu : u = t
      · subst hu
        cases op.waitsOn <;> simp
      · exact Or.inl (update_of_ne hu _ _)
  · exact Or.inl rfl

theorem frame_update (frame : Handle → Option Nat) (t u : Handle) :
    update frame t none u = frame u ∨ update frame t none u = none ∨
      update frame t none u = some b := by
  by_cases hu : u = t
  · rw [hu, update_self]
    exact Or.inr (Or.inl rfl)
  · exact Or.inl (update_of_ne hu _ _)

theorem exec_frame {n x : Nat} (hx : exec n b op c = some (.ok c')) {u : Handle}
    (hu : c'.frame u = some x) : c.frame u = some x ∨ x = b := by
  have hcases : c'.frame u = c.frame u ∨ c'.frame u = none ∨ c'.frame u = some b := by
    cases op with
    | utCreate t =>
      cases hx
      exact frame_update c.frame t u
    | utActivate t =>
      cases hx
      exact Or.inl rfl
    | utYield | eventWait | autoEventWait | semWait =>
      obtain ⟨m, _, hm⟩ := bind_ok (Option.some.inj hx)
      cases hm
      exact leave_frame _ m u
    | utDeactivate =>
      obtain ⟨m, _, hm⟩ := bind_ok (Option.some.inj hx)
      cases hm
      exact leave_frame (c := c) (b := b) .utDeactivate m u
    | utExit | utRun =>
      obtain ⟨m, _, hm⟩ := bind_ok (Option.some.inj hx)
      cases hm
      exact Or.inl rfl
    | eventSet | autoEventSet | semPost =>
      obtain ⟨m, _, hm⟩ := Option.map_eq_some_iff.mp hx
      cases hm
      exact Or.inl rfl
    | ret =>
      have hret := Option.some.inj hx
      split at hret
      · obtain ⟨m, _, hm⟩ := bind_ok hret
        cases hm
        exact Or.inl rfl
      · cases hret
        exact frame_update c.frame _ u
      · cases hret
        exact Or.inl rfl
  obtain hsame | hnone | hnew := hcases
  · exact Or.inl (hsame ▸ hu)
  · rw [hnone] at hu
    cases hu
  · rw [hnew] at hu
    exact Or.inr (Option.some.inj hu).symm

/-- The run on the memory that takes a new wait block for each call. -/
theorem exists_heap_run (cfg : Config) (h : Heap Addr) (blocks : Nat → SemaphoreWaitblock)
    {ops : List Op} (hrun : Runs UThread.Step (World.init cfg) ops w) :
    ∃ ls c, ls.map Prod.fst = ops ∧ Runs Step (HeapWorld.init cfg h blocks) ls c ∧ Rel c w ∧
      ∀ u x, c.frame u = some x → x < ls.length := by
  generalize hw0 : World.init cfg = w0 at hrun
  induction hrun with
  | nil =>
    subst hw0
    refine ⟨[], _, rfl, Runs.nil _, Rel.init cfg h blocks, ?_⟩
    intro u x hx
    cases hx
  | @snoc w1 w2 ops op hbefore hstep ih =>
    subst hw0
    obtain ⟨ls, c, hops, hruns, hrel, hframes⟩ := ih
    have hi := UThread.inv_of_runs hbefore
    have hfresh : ∀ u, c.frame u ≠ some ls.length := fun u hu =>
      Nat.lt_irrefl _ (hframes u _ hu)
    obtain ⟨c', hc, hrel'⟩ := Step.backward hstep hrel hi hfresh
    refine ⟨ls ++ [(op, ls.length)], c', by rw [List.map_append, hops]; rfl, hruns.snoc hc, hrel',
      ?_⟩
    intro u x hx
    obtain ⟨_, n, hexec⟩ := hc
    rw [List.length_append, List.length_singleton]
    obtain hold | hnew := exec_frame hexec hx
    · exact Nat.lt_succ_of_lt (hframes u x hold)
    · exact hnew ▸ Nat.lt_succ_self _

/-- Programs on the memory make the runs of programs on sequences, and no others: whatever the
memory held before and wherever the stacks put the wait blocks, each call comes to its end, with
the same effect or the same fault, and all lists stay well formed. -/
theorem heap_runs_refine (cfg : Config) (h : Heap Addr) (blocks : Nat → SemaphoreWaitblock) :
    (∀ ls c, Runs Step (HeapWorld.init cfg h blocks) ls c →
      ∃ w, Runs UThread.Step (World.init cfg) (ls.map Prod.fst) w ∧ Rel c w ∧
        ∀ op b, Allowed c op b → ∃ n x, exec n b op c = some x ∧
          Matched Rel x (UThread.exec op w)) ∧
    ∀ ops w, Runs UThread.Step (World.init cfg) ops w →
      ∃ ls c, ls.map Prod.fst = ops ∧ Runs Step (HeapWorld.init cfg h blocks) ls c ∧ Rel c w := by
  constructor
  · intro ls c hrun
    have hsim : ∃ w, Runs UThread.Step (World.init cfg) (ls.map Prod.fst) w ∧ Rel c w ∧ w.Inv := by
      apply hrun.simulation (R := fun c w => Rel c w ∧ w.Inv) (Q := fun _ => True)
      · exact fun _ _ => trivial
      · exact ⟨Rel.init cfg h blocks, UThread.inv_init cfg⟩
      · intro c w l c' _ hcw hstep
        obtain ⟨w', hw, hrel⟩ := hstep.forward hcw.1 hcw.2
        exact ⟨w', hw, hrel, UThread.inv_step hcw.2 hw⟩
    obtain ⟨w, hruns, hrel, hi⟩ := hsim
    refine ⟨w, hruns, hrel, fun op b hall => ?_⟩
    obtain ⟨bs, hholds⟩ := hrel
    obtain ⟨hallowed, hb⟩ := hholds.allowed.mp hall
    obtain ⟨hright, n, x, hx⟩ := hholds.exec hi hallowed hb
    exact ⟨n, x, hx, hright n x hx⟩
  · intro ops w hrun
    obtain ⟨ls, c, hops, hruns, hrel, _⟩ := exists_heap_run cfg h blocks hrun
    exact ⟨ls, c, hops, hruns, hrel⟩

theorem heap_runs_refine_post : ∃ ls c,
    ls.map Prod.fst = [.utCreate 1, .utCreate 2, .utRun, .semWait 0 1, .semPost 0 1, .utExit] ∧
    Runs Step (HeapWorld.init Config.plain (fun a => ⟨a, a⟩) fun _ => ⟨⟨0⟩, 0⟩) ls c ∧
    c.mem.runningThread = some (.user 1) := by
  have hrun := runs_of_runAll UThread.Allowed UThread.exec
    [.utCreate 1, .utCreate 2, .utRun, .semWait 0 1, .semPost 0 1, .utExit]
    (World.init Config.plain) rfl
  obtain ⟨ls, c, hops, hruns, bs, hholds⟩ :=
    (heap_runs_refine Config.plain (fun a => ⟨a, a⟩) fun _ => ⟨⟨0⟩, 0⟩).2 _ _ hrun
  exact ⟨ls, c, hops, hruns, hholds.sched.running⟩

end OsCourse.Intrusive
