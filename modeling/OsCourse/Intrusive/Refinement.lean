import OsCourse.Intrusive.Synchronizers
import OsCourse.UThread.Progress

/-! The library on its memory does what it does on sequences: its programs make the same calls, to
the same ends. -/
namespace OsCourse.Intrusive
open Function Linked OsCourse.Lists Placement Transition
open UThread (Config Fault Handle Op Sched Semaphore SemaphoreWaitblock Sync World)

/-- The memory holds the world, with the wait blocks `bs o` in the list of `o`: each of them is
the one in the frame of the call that its thread is suspended in. -/
structure Holds (bs : Sync → List Nat) (c : HeapWorld) (w : World) : Prop where
  sched : SchedHolds bs c.mem w.sched
  sync : SyncHolds bs c.mem w
  pending : c.pending = w.pending
  halted : c.halted = w.halted
  frames : ∀ o, ∀ b ∈ bs o, c.frame (c.mem.blocks b).header.thread = some b

def Rel (c : HeapWorld) (w : World) : Prop := ∃ bs, Holds bs c w

variable {bs : Sync → List Nat} {c c' : HeapWorld} {w w' : World} {o : Sync} {b : Nat} {op : Op}
  {t : Handle}

/-- A wait block that is in no frame is in no list. -/
theorem Holds.fresh (h : Holds bs c w) (hb : ∀ t, c.frame t ≠ some b) (o : Sync) : b ∉ bs o :=
  fun hmem => hb _ (h.frames o b hmem)

theorem Holds.midCall (h : Holds bs c w) : c.midCall = w.midCall := by
  have hr := h.sched.running
  unfold HeapWorld.midCall World.midCall
  rw [h.pending]
  cases hx : w.sched.runningThread with
  | none =>
    rw [hx] at hr
    simp only [hr]
  | some x =>
    rw [hx] at hr
    cases x <;> simp only [hr]

theorem Holds.admits (h : Holds bs c w) (op : Op) : c.admits op = w.admits op := by
  cases op <;> simp [HeapWorld.admits, World.admits, h.sched.live, h.halted]

theorem Holds.allowed (h : Holds bs c w) :
    Allowed c op b ↔ UThread.Allowed w op ∧ ∀ t, c.frame t ≠ some b := by
  unfold Allowed UThread.Allowed
  rw [h.midCall, h.admits]
  exact and_assoc.symm

theorem Holds.not_current (h : Holds bs c w) (hi : w.Inv) (ht : w.sched.current = some t)
    (hb : b ∈ bs o) : (c.mem.blocks b).header.thread ≠ t := by
  intro he
  exact hi.current_not_waiting ht o (he ▸ h.sync.mem_waiting hb)

section Scheduling
variable {m' : Mem} {s' : Sched}

theorem Holds.scheduled (h : Holds bs c w) (hm : Scheduled bs c.mem m' s') :
    Holds bs { c with mem := m' } { w with sched := s' } where
  sched := hm.1
  sync := h.sync.untouched hm.2 rfl rfl rfl
  pending := h.pending
  halted := h.halted
  frames := by
    intro o b hb
    dsimp only
    rw [hm.2.blocks]
    exact h.frames o b hb

theorem Holds.leave (h : Holds bs c w) (hi : w.Inv) (op : Op) (b : Nat)
    (hm : Scheduled bs c.mem m' s') : Holds bs (c.leave op b m') (w.leave op s') := by
  have hcur : c.mem.current = w.sched.current := h.sched.current
  have hnext : m'.current = s'.current := hm.1.current
  have hplain := h.scheduled hm
  unfold HeapWorld.leave World.leave
  rw [hcur, hnext]
  cases ht : w.sched.current with
  | none => exact hplain
  | some t =>
    by_cases hsame : s'.current = some t
    · simp only [hsame, if_true]
      exact hplain
    · simp only [hsame, if_false]
      refine ⟨hplain.sched, hplain.sync.untouched (Untouched.refl m') rfl rfl rfl, ?_,
        h.halted, ?_⟩
      · dsimp only
        rw [h.pending]
      · intro o b' hb'
        have hne : (m'.blocks b').header.thread ≠ t := by
          rw [hm.2.blocks]
          exact h.not_current hi ht hb'
        dsimp only
        rw [update_of_ne hne]
        exact hplain.frames o b' hb'

end Scheduling

section Waiting
variable {wb : SemaphoreWaitblock}

theorem next_of_schedule (hi : w.Inv) (ht : w.sched.current = some t) {s' : Sched}
    (hs : UThread.schedule w.sched = .ok s') : s'.current ≠ some t := by
  rw [UThread.schedule_eq_dispatch hs hi.mainThread]
  intro hnext
  have hmem : t ∈ w.sched.dispatch.current.toList := by simp [hnext]
  have hready := List.mem_append_left w.sched.dispatch.readyQueue hmem
  rw [UThread.dispatch_front] at hready
  exact hi.current_not_ready ht hready

/-- After call `op` has put its thread last in the list of `o`, which shows `x` then, and given
the scheduler `s`. -/
structure Suspends (w : World) (op : Op) (o : Sync) (x : Handle × Option Int32) (s : Sched)
    (w' : World) : Prop where
  sched : w'.sched = s
  pending : w'.pending = (w.leave op s).pending
  halted : w'.halted = w.halted
  event : ∀ e, (w'.events e).signaled = (w.events e).signaled
  auto : ∀ a, (w'.autos a).signaled = (w.autos a).signaled
  units : ∀ i, (w'.sems i).units = (w.sems i).units
  limit : ∀ i, (w'.sems i).limit = (w.sems i).limit
  shown : shown w' = update (Intrusive.shown w) o (Intrusive.shown w o ++ [x])

theorem Holds.enqueue (h : Holds bs c w) (hi : w.Inv) (ht : w.sched.current = some t)
    (hb : ∀ t, c.frame t ≠ some b) (hop : op.waitsOn = some o) (hwb : wb.header.thread = t)
    {mk : Sched → World} (hmk : ∀ s, Suspends w op o (seen (fun _ => wb) o b) s (mk s)) :
    Matched (fun m' s' => Rel (c.leave op b m') (mk s'))
      (enqueue o b { c.mem with blocks := update c.mem.blocks b wb })
      (UThread.utDeactivate w.sched) := by
  have hfresh := h.fresh hb
  have hsch : SchedHolds (update bs o (bs o ++ [b]))
      { c.mem with
        blocks := update c.mem.blocks b wb
        links := insertListLast c.mem.links (.waiters o) (.block b) } w.sched :=
    ⟨enqueue_rings h.sched.rings hfresh o, h.sched.numberOfThreads, h.sched.running,
      h.sched.main, h.sched.live⟩
  have hmatched := hsch.schedule
  unfold Intrusive.enqueue utDeactivate UThread.utDeactivate
  generalize hx : Intrusive.schedule _ = x at hmatched
  generalize hy : UThread.schedule w.sched = y at hmatched
  cases hmatched with
  | error e => exact Matched.error e
  | @ok m' s' hm =>
    refine Matched.ok ⟨update bs o (bs o ++ [b]), ?_⟩
    have hleft := next_of_schedule hi ht hy
    have hsuspend : c.leave op b m' = { c with
        mem := m'
        pending := update c.pending t (some op)
        frame := update c.frame t (some b) } := by
      have hcur : c.mem.current = some t := h.sched.current.trans ht
      have hnext : m'.current ≠ some t := fun he => hleft (hm.1.current.symm.trans he)
      simp only [HeapWorld.leave, hcur, if_neg hnext, hop, Option.map_some]
    have hd := hmk s'
    have hu := hm.2
    rw [hsuspend]
    refine ⟨?_, ⟨?_, ?_, ?_, ?_, ?_⟩, ?_, ?_, ?_⟩
    · rw [hd.sched]
      exact hm.1
    · intro e
      rw [hd.event, hu.signaled]
      exact h.sync.event e
    · intro a
      rw [hd.auto, hu.signaled]
      exact h.sync.auto a
    · intro i
      rw [hd.units, hu.units]
      exact h.sync.units i
    · intro i
      rw [hd.limit, hu.limit]
      exact h.sync.limit i
    · intro o'
      rw [hd.shown, hu.blocks]
      exact waiters_enqueue h.sync.waiters hfresh o'
    · rw [hd.pending]
      simp only [World.leave, ht, if_neg hleft, h.pending]
    · rw [hd.halted]
      exact h.halted
    · intro o' b' hb'
      dsimp only
      rw [hu.blocks]
      by_cases hbb : b' = b
      · subst hbb
        simp [hwb]
      · have hold : b' ∈ bs o' := by
          by_cases ho : o' = o
          · subst ho
            simpa [hbb] using hb'
          · simpa [ho] using hb'
        have hne := h.not_current hi ht hold
        dsimp only
        rw [update_of_ne hbb, update_of_ne hne]
        exact h.frames o' b' hold

theorem initWaitblock_some (h : SchedHolds bs c.mem w.sched) (ht : w.sched.current = some t) :
    initWaitblock b c.mem = .ok { c.mem with
      blocks := update c.mem.blocks b { c.mem.blocks b with header := ⟨t⟩ } } := by
  have hr : c.mem.runningThread = some (.user t) :=
    h.running.trans (UThread.current_eq_some.mp ht)
  simp [initWaitblock, hr]

theorem initWaitblock_none (h : SchedHolds bs c.mem w.sched) (ht : w.sched.current = none) :
    initWaitblock b c.mem = .error .badThread ∧
      UThread.initWaitblock w.sched = .error .badThread := by
  unfold initWaitblock UThread.initWaitblock UThread.utSelf
  rw [h.running]
  unfold Sched.current at ht
  cases hr : w.sched.runningThread with
  | none => exact ⟨rfl, rfl⟩
  | some x =>
    rw [hr] at ht
    cases x with
    | main => exact ⟨rfl, rfl⟩
    | user t => cases ht

theorem Holds.passed (h : Holds bs c w) (op : Op) (b : Nat) {signaled : Sync → Bool}
    {units : Nat → Int32} {w' : World}
    (hsync : SyncHolds bs { c.mem with signaled := signaled, units := units } w')
    (hsched : w'.sched = w.sched) (hpending : w'.pending = w.pending)
    (hhalted : w'.halted = w.halted) :
    Rel (c.leave op b { c.mem with signaled := signaled, units := units }) w' := by
  have hsame : c.leave op b { c.mem with signaled := signaled, units := units } =
      { c with mem := { c.mem with signaled := signaled, units := units } } := by
    unfold HeapWorld.leave
    cases ht : c.mem.current with
    | none => rfl
    | some t =>
      have hnext : Mem.current { c.mem with signaled := signaled, units := units } = some t := ht
      simp only [hnext, if_true]
  rw [hsame]
  refine ⟨bs, ?_, hsync, h.pending.trans hpending.symm, h.halted.trans hhalted.symm, h.frames⟩
  rw [hsched]
  exact ⟨h.sched.rings, h.sched.numberOfThreads, h.sched.running, h.sched.main, h.sched.live⟩

theorem matched_finish {x : Except Fault Mem} {y : Except Fault Sched} {f : Mem → HeapWorld}
    {g : Sched → World} (h : Matched (fun m s => Rel (f m) (g s)) x y) :
    Matched Rel (do return f (← x)) (do return g (← y)) :=
  Matched.bind h fun _ _ hr => Matched.ok hr

theorem Holds.eventWait (h : Holds bs c w) (hi : w.Inv) (hb : ∀ t, c.frame t ≠ some b) (e : Nat) :
    Matched Rel (do return c.leave (.eventWait e) b (← eventWait e b c.mem))
      (UThread.exec (.eventWait e) w) := by
  have hsig := h.sync.event e
  by_cases hs : (w.events e).signaled = false
  · cases ht : w.sched.current with
    | none =>
      obtain ⟨hc, hw⟩ := initWaitblock_none (b := b) h.sched ht
      simp only [Intrusive.eventWait, UThread.exec, UThread.eventWait, hsig, hs, if_true, hc, hw]
      exact Matched.error _
    | some t =>
      have hmem : Intrusive.eventWait e b c.mem = Intrusive.enqueue (.event e) b { c.mem with
          blocks := update c.mem.blocks b { c.mem.blocks b with header := ⟨t⟩ } } := by
        rw [Intrusive.eventWait, if_pos (hsig.trans hs), initWaitblock_some h.sched ht]
        rfl
      have hworld : UThread.exec (.eventWait e) w = do
          return { w.leave (.eventWait e) (← UThread.utDeactivate w.sched) with
            events := update w.events e { w.events e with
              waiters := UThread.insertListLast (w.events e).waiters ⟨t⟩
              log := (w.events e).log ++ [.blocked t] } } := by
        simp only [UThread.exec, UThread.eventWait, if_pos hs, UThread.initWaitblock_current ht]
        cases UThread.utDeactivate w.sched <;> rfl
      rw [hmem, hworld]
      apply matched_finish
      refine h.enqueue hi ht hb rfl rfl fun s => ?_
      refine ⟨rfl, rfl, rfl, fun e' => ?_, fun _ => rfl, fun _ => rfl, fun _ => rfl, ?_⟩
      · by_cases he : e' = e <;> simp [he]
      · refine (shown_event w _ _ _ e _).trans ?_
        simp [UThread.insertListLast, shown, seen]
  · have hpass := h.passed (.eventWait e) b h.sync rfl rfl rfl
    have hmem : Intrusive.eventWait e b c.mem = .ok c.mem := by
      rw [Intrusive.eventWait, if_neg (by rwa [hsig])]
      rfl
    have hworld : UThread.exec (.eventWait e) w = .ok w := by
      have hsame : update w.events e (w.events e) = w.events := update_eq_self e w.events
      simp only [UThread.exec, UThread.eventWait, if_neg hs, pure_bind, UThread.leave_same, hsame]
      rfl
    rw [hmem, hworld]
    exact Matched.ok hpass

theorem Holds.autoEventWait (h : Holds bs c w) (hi : w.Inv) (hb : ∀ t, c.frame t ≠ some b)
    (a : Nat) :
    Matched Rel (do return c.leave (.autoEventWait a) b (← autoEventWait a b c.mem))
      (UThread.exec (.autoEventWait a) w) := by
  have hsig := h.sync.auto a
  by_cases hs : (w.autos a).signaled = true
  · have hmem : Intrusive.autoEventWait a b c.mem =
        .ok { c.mem with signaled := update c.mem.signaled (.auto a) false } := by
      rw [Intrusive.autoEventWait, if_pos (hsig.trans hs)]
      rfl
    have hworld : UThread.exec (.autoEventWait a) w = .ok { w with
        autos := update w.autos a { w.autos a with
          signaled := false
          log := (w.autos a).log ++ [.passed] } } := by
      simp only [UThread.exec, UThread.autoEventWait, if_pos hs, pure_bind, UThread.leave_same]
      rfl
    rw [hmem, hworld]
    refine Matched.ok (h.passed (.autoEventWait a) b ?_ rfl rfl rfl)
    refine ⟨fun e => ?_, fun a' => ?_, h.sync.units, h.sync.limit, fun o => ?_⟩
    · simpa using h.sync.event e
    · by_cases ha : a' = a
      · simp [ha]
      · simpa [ha] using h.sync.auto a'
    · rw [h.sync.waiters o, shown_auto w]
      by_cases ho : o = .auto a
      · subst ho
        simp [shown]
      · rw [update_of_ne ho]
  · cases ht : w.sched.current with
    | none =>
      obtain ⟨hc, hw⟩ := initWaitblock_none (b := b) h.sched ht
      simp only [Intrusive.autoEventWait, UThread.exec, UThread.autoEventWait, hsig, if_neg hs,
        hc, hw]
      exact Matched.error _
    | some t =>
      have hmem : Intrusive.autoEventWait a b c.mem = Intrusive.enqueue (.auto a) b { c.mem with
          blocks := update c.mem.blocks b { c.mem.blocks b with header := ⟨t⟩ } } := by
        rw [Intrusive.autoEventWait, if_neg (by rwa [hsig]), initWaitblock_some h.sched ht]
        rfl
      have hworld : UThread.exec (.autoEventWait a) w = do
          return { w.leave (.autoEventWait a) (← UThread.utDeactivate w.sched) with
            autos := update w.autos a { w.autos a with
              waiters := UThread.insertListLast (w.autos a).waiters ⟨t⟩
              log := (w.autos a).log ++ [.blocked t] } } := by
        simp only [UThread.exec, UThread.autoEventWait, if_neg hs, UThread.initWaitblock_current ht]
        cases UThread.utDeactivate w.sched <;> rfl
      rw [hmem, hworld]
      apply matched_finish
      refine h.enqueue hi ht hb rfl rfl fun s => ?_
      refine ⟨rfl, rfl, rfl, fun _ => rfl, fun a' => ?_, fun _ => rfl, fun _ => rfl, ?_⟩
      · by_cases ha : a' = a <;> simp [ha]
      · refine (shown_auto w _ _ _ a _).trans ?_
        simp [UThread.insertListLast, shown, seen]

theorem Holds.semWait (h : Holds bs c w) (hi : w.Inv) (hb : ∀ t, c.frame t ≠ some b) (i : Nat)
    (units : Int32) :
    Matched Rel (do return c.leave (.semWait i units) b (← semWait i b units c.mem))
      (UThread.exec (.semWait i units) w) := by
  have hunits := h.sync.units i
  have hempty : isListEmpty c.mem.links (.waiters (.sem i)) =
      UThread.isListEmpty (w.sems i).waiters := by
    have hw := congrArg List.isEmpty (h.sync.waiters (.sem i))
    rw [waiters_empty h.sched.rings]
    simpa [shown, UThread.isListEmpty] using hw
  by_cases hs : UThread.isListEmpty (w.sems i).waiters ∧ (w.sems i).units ≥ units
  · have hmem : Intrusive.semWait i b units c.mem =
        .ok { c.mem with units := update c.mem.units i (c.mem.units i - units) } := by
      rw [Intrusive.semWait, if_pos (by rwa [hempty, hunits])]
      rfl
    have hworld : UThread.exec (.semWait i units) w = .ok { w with
        sems := update w.sems i { w.sems i with
          units := (w.sems i).units - units
          log := (w.sems i).log ++ [.requested (UThread.utSelf w.sched) units,
            .granted (UThread.utSelf w.sched) units] } } := by
      simp only [UThread.exec, UThread.semWait, if_pos hs, pure_bind, UThread.leave_same]
      rfl
    rw [hmem, hworld]
    refine Matched.ok (h.passed (.semWait i units) b ?_ rfl rfl rfl)
    refine ⟨h.sync.event, h.sync.auto, fun i' => ?_, fun i' => ?_, fun o => ?_⟩
    · by_cases hi' : i' = i
      · simp [hi', hunits]
      · simpa [hi'] using h.sync.units i'
    · by_cases hi' : i' = i
      · simpa [hi'] using h.sync.limit i
      · simpa [hi'] using h.sync.limit i'
    · rw [h.sync.waiters o, shown_sem w]
      by_cases ho : o = .sem i
      · subst ho
        simp [shown]
      · rw [update_of_ne ho]
  · cases ht : w.sched.current with
    | none =>
      obtain ⟨hc, hw⟩ := initWaitblock_none (b := b) h.sched ht
      simp only [Intrusive.semWait, UThread.exec, UThread.semWait, hempty, hunits, if_neg hs,
        initSemWaitblock, UThread.initSemWaitblock, hc, hw]
      exact Matched.error _
    | some t =>
      have hmem : Intrusive.semWait i b units c.mem = Intrusive.enqueue (.sem i) b { c.mem with
          blocks := update c.mem.blocks b ⟨⟨t⟩, units⟩ } := by
        rw [Intrusive.semWait, if_neg (by rwa [hempty, hunits]), initSemWaitblock,
          initWaitblock_some h.sched ht]
        change Intrusive.enqueue _ _ _ = _
        simp
      have hworld : UThread.exec (.semWait i units) w = do
          return { w.leave (.semWait i units) (← UThread.utDeactivate w.sched) with
            sems := update w.sems i { w.sems i with
              waiters := UThread.insertListLast (w.sems i).waiters ⟨⟨t⟩, units⟩
              log := (w.sems i).log ++ [.requested (UThread.utSelf w.sched) units,
                .blocked t] } } := by
        simp only [UThread.exec, UThread.semWait, if_neg hs, UThread.initSemWaitblock,
          UThread.initWaitblock_current ht]
        cases UThread.utDeactivate w.sched <;> rfl
      rw [hmem, hworld]
      apply matched_finish
      refine h.enqueue hi ht hb rfl rfl fun s => ?_
      refine ⟨rfl, rfl, rfl, fun _ => rfl, fun _ => rfl, fun i' => ?_, fun i' => ?_, ?_⟩
      · by_cases hi' : i' = i <;> simp [hi']
      · by_cases hi' : i' = i <;> simp [hi']
      · refine (shown_sem w _ _ _ i _).trans ?_
        simp [UThread.insertListLast, shown, seen]

end Waiting

section Waking
variable {m' : Mem}

theorem ready_waiting_nodup (hi : w.Inv) (o : Sync) :
    (w.sched.readyQueue ++ w.waiting o).Nodup := by
  rw [List.nodup_append]
  refine ⟨hi.partition.nodup .ready, hi.partition.nodup (.waiters o), ?_⟩
  rintro t hready _ hwaits rfl
  cases hi.partition.unique .ready (.waiters o) t hready hwaits

theorem Holds.woken (h : Holds bs c w) (o : Sync) (rest : List Nat) (hsub : rest ⊆ bs o)
    (hblocks : m'.blocks = c.mem.blocks) (hsched : SchedHolds (update bs o rest) m' w'.sched)
    (hsync : SyncHolds (update bs o rest) m' w') (hpending : w'.pending = w.pending)
    (hhalted : w'.halted = w.halted) : Rel { c with mem := m' } w' := by
  refine ⟨update bs o rest, hsched, hsync, h.pending.trans hpending.symm,
    h.halted.trans hhalted.symm, ?_⟩
  intro o' b hb
  dsimp only
  rw [hblocks]
  by_cases ho : o' = o
  · subst ho
    rw [update_self] at hb
    exact h.frames o' b (hsub hb)
  · rw [update_of_ne ho] at hb
    exact h.frames o' b hb

theorem Holds.eventSet (h : Holds bs c w) (hi : w.Inv) (e n : Nat) :
    (∀ m', eventSet n e c.mem = some m' → ∃ w', UThread.exec (.eventSet e) w = .ok w' ∧
      Rel { c with mem := m' } w') ∧
    ((bs (.event e)).length < n → ∃ m', eventSet n e c.mem = some m') := by
  have hwaiting := h.sync.waiting (.event e)
  have hnodup := ready_waiting_nodup hi (.event e)
  obtain ⟨hright, hends⟩ := eventSetLoop_spec (.event e) n
    (m := { c.mem with signaled := update c.mem.signaled (.event e) true }) h.sched.rings
    (by rw [hwaiting]; exact hnodup)
  refine ⟨fun m' hm => ⟨_, rfl, ?_⟩, hends⟩
  obtain ⟨links, rfl, hrings⟩ := hright m' hm
  rw [hwaiting] at hrings
  have hset := UThread.eventSet_eq (w.events e) w.sched
  refine h.woken (.event e) [] (List.nil_subset _) rfl ?_ ?_ rfl rfl
  · dsimp only
    rw [hset]
    exact ⟨hrings, h.sched.numberOfThreads, h.sched.running, h.sched.main, h.sched.live⟩
  · rw [hset]
    refine ⟨fun e' => ?_, fun a => ?_, h.sync.units, h.sync.limit, fun o => ?_⟩
    · by_cases he : e' = e
      · simp [he]
      · simpa [he] using h.sync.event e'
    · simpa using h.sync.auto a
    · rw [shown_event w]
      exact waiters_update h.sync.waiters (fun _ _ _ _ => rfl) rfl o

theorem Holds.autoEventSet (h : Holds bs c w) (hi : w.Inv) (a : Nat) :
    ∃ m' w', autoEventSet a c.mem = some m' ∧ UThread.exec (.autoEventSet a) w = .ok w' ∧
      Rel { c with mem := m' } w' := by
  have hempty := waiters_empty (o := .auto a) h.sched.rings
  have hshown := h.sync.waiters (.auto a)
  cases hwaiters : (w.autos a).waiters with
  | nil =>
    have ho : bs (.auto a) = [] := by
      simpa [shown, hwaiters] using hshown
    have hend : Intrusive.autoEventSet a c.mem =
        some { c.mem with signaled := update c.mem.signaled (.auto a) true } := by
      rw [Intrusive.autoEventSet, hempty, ho]
      rfl
    have hset : UThread.autoEventSet (w.autos a) w.sched =
        ({ w.autos a with signaled := true, log := (w.autos a).log ++ [.set] }, w.sched) := by
      simp [UThread.autoEventSet, hwaiters]
    refine ⟨_, _, hend, rfl, h.woken (.auto a) [] (List.nil_subset _) rfl ?_ ?_
      rfl rfl⟩
    all_goals rw [hset, ← ho, update_eq_self]
    · exact ⟨h.sched.rings, h.sched.numberOfThreads, h.sched.running, h.sched.main,
        h.sched.live⟩
    · refine ⟨fun e => ?_, fun a' => ?_, h.sync.units, h.sync.limit, fun o => ?_⟩
      · simpa using h.sync.event e
      · by_cases ha : a' = a
        · simp [ha]
        · simpa [ha] using h.sync.auto a'
      · rw [h.sync.waiters o, shown_auto w]
        by_cases ho : o = .auto a
        · subst ho
          simp [shown]
        · rw [update_of_ne ho]
  | cons wb waiters =>
    simp only [shown, hwaiters, List.map_cons] at hshown
    obtain ⟨b, rest, ho, hb, hrest⟩ := List.map_eq_cons_iff.mp hshown
    have hthread : (c.mem.blocks b).header.thread = wb.thread := congrArg Prod.fst hb
    obtain ⟨hfirst, hrings⟩ := dequeue_rings h.sched.rings ho
    have hend : Intrusive.autoEventSet a c.mem = some (utActivate wb.thread
        { c.mem with links := (removeListFirst c.mem.links (.waiters (.auto a))).1 }) := by
      rw [Intrusive.autoEventSet, hempty, ho]
      simp only [hfirst, containerBlock, hthread]
      rfl
    have hset : UThread.autoEventSet (w.autos a) w.sched =
        ({ w.autos a with waiters := waiters, log := (w.autos a).log ++ [.set, .passed] },
          UThread.utActivate wb.thread w.sched) := by
      rw [UThread.autoEventSet, hwaiters]
    have hnot : wb.thread ∉ w.sched.readyQueue := fun hready => by
      have hwaits : wb.thread ∈ w.waiting (.auto a) := by simp [hwaiters]
      cases hi.partition.unique .ready (.waiters (.auto a)) _ hready hwaits
    refine ⟨_, _, hend, rfl, h.woken (.auto a) rest ?_ rfl ?_ ?_ rfl rfl⟩
    · rw [ho]
      exact List.subset_cons_self b rest
    · rw [hset]
      exact ⟨activate_rings hrings hnot, h.sched.numberOfThreads, h.sched.running,
        h.sched.main, h.sched.live⟩
    · rw [hset]
      refine ⟨h.sync.event, fun a' => ?_, h.sync.units, h.sync.limit, fun o => ?_⟩
      · by_cases ha : a' = a
        · simpa [ha, utActivate] using h.sync.auto a
        · simpa [ha, utActivate] using h.sync.auto a'
      · rw [shown_auto w]
        exact waiters_update h.sync.waiters (fun _ _ _ _ => rfl) hrest o

theorem Holds.semPost (h : Holds bs c w) (hi : w.Inv) (i n : Nat) (units : Int32) :
    (∀ m', semPost n i units c.mem = some m' → ∃ w',
      UThread.exec (.semPost i units) w = .ok w' ∧ Rel { c with mem := m' } w') ∧
    ((w.sems i).waiters.length < n → ∃ m', semPost n i units c.mem = some m') := by
  have hsum : update c.mem.units i (if c.mem.units i + units > c.mem.limit i then c.mem.limit i
      else c.mem.units i + units) i = (UThread.semPostUnits (w.sems i) units).units := by
    rw [update_self, h.sync.units i, h.sync.limit i, UThread.semPostUnits]
    split <;> rfl
  obtain ⟨hright, hends⟩ := semPostLoop_spec i n (s := w.sched)
    (m := { c.mem with
      units := update c.mem.units i (if c.mem.units i + units > c.mem.limit i then c.mem.limit i
        else c.mem.units i + units) }) h.sched.rings hsum (h.sync.waiters (.sem i))
    (ready_waiting_nodup hi (.sem i))
  refine ⟨fun m' hm => ⟨_, rfl, ?_⟩, hends⟩
  obtain ⟨⟨links, hm'⟩, rest, hrings, hseen, hsub⟩ := hright m' hm
  obtain ⟨served, _, _, _, hlimit, _, _, hsched⟩ :=
    UThread.semPostLoop_spec (w.sems i).waiters (UThread.semPostUnits (w.sems i) units) w.sched
  have hpost : UThread.semPost (w.sems i) units w.sched = UThread.semPostLoop (w.sems i).waiters
    (UThread.semPostUnits (w.sems i) units) w.sched := rfl
  have hsame : (UThread.semPostUnits (w.sems i) units).limit = (w.sems i).limit := by
    unfold UThread.semPostUnits
    dsimp only
    split <;> rfl
  rw [hpost]
  generalize UThread.semPostLoop (w.sems i).waiters
    (UThread.semPostUnits (w.sems i) units) w.sched = r at *
  subst hm'
  refine h.woken _ _ hsub rfl ?_ ?_ rfl rfl
  · refine ⟨hrings, ?_, ?_, ?_, ?_⟩
    all_goals dsimp only; rw [hsched]
    · exact h.sched.numberOfThreads
    · exact h.sched.running
    · exact h.sched.main
    · exact h.sched.live
  · refine ⟨h.sync.event, h.sync.auto, fun i' => ?_, fun i' => ?_, fun o => ?_⟩
    · by_cases hii : i' = i
      · simp [hii]
      · simpa [hii] using h.sync.units i'
    · by_cases hii : i' = i
      · simpa [hii, hlimit, hsame] using h.sync.limit i
      · simpa [hii] using h.sync.limit i'
    · rw [shown_sem w]
      exact waiters_update h.sync.waiters (fun _ _ _ _ => rfl) hseen o

end Waking

end OsCourse.Intrusive
