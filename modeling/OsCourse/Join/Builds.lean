import OsCourse.Join.Joined

/-! The library with JOIN_WITH_EVENT and the one without it, side by side. -/
namespace OsCourse.Join
open Function Placement Transition UThread

/-- What a program can observe of the two builds; `joiners` reads the wait blocks of
`terminated` on one side and the links of `join_waiters` on the other. -/
structure SameWorld (w : World .withEvent) (v : World .withList) : Prop where
  sched : v.lib.sched = w.lib.sched
  aliveQueue : v.lib.aliveQueue = w.lib.aliveQueue
  joiners : ∀ h, v.joiners h = w.joiners h
  pending : v.pending = w.pending
  log : v.log = w.log

theorem sameWorld_init : SameWorld (World.init .withEvent) (World.init .withList) :=
  ⟨rfl, rfl, fun _ => rfl, rfl, rfl⟩

def SameField (r : Event × Sched) (r' : List Handle × Sched) : Prop :=
  Build.joiners .withList r'.1 = Build.joiners .withEvent r.1 ∧ r'.2 = r.2

theorem waitExit_same {terminated : Event} {joinWaiters : List Handle} (s : Sched)
    (hu : Build.Unset .withEvent terminated)
    (hj : Build.joiners .withList joinWaiters = Build.joiners .withEvent terminated) :
    Matched SameField (Build.waitExit .withEvent terminated s)
      (Build.waitExit .withList joinWaiters s) := by
  have hs : terminated.signaled = false := hu
  cases hr : s.runningThread with
  | none =>
    simp only [Build.waitExit, eventWait, hs, initWaitBlock, utSelf, hr]
    exact Matched.error _
  | some c =>
    cases c with
    | main =>
      simp only [Build.waitExit, eventWait, hs, initWaitBlock, utSelf, hr]
      exact Matched.error _
    | user t =>
      have hwb : initWaitBlock s = pure ⟨t⟩ := by
        simp [initWaitBlock, utSelf, hr, pure, Except.pure]
      simp only [Build.waitExit, eventWait, hs, hwb, pure_bind, hr]
      apply Matched.bind (Matched.same (schedule s))
      intro s1 s2 he
      exact Matched.ok ⟨by simpa [Build.joiners, insertTailList] using hj, he.symm⟩

theorem wakeJoiners_same {terminated : Event} {joinWaiters : List Handle} (s : Sched)
    (hj : Build.joiners .withList joinWaiters = Build.joiners .withEvent terminated) :
    SameField (Build.wakeJoiners .withEvent terminated s)
      (Build.wakeJoiners .withList joinWaiters s) := by
  obtain ⟨he, hes⟩ := wakeJoiners_spec (b := .withEvent) terminated s
  obtain ⟨hl, hls⟩ := wakeJoiners_spec (b := .withList) joinWaiters s
  refine ⟨hl.trans he.symm, ?_⟩
  rw [hls, hes, hj]

structure SameLib (l : Lib .withEvent) (m : Lib .withList) : Prop where
  sched : m.sched = l.sched
  aliveQueue : m.aliveQueue = l.aliveQueue
  joiners : ∀ k, Build.joiners .withList (m.field k) = Build.joiners .withEvent (l.field k)

variable {l : Lib .withEvent} {m : Lib .withList}

theorem SameLib.update_joiners (h : SameLib l m) (x : Handle)
    {d : Build.Field .withEvent} {q : Build.Field .withList}
    (hx : Build.joiners .withList q = Build.joiners .withEvent d) (k : Handle) :
    Build.joiners .withList (update m.field x q k) =
      Build.joiners .withEvent (update l.field x d k) := by
  by_cases hk : k = x
  · subst hk
    simpa using hx
  · simpa [hk] using h.joiners k

theorem SameLib.utAlive (h : SameLib l m) (x : Handle) : utAlive x m = utAlive x l := by
  unfold Join.utAlive
  rw [h.aliveQueue]

theorem SameLib.utCreate (h : SameLib l m) (x : Handle) :
    SameLib (utCreate x l) (utCreate x m) := by
  refine ⟨?_, ?_, h.update_joiners x rfl⟩
  · simp [Join.utCreate, h.sched]
  · simp [Join.utCreate, h.aliveQueue]

theorem SameLib.utJoin (h : SameLib l m) (x : Handle)
    (hu : x ∈ l.aliveQueue → Build.Unset .withEvent (l.field x)) :
    Matched SameLib (utJoin x l) (utJoin x m) := by
  unfold Join.utJoin
  rw [h.utAlive, h.sched]
  by_cases halive : Join.utAlive x l
  · rw [if_neg (by simpa using halive), if_neg (by simpa using halive)]
    apply Matched.bind (waitExit_same l.sched (hu (utAlive_iff.1 halive)) (h.joiners x))
    intro r r' hr
    exact Matched.ok ⟨hr.2, h.aliveQueue, h.update_joiners x hr.1⟩
  · rw [if_pos halive, if_pos halive]
    exact Matched.ok h

theorem SameLib.utExit (h : SameLib l m) : Matched SameLib (utExit l) (utExit m) := by
  unfold Join.utExit
  rw [h.sched]
  split
  · rename_i t _
    have hwake := wakeJoiners_same
      { l.sched with numberOfThreads := l.sched.numberOfThreads - 1 } (h.joiners t)
    simp only [hwake.2]
    apply Matched.bind (Matched.same _)
    intro s _ he
    subst he
    refine Matched.ok ⟨rfl, ?_, h.update_joiners t hwake.1⟩
    simp [h.aliveQueue]
  · exact Matched.error _

variable {w : World .withEvent} {v : World .withList}

theorem SameWorld.leave (h : SameWorld w v) (op : Op) {l : Lib .withEvent} {m : Lib .withList}
    (hl : SameLib l m) : SameWorld (w.leave op l) (v.leave op m) := by
  refine ⟨hl.sched, hl.aliveQueue, hl.joiners, ?_, h.log⟩
  unfold World.leave
  rw [h.sched, h.pending, hl.sched]

theorem SameWorld.resume (h : SameWorld w v) (t : Handle) :
    SameWorld (w.resume t) (v.resume t) := by
  refine ⟨h.sched, h.aliveQueue, h.joiners, ?_, ?_⟩
  · simp [World.resume, h.pending]
  · simp [World.resume, h.pending, h.log]

theorem SameWorld.withSched (h : SameWorld w v) (s : Sched) :
    SameWorld { w with lib := { w.lib with sched := s } }
      { v with lib := { v.lib with sched := s } } :=
  ⟨rfl, h.aliveQueue, h.joiners, h.pending, h.log⟩

theorem SameWorld.allowed (h : SameWorld w v) (op : Op) : Allowed v op ↔ Allowed w op := by
  have hmid : v.midCall = w.midCall := by
    unfold World.midCall
    rw [h.sched, h.pending]
  have hadm : v.admits op = w.admits op := by
    cases op with
    | utCreate x => simp [World.admits, h.sched]
    | _ => rfl
  unfold Allowed
  rw [hmid, hadm]

theorem SameWorld.blockedOn (h : SameWorld w v) (t s : Handle) :
    v.BlockedOn t s ↔ w.BlockedOn t s := by
  unfold World.BlockedOn
  rw [h.sched, h.pending]

theorem SameWorld.lib (h : SameWorld w v) : SameLib w.lib v.lib :=
  ⟨h.sched, h.aliveQueue, h.joiners⟩

theorem SameWorld.joinSteps (h : SameWorld w v) (x : Handle) {l : Lib .withEvent}
    {m : Lib .withList} (hl : SameLib l m) : v.joinSteps x m = w.joinSteps x l := by
  unfold World.joinSteps
  rw [h.sched, hl.sched, h.lib.utAlive]

theorem SameWorld.exec (h : SameWorld w v) (hi : w.Inv) (op : Op) :
    Matched SameWorld (exec op w) (exec op v) := by
  have hs := h.sched
  cases op with
  | utCreate x =>
    have hl := h.lib.utCreate x
    exact Matched.ok ⟨hl.sched, hl.aliveQueue, hl.joiners, by simp [h.pending], by simp [h.log]⟩
  | utYield =>
    simp only [Join.exec, hs]
    apply Matched.bind (Matched.same _)
    intro s _ he
    subst he
    exact Matched.ok (h.leave .utYield ⟨rfl, h.aliveQueue, h.joiners⟩)
  | utJoin x =>
    simp only [Join.exec]
    apply Matched.bind (h.lib.utJoin x fun hx => hi.unset x ((hi.mem_alive x).1 hx))
    intro l m hl
    have hleave := h.leave (.utJoin x) hl
    refine Matched.ok ⟨hleave.sched, hleave.aliveQueue, hleave.joiners, hleave.pending, ?_⟩
    simp [h.log, h.joinSteps x hl]
  | utExit =>
    simp only [Join.exec]
    apply Matched.bind h.lib.utExit
    intro l m hl
    exact Matched.ok ⟨hl.sched, hl.aliveQueue, hl.joiners, h.pending, by simp [h.log, hs]⟩
  | utRun =>
    simp only [Join.exec, hs]
    apply Matched.bind (Matched.same _)
    intro s _ he
    subst he
    exact Matched.ok (h.withSched s)
  | ret =>
    simp only [Join.exec, hs]
    cases w.lib.sched.runningThread with
    | none => exact Matched.ok h
    | some c =>
      cases c with
      | main =>
        apply Matched.bind (Matched.same _)
        intro s _ he
        subst he
        exact Matched.ok (h.withSched s)
      | user t => exact Matched.ok (h.resume t)

theorem SameWorld.step {op : Op} {w' : World .withEvent} (h : SameWorld w v) (hi : w.Inv)
    (hs : Step w op w') : ∃ v', Step v op v' ∧ SameWorld w' v' := by
  obtain ⟨v', hv, hrel⟩ := (h.exec hi op).ok_left hs.2
  exact ⟨v', ⟨(h.allowed op).2 hs.1, hv⟩, hrel⟩

theorem SameWorld.step_back {op : Op} {v' : World .withList} (h : SameWorld w v) (hi : w.Inv)
    (hs : Step v op v') : ∃ w', Step w op w' ∧ SameWorld w' v' := by
  obtain ⟨w', hw, hrel⟩ := (h.exec hi op).ok_right hs.2
  exact ⟨w', ⟨(h.allowed op).1 hs.1, hw⟩, hrel⟩

/-- After the same calls, as many as there are, the two builds are in worlds with the
same scheduler (threads dispatched so far, ready queue, running thread), the same alive
list, the same joiners of each thread in the same order and the same blocked threads;
and each build can make the calls that the other can. -/
theorem builds_agree (ops : List Op) :
    (∀ w, Runs Step (World.init .withEvent) ops w →
      ∃ v, Runs Step (World.init .withList) ops v ∧ SameWorld w v ∧
        ∀ t s, v.BlockedOn t s ↔ w.BlockedOn t s) ∧
    (∀ v, Runs Step (World.init .withList) ops v →
      ∃ w, Runs Step (World.init .withEvent) ops w ∧ SameWorld w v ∧
        ∀ t s, v.BlockedOn t s ↔ w.BlockedOn t s) := by
  have h0 : (World.init .withEvent).Inv ∧
      SameWorld (World.init .withEvent) (World.init .withList) := ⟨inv_init _, sameWorld_init⟩
  have hall : ∀ op ∈ ops, (fun _ : Op => True) op := fun _ _ => trivial
  constructor
  · intro w hw
    obtain ⟨v, hv, hrel⟩ := hw.simulation (f := id) (R := fun w v => w.Inv ∧ SameWorld w v)
      hall h0 (fun a c op a' _ hac hs => by
        obtain ⟨c', hc, hrel⟩ := hac.2.step hac.1 hs
        exact ⟨c', hc, inv_step hac.1 hs, hrel⟩)
    exact ⟨v, by simpa using hv, hrel.2, hrel.2.blockedOn⟩
  · intro v hv
    obtain ⟨w, hw, hrel⟩ := Runs.simulation_back (f := id)
      (R := fun w v => w.Inv ∧ SameWorld w v) (by simpa using hv)
      hall h0 (fun a c op c' _ hac hs => by
        obtain ⟨a', ha, hrel⟩ := hac.2.step_back hac.1 hs
        exact ⟨a', ha, inv_step hac.1 ha, hrel⟩)
    exact ⟨w, hw, hrel.2, hrel.2.blockedOn⟩

end OsCourse.Join
