import OsCourse.Lib.History
import OsCourse.UThread.Semaphore

/-! The single-shot broadcast event over whole histories: who blocks does so before
the first `event_set`, and returns after it. -/
namespace OsCourse.UThread
open Function Placement Transition History

def arrivals (log : List EventStep) : List Handle :=
  log.filterMap fun | .blocked t => some t | _ => none

/-- A thread blocks while no `event_set` was called, and returns when it had
blocked and one was. -/
def inOrder (x : EventStep) (pre : List EventStep) : Prop :=
  match x with
  | .blocked _ => .set ∉ pre
  | .returned t => .set ∈ pre ∧ .blocked t ∈ pre
  | _ => True

structure EventInv (ev : Event) : Prop where
  signaled_iff : ev.signaled = true ↔ .set ∈ ev.log
  released : ev.signaled = true → ev.waiters = []
  arrived : .set ∉ ev.log → ev.waiters.map (·.thread) = arrivals ev.log
  guarded : Guarded inOrder ev.log

theorem eventInv_init : EventInv eventInit where
  signaled_iff := by simp [eventInit]
  released _ := rfl
  arrived _ := rfl
  guarded := Guarded.nil

theorem eventWait_inv {ev ev' : Event} {s s' : Sched} (hi : EventInv ev)
    (h : eventWait ev s = .ok (ev', s')) : EventInv ev' := by
  obtain ⟨_, rfl, _⟩ | ⟨t, hs, _, _, rfl⟩ := eventWait_cases h
  · exact hi
  · have hset : .set ∉ ev.log := fun hm => by simp [hi.signaled_iff.2 hm] at hs
    refine ⟨by simpa using hi.signaled_iff, by simp [hs], ?_, hi.guarded.snoc hset⟩
    intro _
    simp [hi.arrived hset, arrivals]

theorem eventSet_inv {ev : Event} (s : Sched) (hi : EventInv ev) :
    EventInv (eventSet ev s).1 := by
  rw [eventSet_eq]
  exact ⟨by simp, fun _ => rfl, fun hno => by simp at hno, hi.guarded.snoc trivial⟩

/-- A thread inside `event_wait` is recorded as blocked, and is either still
linked in the list of the event or was released by an `event_set`. -/
structure WaitersInv (w : World) (e : Nat) : Prop where
  event : EventInv (w.events e)
  inside : ∀ t, w.pending t = some (.eventWait e) →
    .blocked t ∈ (w.events e).log ∧ (t ∈ w.waiting (.event e) ∨ .set ∈ (w.events e).log)

theorem pending_step {op o : Op} {w w' : World} (he : Effect op w w') {t : Handle}
    (h : w'.pending t = some o) : w.pending t = some o ∨
      (op = o ∧ w.sched.current = some t ∧ w'.sched.current ≠ some t) := by
  cases he with
  | quiet _ _ _ hp =>
    obtain hp | ⟨_, _, hp⟩ := hp t
    · exact Or.inl (hp ▸ h)
    · rw [hp] at h; cases h
  | create x _ _ _ _ _ hp =>
    rw [hp] at h
    by_cases hx : t = x
    · simp [hx] at h
    · exact Or.inl (by simpa [hx] using h)
  | park u q hcur _ _ _ _ _ _ _ hp =>
    rw [hp] at h
    by_cases ht : w.sched.current = some t
    · simp only [World.leave, ht] at h
      split at h
      · exact Or.inl h
      · exact Or.inr ⟨by simpa using h, ht, ‹_›⟩
    · exact Or.inl (leave_pending_ne ht ▸ h)
  | wake _ _ _ _ _ _ _ _ hp => exact Or.inl (hp ▸ h)
  | exit _ _ _ _ _ _ hp => exact Or.inl (hp ▸ h)
  | start _ _ _ _ hp => exact Or.inl (hp ▸ h)
  | finish _ _ _ _ _ _ hp => exact Or.inl (hp ▸ h)

theorem ret_step {w w' : World} (h : Step w .ret w') :
    (w'.events = w.events ∧ w'.pending = w.pending) ∨
      ∃ t, w.sched.current = some t ∧ w' = w.resume t := by
  obtain rfl | ⟨_, s, _, rfl⟩ | hresumed := ret_cases h.2
  · exact Or.inl ⟨rfl, rfl⟩
  · exact Or.inl ⟨rfl, rfl⟩
  · exact Or.inr hresumed

/-- A return is recorded by the event the thread had blocked on, and by no other. -/
theorem waitersInv_ret {e : Nat} {w w' : World} (hw : w.Inv) (hi : WaitersInv w e)
    (h : Step w .ret w') : WaitersInv w' e := by
  obtain ⟨hev, hp⟩ | ⟨t, hcur, rfl⟩ := ret_step h
  · exact ⟨by rw [hev]; exact hi.event, fun u hu => by
      have hold := hi.inside u (hp ▸ hu)
      simpa only [waiting_event, hev] using hold⟩
  · have hev := hi.event
    by_cases hpe : w.pending t = some (.eventWait e)
    · obtain ⟨hblk, hin | hset⟩ := hi.inside t hpe
      · exact absurd hin (hw.current_not_waiting hcur _)
      · have hlog : (w.resume t).events e =
            { w.events e with log := (w.events e).log ++ [.returned t] } := by
          simp [World.resume, World.logReturn, hpe]
        refine ⟨?_, ?_⟩
        · rw [hlog]
          refine ⟨by simpa using hev.signaled_iff, hev.released, ?_, hev.guarded.snoc ⟨hset, hblk⟩⟩
          intro hno
          exact absurd (List.mem_append_left _ hset) hno
        · intro u hu
          have hold : w.pending u = some (.eventWait e) := by
            by_cases hut : u = t <;> simp [World.resume, hut] at hu
            exact hu
          rw [hlog]
          exact ⟨List.mem_append_left _ (hi.inside u hold).1, Or.inr (List.mem_append_left _ hset)⟩
    · have hsame : (w.resume t).events e = w.events e := by
        simp [World.resume, World.logReturn, hpe]
      refine ⟨by rw [hsame]; exact hev, ?_⟩
      intro u hu
      have hold : w.pending u = some (.eventWait e) := by
        by_cases hut : u = t <;> simp [World.resume, hut] at hu
        exact hu
      simpa only [waiting_event, hsame] using hi.inside u hold

theorem waitersInv_step {op : Op} {e : Nat} {w w' : World} (hw : w.Inv)
    (hi : WaitersInv w e) (h : Step w op w') : WaitersInv w' e := by
  have he := step_effect h hw.mainThread
  by_cases hret : op = .ret
  · subst hret
    exact waitersInv_ret hw hi h
  by_cases ht : op.touches = some (.event e)
  · cases op with
    | eventWait e' =>
      cases ht
      have hs := eventWait_step h
      refine ⟨eventWait_inv hi.event hs, ?_⟩
      intro t hp
      obtain ⟨_, hev, hsched⟩ | ⟨u, _, hcur, _, hev⟩ := eventWait_cases hs
      · obtain hp | ⟨_, hc, hn⟩ := pending_step he hp
        · simpa only [waiting_event, hev] using hi.inside t hp
        · exact absurd (hsched ▸ hc) hn
      · rw [waiting_event, hev]
        obtain hp | ⟨_, hc, _⟩ := pending_step he hp
        · obtain ⟨hblk, hin⟩ := hi.inside t hp
          refine ⟨List.mem_append_left _ hblk, hin.imp (fun hm => ?_) (List.mem_append_left _)⟩
          simpa using Or.inl hm
        · cases hc.symm.trans hcur
          exact ⟨by simp, Or.inl (by simp)⟩
    | eventSet e' =>
      cases ht
      have hset : w'.events e = (eventSet (w.events e) w.sched).1 :=
        congrArg Prod.fst (eventSet_step h)
      refine ⟨by rw [hset]; exact eventSet_inv w.sched hi.event, ?_⟩
      intro t hp
      obtain hp | ⟨hp, _⟩ := pending_step he hp
      · have hold := (hi.inside t hp).1
        rw [hset, eventSet_eq]
        exact ⟨List.mem_append_left _ hold, Or.inr (by simp)⟩
      · cases hp
    | _ => simp [Op.touches] at ht
  · have hsame := (step_frame h).2.2 e ht hret
    refine ⟨by rw [hsame]; exact hi.event, ?_⟩
    intro t hp
    obtain hp | ⟨hp, _⟩ := pending_step he hp
    · simpa only [waiting_event, hsame] using hi.inside t hp
    · exact absurd (by rw [hp]; rfl) ht

theorem waitersInv_of_runs {c : Config} {ops : List Op} {w : World}
    (h : Runs Step (World.init c) ops w) (e : Nat) : WaitersInv w e := by
  have hboth := h.invariant (P := fun w => w.Inv ∧ WaitersInv w e)
    ⟨inv_init c, eventInv_init, fun t ht => by cases ht⟩
    (fun a op b ha hs => ⟨inv_step ha.1 hs, waitersInv_step ha.1 ha.2 hs⟩)
  exact hboth.2

end OsCourse.UThread
