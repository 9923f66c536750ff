import OsCourse.Lib.Placement
import OsCourse.UThread.Sched

/-! The scheduler over time: where a dispatch leaves the threads, which descriptors a
history leaves in use, and insertions in the ready queue against dispatches. -/
namespace OsCourse.UThread
open Function Placement

theorem partition_dispatch {P : Type*} [DecidableEq P] {slots : P → List Handle}
    {live : Finset Handle} {r q : P} (hne : q ≠ r) (h : Partition slots live) (s : Sched)
    (hrun : slots r = []) (hready : slots q = s.readyQueue) :
    Partition (update (update slots q s.dispatch.readyQueue) r s.dispatch.current.toList) live := by
  have hperm : (slots q).Perm (s.dispatch.current.toList ++ s.dispatch.readyQueue) := by
    rw [hready, dispatch_front]
  have hmove := h.move hne hperm
  simpa [hrun] using hmove

/-- The descriptors in use after one more event, or `none` if the event names a
descriptor that is not in use (or creates one that is). -/
def replayStep (live : Option (Finset Handle)) (ev : SchedEvent) : Option (Finset Handle) :=
  live.bind fun l =>
    match ev with
    | .created h => if h ∈ l then none else some (insert h l)
    | .inserted h => if h ∈ l then some l else none
    | .dispatched h => if h ∈ l then some l else none
    | .freed h => if h ∈ l then some (l.erase h) else none

def replay (trace : List SchedEvent) : Option (Finset Handle) :=
  trace.foldl replayStep (some ∅)

theorem replay_append (tr es : List SchedEvent) :
    replay (tr ++ es) = es.foldl replayStep (replay tr) := by
  simp [replay, List.foldl_append]

theorem foldl_replayStep_none (es : List SchedEvent) : es.foldl replayStep none = none := by
  induction es with
  | nil => rfl
  | cons e es ih => simpa [replayStep] using ih

theorem foldl_replayStep_keep (l : Finset Handle) (f : Handle → SchedEvent)
    (hf : f = .inserted ∨ f = .dispatched) (ts : List Handle) (h : ∀ t ∈ ts, t ∈ l) :
    (ts.map f).foldl replayStep (some l) = some l := by
  induction ts with
  | nil => rfl
  | cons t ts ih =>
    have ht : t ∈ l := h t (by simp)
    have hstep : replayStep (some l) (f t) = some l := by
      obtain rfl | rfl := hf <;> simp [replayStep, ht]
    rw [List.map_cons, List.foldl_cons, hstep]
    exact ih fun u hu => h u (List.mem_cons_of_mem t hu)

theorem not_named_of_not_live (es : List SchedEvent) (l : Finset Handle) (h : Handle)
    (hl : h ∉ l) (hr : es.foldl replayStep (some l) ≠ none) (hc : .created h ∉ es) :
    .inserted h ∉ es ∧ .dispatched h ∉ es ∧ .freed h ∉ es := by
  induction es generalizing l with
  | nil => simp
  | cons e es ih =>
    rw [List.foldl_cons] at hr
    cases hs : replayStep (some l) e with
    | none => exact absurd (by rw [hs, foldl_replayStep_none]) hr
    | some l' =>
      rw [hs] at hr
      have hne : e ≠ .created h := fun he => hc (by simp [he])
      have hl' : h ∉ l' ∧ e ≠ .inserted h ∧ e ≠ .dispatched h ∧ e ≠ .freed h := by
        cases e <;> simp [replayStep] at hs <;> grind
      obtain ⟨h1, h2, h3⟩ := ih l' hl'.1 hr (fun hm => hc (List.mem_cons_of_mem e hm))
      simp [hl'.2.1.symm, hl'.2.2.1.symm, hl'.2.2.2.symm, h1, h2, h3]

theorem replay_dispatch {s : Sched} {l : Finset Handle} (h : replay s.trace = some l)
    (hl : ∀ t ∈ s.readyQueue, t ∈ l) : replay s.dispatch.trace = some l := by
  rw [dispatch_trace, replay_append, h]
  refine foldl_replayStep_keep l _ (Or.inr rfl) _ fun t ht => hl t ?_
  rw [← dispatch_front s]
  exact List.mem_append_left _ ht

/-- A descriptor that was freed is not queued, dispatched or freed before an
allocation gives its address to a new thread. -/
def NotReused (trace : List SchedEvent) : Prop :=
  ∀ pre post h, trace = pre ++ .freed h :: post → .created h ∉ post →
    .inserted h ∉ post ∧ .dispatched h ∉ post ∧ .freed h ∉ post

theorem notReused_of_replay {trace : List SchedEvent} (hr : replay trace ≠ none) :
    NotReused trace := by
  intro pre post h ht hc
  subst ht
  rw [replay_append, List.foldl_cons] at hr
  cases hs : replayStep (replay pre) (.freed h) with
  | none => exact absurd (by rw [hs, foldl_replayStep_none]) hr
  | some l =>
    rw [hs] at hr
    refine not_named_of_not_live post l h ?_ hr hc
    cases hp : replay pre with
    | none => simp [hp, replayStep] at hs
    | some k =>
      simp only [hp, replayStep, Option.bind_some] at hs
      split at hs
      · cases hs
        exact Finset.notMem_erase h k
      · cases hs

def inserted (trace : List SchedEvent) : List Handle :=
  trace.filterMap fun | .inserted h => some h | _ => none

def dispatched (trace : List SchedEvent) : List Handle :=
  trace.filterMap fun | .dispatched h => some h | _ => none

@[simp] theorem inserted_append (tr es : List SchedEvent) :
    inserted (tr ++ es) = inserted tr ++ inserted es := List.filterMap_append

@[simp] theorem dispatched_append (tr es : List SchedEvent) :
    dispatched (tr ++ es) = dispatched tr ++ dispatched es := List.filterMap_append

@[simp] theorem inserted_map_inserted (ts : List Handle) :
    inserted (ts.map .inserted) = ts := by
  induction ts with
  | nil => rfl
  | cons t ts ih => simp [inserted]

@[simp] theorem dispatched_map_inserted (ts : List Handle) :
    dispatched (ts.map .inserted) = [] := by
  simp [dispatched]

@[simp] theorem inserted_map_dispatched (ts : List Handle) :
    inserted (ts.map .dispatched) = [] := by
  simp [inserted]

@[simp] theorem dispatched_map_dispatched (ts : List Handle) :
    dispatched (ts.map .dispatched) = ts := by
  induction ts with
  | nil => rfl
  | cons t ts ih => simp [dispatched]

/-- What was inserted is what was dispatched and, behind it, what is still ready. -/
def Sched.Fifo (s : Sched) : Prop :=
  inserted s.trace = dispatched s.trace ++ s.readyQueue

theorem fifo_activateAll {s : Sched} (h : s.Fifo) (ts : List Handle) :
    (s.activateAll ts).Fifo := by
  unfold Sched.Fifo Sched.activateAll at *
  simp [h]

theorem fifo_dispatch {s : Sched} (h : s.Fifo) : s.dispatch.Fifo := by
  unfold Sched.Fifo at *
  rw [dispatch_trace, inserted_append, dispatched_append, inserted_map_dispatched,
    dispatched_map_dispatched, List.append_nil, List.append_assoc, dispatch_front, h]

/-- The queue at one time and the dispatches after it: what was queued comes out
first and in order, before anything inserted later. -/
theorem dispatches_after {s s' : Sched} {es : List SchedEvent} (hs : s.Fifo)
    (hs' : s'.Fifo) (htr : s'.trace = s.trace ++ es) :
    s.readyQueue ++ inserted es = dispatched es ++ s'.readyQueue := by
  unfold Sched.Fifo at *
  rw [htr, inserted_append, dispatched_append, hs, List.append_assoc, List.append_assoc] at hs'
  exact List.append_cancel_left hs'

end OsCourse.UThread
