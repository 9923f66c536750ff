import OsCourse.Intrusive.Scheduling
import OsCourse.UThread.Partition

/-! The synchronizers on the rings: the wait blocks of each list are the blocks of its waiters. -/
namespace OsCourse.Intrusive
open Function Linked OsCourse.Lists Transition
open UThread (AutoResetEvent Event Handle Sched Semaphore SemaphoreWaitblock Sync World)

/-- What a wait block in the list of `o` says: its thread, and the units that a semaphore owes. -/
def seen (blocks : Nat → SemaphoreWaitblock) : Sync → Nat → Handle × Option Int32
  | .sem _, b => ((blocks b).header.thread, some (blocks b).units)
  | .event _, b | .auto _, b => ((blocks b).header.thread, none)

def shown (w : World) : Sync → List (Handle × Option Int32)
  | .event e => (w.events e).waiters.map fun wb => (wb.thread, none)
  | .auto a => (w.autos a).waiters.map fun wb => (wb.thread, none)
  | .sem i => (w.sems i).waiters.map fun wb => (wb.header.thread, some wb.units)

structure SyncHolds (bs : Sync → List Nat) (m : Mem) (w : World) : Prop where
  event : ∀ e, m.signaled (.event e) = (w.events e).signaled
  auto : ∀ a, m.signaled (.auto a) = (w.autos a).signaled
  units : ∀ i, m.units i = (w.sems i).units
  limit : ∀ i, m.limit i = (w.sems i).limit
  waiters : ∀ o, (bs o).map (seen m.blocks o) = shown w o

variable {bs : Sync → List Nat} {m m' : Mem} {w w' : World} {o : Sync} {b : Nat}

theorem seen_thread (blocks : Nat → SemaphoreWaitblock) (o : Sync) (b : Nat) :
    (seen blocks o b).1 = (blocks b).header.thread := by
  cases o <;> rfl

theorem shown_waiting (w : World) (o : Sync) : (shown w o).map Prod.fst = w.waiting o := by
  cases o <;> simp [shown]

theorem SyncHolds.waiting (h : SyncHolds bs m w) (o : Sync) :
    (bs o).map (fun b => (m.blocks b).header.thread) = w.waiting o := by
  rw [← shown_waiting, ← h.waiters o, List.map_map]
  apply List.map_congr_left
  intro b _
  exact (seen_thread m.blocks o b).symm

theorem SyncHolds.mem_waiting (h : SyncHolds bs m w) (hb : b ∈ bs o) :
    (m.blocks b).header.thread ∈ w.waiting o := by
  rw [← h.waiting o]
  exact List.mem_map_of_mem hb

theorem SyncHolds.untouched (h : SyncHolds bs m w) (hu : Untouched m m')
    (hevents : w'.events = w.events) (hautos : w'.autos = w.autos) (hsems : w'.sems = w.sems) :
    SyncHolds bs m' w' := by
  refine ⟨?_, ?_, ?_, ?_, ?_⟩
  · intro e
    rw [hu.signaled, hevents]
    exact h.event e
  · intro a
    rw [hu.signaled, hautos]
    exact h.auto a
  · intro i
    rw [hu.units, hsems]
    exact h.units i
  · intro i
    rw [hu.limit, hsems]
    exact h.limit i
  · intro o
    rw [hu.blocks, h.waiters o]
    cases o with
    | event e => simp only [shown, hevents]
    | auto a => simp only [shown, hautos]
    | sem i => simp only [shown, hsems]

section Updates
variable (w) (s : Sched) (p : Handle → Option UThread.Op) (hl : List Handle)

theorem shown_event (e : Nat) (ev : Event) :
    shown (World.mk s (update w.events e ev) w.autos w.sems p hl) =
      update (shown w) (.event e) (ev.waiters.map fun wb => (wb.thread, none)) := by
  funext o
  cases o with
  | event e' => by_cases h : e' = e <;> simp [shown, h]
  | auto | sem => simp [shown]

theorem shown_auto (a : Nat) (ev : AutoResetEvent) :
    shown (World.mk s w.events (update w.autos a ev) w.sems p hl) =
      update (shown w) (.auto a) (ev.waiters.map fun wb => (wb.thread, none)) := by
  funext o
  cases o with
  | auto a' => by_cases h : a' = a <;> simp [shown, h]
  | event | sem => simp [shown]

theorem shown_sem (i : Nat) (sem : Semaphore) :
    shown (World.mk s w.events w.autos (update w.sems i sem) p hl) =
      update (shown w) (.sem i)
        (sem.waiters.map fun wb => (wb.header.thread, some wb.units)) := by
  funext o
  cases o with
  | sem i' => by_cases h : i' = i <;> simp [shown, h]
  | event | auto => simp [shown]

end Updates

theorem waiters_update {blocks blocks' : Nat → SemaphoreWaitblock} {l : List Nat}
    {x : List (Handle × Option Int32)} (h : ∀ o, (bs o).map (seen blocks o) = shown w o)
    (hothers : ∀ o', o' ≠ o → ∀ b ∈ bs o', blocks' b = blocks b)
    (hl : l.map (seen blocks' o) = x) (o' : Sync) :
    (update bs o l o').map (seen blocks' o') = update (shown w) o x o' := by
  by_cases ho : o' = o
  · rw [ho, update_self, update_self, hl]
  · rw [update_of_ne ho, update_of_ne ho, ← h o']
    apply List.map_congr_left
    intro b hb
    have hsame := hothers o' ho b hb
    cases o' <;> simp only [seen, hsame]

theorem waiters_enqueue {blocks : Nat → SemaphoreWaitblock} {wb : SemaphoreWaitblock}
    (h : ∀ o, (bs o).map (seen blocks o) = shown w o) (hb : ∀ o, b ∉ bs o) (o' : Sync) :
    (update bs o (bs o ++ [b]) o').map (seen (update blocks b wb) o') =
      update (shown w) o (shown w o ++ [seen (fun _ => wb) o b]) o' := by
  have hkeep : ∀ o, ∀ x ∈ bs o, update blocks b wb x = blocks x := by
    intro o x hx
    apply update_of_ne
    rintro rfl
    exact hb o hx
  apply waiters_update h (fun o' _ => hkeep o')
  rw [List.map_append, ← h o, List.map_singleton]
  congr 1
  · apply List.map_congr_left
    intro x hx
    have hsame := hkeep o x hx
    cases o <;> simp only [seen, hsame]
  · cases o <;> simp [seen]

theorem eventSetLoop_spec (o : Sync) {q : List Handle} (n : Nat)
    (hr : Rings m.links (entries q bs))
    (hnodup : (q ++ (bs o).map fun b => (m.blocks b).header.thread).Nodup) :
    (∀ m', eventSetLoop o n m = some m' → ∃ h, m' = { m with links := h } ∧
      Rings h (entries (q ++ (bs o).map fun b => (m.blocks b).header.thread) (update bs o []))) ∧
    ((bs o).length < n → ∃ m', eventSetLoop o n m = some m') := by
  induction n generalizing m q bs with
  | zero =>
    constructor
    · intro m' hm
      cases hm
    · intro hlt
      exact absurd hlt (Nat.not_lt_zero _)
  | succ n ih =>
    have hempty := waiters_empty (o := o) hr
    cases ho : bs o with
    | nil =>
      rw [ho] at hempty
      have hend : eventSetLoop o (n + 1) m = some m := by
        rw [eventSetLoop, hempty]
        rfl
      have hsame : update bs o [] = bs := by rw [← ho, update_eq_self]
      rw [hend]
      refine ⟨fun m' hm => ?_, fun _ => ⟨m, rfl⟩⟩
      cases hm
      refine ⟨m.links, rfl, ?_⟩
      rw [List.map_nil, List.append_nil, hsame]
      exact hr
    | cons b rest =>
      rw [ho] at hempty hnodup
      obtain ⟨hfirst, hrest⟩ := dequeue_rings hr ho
      have hround : eventSetLoop o (n + 1) m = eventSetLoop o n
          (utActivate (m.blocks b).header.thread
            { m with links := (removeListFirst m.links (.waiters o)).1 }) := by
        rw [eventSetLoop, hempty]
        simp only [hfirst]
        rfl
      rw [List.map_cons] at hnodup
      have hnot : (m.blocks b).header.thread ∉ q := fun hmem =>
        (List.nodup_append.mp hnodup).2.2 _ hmem _ List.mem_cons_self rfl
      rw [List.append_cons] at hnodup
      have hready := activate_rings
        (m := { m with links := (removeListFirst m.links (.waiters o)).1 }) hrest hnot
      have hlater := ih hready (by rw [update_self]; exact hnodup)
      rw [update_self, update_idem] at hlater
      rw [hround, List.map_cons, List.append_cons, List.length_cons]
      obtain ⟨hright, hends⟩ := hlater
      refine ⟨fun m' hm => ?_, fun hlt => hends (by omega)⟩
      obtain ⟨h, hm', hrings⟩ := hright m' hm
      exact ⟨h, hm', hrings⟩

/-- What `sem_post` leaves in the memory when it does what it does on sequences. -/
structure Posted (i : Nat) (bs : Sync → List Nat) (m m' : Mem) (r : Semaphore × Sched) :
    Prop where
  links : ∃ h, m' = { m with links := h, units := update m.units i r.1.units }
  rings : ∃ rest, Rings m'.links (entries r.2.readyQueue (update bs (.sem i) rest)) ∧
    rest.map (seen m.blocks (.sem i)) =
      r.1.waiters.map (fun wb => (wb.header.thread, some wb.units)) ∧ rest ⊆ bs (.sem i)

theorem Posted.same {i : Nat} {sem : Semaphore} {s : Sched} {wbs : List SemaphoreWaitblock}
    (hr : Rings m.links (entries s.readyQueue bs)) (hunits : m.units i = sem.units)
    (hwbs : (bs (.sem i)).map (seen m.blocks (.sem i)) =
      wbs.map fun wb => (wb.header.thread, some wb.units)) :
    Posted i bs m m ({ sem with waiters := wbs }, s) := by
  refine ⟨⟨m.links, ?_⟩, bs (.sem i), ?_, hwbs, fun _ hb => hb⟩
  · dsimp only
    rw [← hunits, update_eq_self]
  · rw [update_eq_self]
    exact hr

/-- The loop of `sem_post` serves the waiters that it serves on sequences, and comes to its
end. -/
theorem semPostLoop_spec (i n : Nat) {sem : Semaphore} {s : Sched}
    {wbs : List SemaphoreWaitblock} (hr : Rings m.links (entries s.readyQueue bs))
    (hunits : m.units i = sem.units)
    (hwbs : (bs (.sem i)).map (seen m.blocks (.sem i)) =
      wbs.map fun wb => (wb.header.thread, some wb.units))
    (hnodup : (s.readyQueue ++ wbs.map (·.header.thread)).Nodup) :
    (∀ m', semPostLoop i n m = some m' → Posted i bs m m' (UThread.semPostLoop wbs sem s)) ∧
    (wbs.length < n → ∃ m', semPostLoop i n m = some m') := by
  induction n generalizing m bs sem s wbs with
  | zero =>
    constructor
    · intro m' hm
      cases hm
    · intro hlt
      exact absurd hlt (Nat.not_lt_zero _)
  | succ n ih =>
    have hnext := (hr.ring (.waiters (.sem i)) _ rfl).next_eq
    have hsame := Posted.same hr hunits hwbs
    cases wbs with
    | nil =>
      have ho : bs (.sem i) = [] := List.map_eq_nil_iff.mp hwbs
      rw [ho] at hnext
      have hend : semPostLoop i (n + 1) m = some m := by
        simp [semPostLoop, hnext]
      rw [hend]
      refine ⟨fun m' hm => ?_, fun _ => ⟨m, rfl⟩⟩
      cases hm
      exact hsame
    | cons wb wbs =>
      obtain ⟨b, rest, ho, hb, hrest⟩ := List.map_eq_cons_iff.mp hwbs
      have hthread : (m.blocks b).header.thread = wb.header.thread := congrArg Prod.fst hb
      have howed : (m.blocks b).units = wb.units :=
        Option.some.inj (congrArg Prod.snd hb)
      rw [ho] at hnext
      have hentry : (m.links (.waiters (.sem i))).next = .block b := hnext
      by_cases hpos : sem.units > 0
      · by_cases hless : sem.units < wb.units
        · have hend : semPostLoop i (n + 1) m = some m := by
            simp [semPostLoop, hentry, hunits, hpos, containerBlock, howed, hless]
          rw [hend, UThread.semPostLoop, if_pos hpos, if_pos hless]
          refine ⟨fun m' hm => ?_, fun _ => ⟨m, rfl⟩⟩
          cases hm
          exact hsame
        · have hround : semPostLoop i (n + 1) m = semPostLoop i n (utActivate wb.header.thread
              { m with
                links := (removeListFirst m.links (.waiters (.sem i))).1
                units := update m.units i (sem.units - wb.units) }) := by
            simp [semPostLoop, hentry, hunits, hpos, containerBlock, howed, hless, hthread]
          rw [List.map_cons] at hnodup
          have hnot : wb.header.thread ∉ s.readyQueue := fun hmem =>
            (List.nodup_append.mp hnodup).2.2 _ hmem _ List.mem_cons_self rfl
          rw [List.append_cons] at hnodup
          have hready := activate_rings (t := wb.header.thread)
            (m := { m with
              links := (removeListFirst m.links (.waiters (.sem i))).1
              units := update m.units i (sem.units - wb.units) }) (dequeue_rings hr ho).2 hnot
          have hpaid : update m.units i (sem.units - wb.units) i =
              ({ sem with
                units := sem.units - wb.units
                log := sem.log ++ [.granted (some (.user wb.header.thread)) wb.units,
                  .activated wb.header.thread] } : Semaphore).units := update_self _ _ _
          obtain ⟨hright, hends⟩ := ih (s := UThread.utActivate wb.header.thread s) hready hpaid
            (by rw [update_self]; exact hrest) hnodup
          rw [hround, UThread.semPostLoop, if_pos hpos, if_neg hless, List.length_cons]
          refine ⟨fun m' hm => ?_, fun hlt => hends (by omega)⟩
          obtain ⟨⟨h, hm'⟩, rest', hrings, hseen, hsub⟩ := hright m' hm
          rw [update_idem] at hrings
          rw [update_self] at hsub
          refine ⟨⟨h, ?_⟩, rest', hrings, hseen, fun x hx => ?_⟩
          · rw [hm']
            dsimp only [utActivate]
            rw [update_idem]
          · rw [ho]
            exact List.mem_cons_of_mem b (hsub hx)
      · have hend : semPostLoop i (n + 1) m = some m := by
          simp [semPostLoop, hunits, hpos]
        rw [hend, UThread.semPostLoop, if_neg hpos]
        refine ⟨fun m' hm => ?_, fun _ => ⟨m, rfl⟩⟩
        cases hm
        exact hsame

end OsCourse.Intrusive
