import OsCourse.Join.Alive
import OsCourse.Lib.History

/-! The joins over whole histories: a join that found its target alive returns after
the target exited, and the exit releases the joiners in the order of their calls. -/
namespace OsCourse.Join
open Function Placement Transition History UThread
variable {b : Build}

/-- The joiners of `h` since it was last created, one event later. -/
def joinedStep (h : Handle) (ts : List Handle) : JoinStep → List Handle
  | .created k => if k = h then [] else ts
  | .joined t k => if k = h then ts ++ [t] else ts
  | _ => ts

/-- The threads that called `ut_join(h)` since `h` was last created, in order. -/
def joinersOf (h : Handle) (log : List JoinStep) : List Handle := log.foldl (joinedStep h) []

@[simp] theorem joinersOf_snoc (h : Handle) (log : List JoinStep) (e : JoinStep) :
    joinersOf h (log ++ [e]) = joinedStep h (joinersOf h log) e := by
  simp [joinersOf, List.foldl_append]

/-- `l` is what came after the last join of `t`, which was on `h`. -/
def SinceJoin (t h : Handle) (log l : List JoinStep) : Prop :=
  (∃ pre, log = pre ++ .joined t h :: l) ∧ ∀ k, .joined t k ∉ l

def afterExit (x : JoinStep) (pre : List JoinStep) : Prop :=
  match x with
  | .returned t h => ∃ l, SinceJoin t h pre l ∧ .exited h ∈ l
  | _ => True

theorem SinceJoin.snoc {t h : Handle} {log l : List JoinStep} {e : JoinStep}
    (hs : SinceJoin t h log l) (he : ∀ k, e ≠ .joined t k) :
    SinceJoin t h (log ++ [e]) (l ++ [e]) := by
  obtain ⟨⟨pre, hl⟩, hno⟩ := hs
  refine ⟨⟨pre, by simp [hl]⟩, fun k hk => ?_⟩
  have hmem : .joined t k ∈ l ∨ .joined t k = e := by simpa using hk
  exact hmem.elim (hno k) fun h => he k h.symm

theorem SinceJoin.self (t h : Handle) (log : List JoinStep) :
    SinceJoin t h (log ++ [.joined t h]) [] :=
  ⟨⟨log, rfl⟩, by simp⟩

theorem resume_log (w : World b) (t : Handle) : (w.resume t).log = w.log ∨
    ∃ x, w.pending t = some (.utJoin x) ∧ (w.resume t).log = w.log ++ [.returned t x] := by
  unfold World.resume
  cases hp : w.pending t with
  | none => exact Or.inl (List.append_nil _)
  | some op =>
    cases op with
    | utJoin x => exact Or.inr ⟨x, rfl, rfl⟩
    | _ => exact Or.inl (List.append_nil _)

structure LogInv (w : World b) : Prop where
  order : ∀ h ∈ w.lib.sched.live, w.joiners h = joinersOf h w.log
  inside : ∀ t h, w.pending t = some (.utJoin h) →
    ∃ l, SinceJoin t h w.log l ∧ (t ∈ w.joiners h ∨ .exited h ∈ l)
  guarded : Guarded afterExit w.log

theorem logInv_init (b : Build) : LogInv (World.init b) where
  order h hl := by simp [World.init, utInit, UThread.utInit] at hl
  inside t h hp := by cases hp
  guarded := Guarded.nil

theorem order_step {op : Op} {w w' : World b} (hl : LogInv w) (he : Effect op w w') :
    ∀ k ∈ w'.lib.sched.live, w'.joiners k = joinersOf k w'.log := by
  intro k hk
  have ho := hl.order k
  cases he with
  | same _ _ h => rw [h] at hk ⊢; exact ho hk
  | resume t _ _ h =>
    subst h
    have hold : w.joiners k = joinersOf k w.log := ho hk
    obtain hlog | ⟨x, _, hlog⟩ := resume_log w t
    · rw [hlog]
      exact hold
    · rw [hlog, joinersOf_snoc]
      exact hold
  | create x _ _ h =>
    subst h
    by_cases hkx : k = x
    · simp [World.joiners, utCreate, joinedStep, hkx]
    · have hold : k ∈ w.lib.sched.live := by
        simpa [utCreate, UThread.utCreate, utActivate, Sched.activateAll, hkx] using hk
      simpa [World.joiners, utCreate, joinedStep, hkx, Ne.symm hkx] using ho hold
  | yield t _ _ h => subst h; exact ho (by simpa [Sched.activateAll] using hk)
  | join t x field _ _ _ _ hj h =>
    subst h
    have hold := ho (by simpa using hk)
    by_cases hkx : k = x
    · subst hkx
      simp [World.joiners, hj, joinedStep, ← hold]
    · simpa [World.joiners, joinedStep, hkx, Ne.symm hkx] using hold
  | exit t field s _ _ _ hs h =>
    subst h
    have hkt : k ≠ t ∧ k ∈ w.lib.sched.live := by
      simpa [internalCleanup, hs, Sched.activateAll] using hk
    simpa [World.joiners, joinedStep, hkt.1] using ho hkt.2
  | start _ _ h => subst h; exact ho (by simpa using hk)
  | finish _ _ _ h => subst h; exact ho hk

theorem inside_step {op : Op} {w w' : World b} (hi : w.Inv) (hl : LogInv w)
    (he : Effect op w w') : ∀ t h, w'.pending t = some (.utJoin h) →
      ∃ l, SinceJoin t h w'.log l ∧ (t ∈ w'.joiners h ∨ .exited h ∈ l) := by
  intro u k hp
  have hin := hl.inside u k
  cases he with
  | same _ _ h => rw [h] at hp ⊢; exact hin hp
  | resume t _ hcur h =>
    subst h
    have hne : u ≠ t := by
      intro he
      simp [World.resume, he] at hp
    obtain ⟨l, hs, hor⟩ := hin (by simpa [World.resume, hne] using hp)
    obtain hlog | ⟨x, _, hlog⟩ := resume_log w t
    · rw [hlog]
      exact ⟨l, hs, hor⟩
    · rw [hlog]
      exact ⟨l ++ [.returned t x], hs.snoc (by simp), hor.imp_right (List.mem_append_left _)⟩
  | create x _ hnew h =>
    subst h
    have hne : u ≠ x := by
      intro he
      simp [he] at hp
    obtain ⟨l, hs, hor⟩ := hin (by simpa [hne] using hp)
    refine ⟨l ++ [.created x], hs.snoc (by simp), hor.imp (fun hm => ?_) (List.mem_append_left _)⟩
    have hkx : k ≠ x := fun he => hnew (he ▸ (hi.targets k u hm).1)
    simpa [World.joiners, utCreate, hkx] using hm
  | yield t _ _ h =>
    subst h
    have hne : u ≠ t := by
      intro he
      simp [he] at hp
    exact hin (by simpa [hne] using hp)
  | join t x field _ hcur _ _ hj h =>
    subst h
    by_cases hut : u = t
    · have hkx : x = k := by simpa [hut] using hp
      subst hut hkx
      exact ⟨[], SinceJoin.self u x w.log, Or.inl (by simp [World.joiners, hj])⟩
    · obtain ⟨l, hs, hor⟩ := hin (by simpa [hut] using hp)
      refine ⟨l ++ [.joined t x], hs.snoc (by simp [Ne.symm hut]),
        hor.imp (fun hm => ?_) (List.mem_append_left _)⟩
      by_cases hkx : k = x
      · subst hkx
        simpa [World.joiners, hj] using Or.inl hm
      · simpa [World.joiners, hkx] using hm
  | exit t field s _ _ _ _ h =>
    subst h
    obtain ⟨l, hs, hor⟩ := hin hp
    refine ⟨l ++ [.exited t], hs.snoc (by simp), ?_⟩
    by_cases hkt : k = t
    · exact Or.inr (by simp [hkt])
    · refine hor.imp (fun hm => ?_) (List.mem_append_left _)
      simpa [World.joiners, hkt] using hm
  | start _ _ h => subst h; exact hin hp
  | finish _ _ _ h => subst h; exact hin hp

theorem guarded_step {op : Op} {w w' : World b} (hi : w.Inv) (hl : LogInv w)
    (he : Effect op w w') : Guarded afterExit w'.log := by
  have hg := hl.guarded
  cases he with
  | same _ _ h => rw [h]; exact hg
  | resume t _ hcur h =>
    subst h
    obtain hlog | ⟨x, hpt, hlog⟩ := resume_log w t
    · rw [hlog]
      exact hg
    · -- the thread runs, so it is no longer among the joiners
      obtain ⟨l, hs, hor⟩ := hl.inside t x hpt
      have hex := hor.resolve_left (hi.current_not_joining hcur x)
      rw [hlog]
      exact hg.snoc ⟨l, hs, hex⟩
  | create x _ _ h => rw [h]; exact hg.snoc trivial
  | yield t _ _ h => rw [h]; exact hg
  | join t x field _ _ _ _ _ h => rw [h]; exact hg.snoc trivial
  | exit t field s _ _ _ _ h => rw [h]; exact hg.snoc trivial
  | start _ _ h => rw [h]; exact hg
  | finish _ _ _ h => rw [h]; exact hg

theorem logInv_of_runs {ops : List Op} {w : World b} (h : Runs Step (World.init b) ops w) :
    LogInv w := by
  have hboth := h.invariant (P := fun w => w.Inv ∧ LogInv w) ⟨inv_init b, logInv_init b⟩
    (fun a op c ha hs => by
      have he := step_effect ha.1 hs
      exact ⟨inv_step ha.1 hs, order_step ha.2 he, inside_step ha.1 ha.2 he,
        guarded_step ha.1 ha.2 he⟩)
  exact hboth.2

theorem World.Inv.mem_joiners {w : World b} (hi : w.Inv) {u s : Handle} :
    u ∈ w.joiners s ↔ w.BlockedOn u s := by
  constructor
  · intro hu
    have hnot : ∀ p, Place.joining s ≠ p → u ∉ w.slots p := fun p hp =>
      hi.partition.not_mem_of_ne (p := .joining s) hu hp
    refine ⟨(hi.partition.mem_live u).2 ⟨.joining s, hu⟩, (hi.targets s u hu).2,
      hnot .ready (by simp), fun hc => ?_⟩
    exact hi.current_not_joining hc s hu
  · intro ⟨hlive, hp, hready, hcur⟩
    obtain ⟨p, hm⟩ := (hi.partition.mem_live u).1 hlive
    cases p with
    | running => exact absurd (by simpa using hm) hcur
    | ready => exact absurd hm hready
    | joining k =>
      have hk : some (Op.utJoin k) = some (.utJoin s) := (hi.targets k u hm).2.symm.trans hp
      cases hk
      exact hm

/-- In every world of every program, in both builds: the alive list holds the threads
created and not yet exited, once each; a join that found its target alive returned
after the target exited; and the exit of a thread makes its joiners ready, once each
and in the order of their calls, and frees a descriptor that is in no list. -/
theorem joins_and_alive_list {ops : List Op} {w : World b} (h : Runs Step (World.init b) ops w) :
    (w.lib.aliveQueue.Nodup ∧ (∀ t, t ∈ w.lib.aliveQueue ↔ t ∈ w.lib.sched.live) ∧
      replay w.lib.sched.trace = some w.lib.sched.live ∧
      w.lib.sched.numberOfThreads = w.lib.aliveQueue.length) ∧
    (∀ pre t x post, w.log = pre ++ .returned t x :: post →
      ∃ l, SinceJoin t x pre l ∧ .exited x ∈ l) ∧
    (∀ t, w.lib.sched.current = some t → w.midCall = false →
      (w.joiners t).Nodup ∧ w.joiners t = joinersOf t w.log ∧
      (∀ u, u ∈ w.joiners t ↔ w.BlockedOn u t) ∧
      ∃ w', Step w .utExit w' ∧
        inserted w'.lib.sched.trace = inserted w.lib.sched.trace ++ w.joiners t ∧
        w'.lib.sched.readyQueue = (w.lib.sched.readyQueue ++ w.joiners t).tail ∧
        w'.joiners t = [] ∧ t ∉ w'.lib.aliveQueue ∧ t ∉ w'.lib.sched.readyQueue ∧
        (∀ k, t ∉ w'.joiners k) ∧ w'.lib.sched.trace.getLast? = some (.freed t)) := by
  have hi := inv_of_runs h
  have hl := logInv_of_runs h
  refine ⟨⟨hi.alive_nodup, hi.mem_alive, hi.history, hi.count⟩,
    fun pre t x post hlog => hl.guarded pre _ post hlog, fun t hcur hmid => ?_⟩
  have hlive := hi.current_live hcur
  refine ⟨hi.partition.nodup (.joining t), hl.order t hlive, fun u => hi.mem_joiners, ?_⟩
  have hexit : Allowed w .utExit := ⟨by simp [hmid], rfl⟩
  obtain ⟨w', hs⟩ := hi.progress hcur hexit (by simp)
  have hi' := inv_step hi hs
  refine ⟨w', hs, ?_⟩
  cases step_effect hi hs with
  | exit u field s _ hcu hj hsched hw =>
    have hut : u = t := by simpa using hcu.symm.trans hcur
    subst hut hw
    have hdead : u ∉ (s.dispatch).live.erase u := Finset.notMem_erase u _
    have hno := hi'.partition.absent hdead
    have hq : s.readyQueue = w.lib.sched.readyQueue ++ w.joiners u := by rw [hsched]; rfl
    have htr : s.trace = w.lib.sched.trace ++ (w.joiners u).map .inserted := by rw [hsched]; rfl
    refine ⟨?_, ?_, by simpa [World.joiners] using hj, fun hm => hdead ((hi'.mem_alive u).1 hm),
      hno .ready, fun k => hno (.joining k), by simp [internalCleanup]⟩
    · simp only [internalCleanup, dispatch_trace, htr, inserted_append, inserted_map_inserted,
        inserted_map_dispatched]
      simp [inserted]
    · rw [← hq]
      exact dispatch_readyQueue s
  | same hop => exact absurd rfl hop
  | resume _ hop | create _ hop | yield _ hop | join _ _ _ hop | start hop | finish hop => cases hop

/-- Thread 1 joins thread 2, whose exit makes it ready again. -/
theorem joins_and_alive_list_released :
    ∃ w, Runs Step (World.init .withEvent) [.utCreate 1, .utCreate 2, .utRun, .utJoin 2] w ∧
      w.BlockedOn 1 2 ∧ ∃ w', Step w .utExit w' ∧ inserted w'.lib.sched.trace = [1, 2, 1] := by
  have hrun := runs_of_runAll Allowed exec
    [.utCreate 1, .utCreate 2, .utRun, .utJoin 2] (World.init .withEvent) rfl
  obtain ⟨_, _, hblocked, w', hs, hins, _⟩ := (joins_and_alive_list hrun).2.2 2 rfl rfl
  exact ⟨_, hrun, (hblocked 1).1 (by decide), w', hs, hins⟩

end OsCourse.Join
