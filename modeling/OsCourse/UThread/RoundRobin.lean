import OsCourse.Lib.Turns
import OsCourse.UThread.Programs

/-! Threads that only print and yield, like those of simpletest.c, take turns: `ut_run` prints
round after round, in the order in which the threads were created. -/
namespace OsCourse.UThread.Programs
open Calls Function Placement RoundRobin Transition
variable {σ : Type*}

/-- What the start function prints up to each of its yields, and up to its end. -/
def segments : List (Act σ) → List (List σ)
  | [] => [[]]
  | .print x :: rest => (segments rest).modifyHead (x :: ·)
  | .yield :: rest => [] :: segments rest
  | _ :: rest => segments rest

def Act.plain : Act σ → Bool
  | .print _ | .yield => true
  | _ => false

/-- What the program has printed when `ut_run` has returned. -/
def Program.printed (p : Program σ) : Option (List σ) :=
  if p.world.sched.runningThread = none then some p.out else none

def Program.line (p : Program σ) : List Handle :=
  p.world.sched.current.toList ++ p.world.sched.readyQueue

section Turns
variable {x : σ} {s : List σ} {more : List (List σ)} {q : List (List (List σ))} {out : List σ}

theorem segments_ne_nil (acts : List (Act σ)) : segments acts ≠ [] := by
  induction acts with
  | nil => exact nofun
  | cons a rest ih =>
    cases a with
    | yield => exact nofun
    | wait | set => exact ih
    | print x =>
      unfold segments
      cases h : segments rest with
      | nil => exact absurd h ih
      | cons => exact nofun

theorem segments_print (x : σ) (rest : List (Act σ)) : ∃ s more,
    segments rest = s :: more ∧ segments (.print x :: rest) = (x :: s) :: more := by
  cases h : segments rest with
  | nil => exact absurd h (segments_ne_nil rest)
  | cons s more =>
    refine ⟨s, more, rfl, ?_⟩
    rw [segments, h]
    rfl

theorem turns_print (h : Turns (((x :: s) :: more) :: q) out) :
    ∃ out', out = x :: out' ∧ Turns ((s :: more) :: q) out' := by
  cases h with
  | last hrest => exact ⟨_, rfl, Turns.last hrest⟩
  | more hrest => exact ⟨_, rfl, Turns.more hrest⟩

end Turns

section Invariant
variable {p p' : Program σ} {l : Label} {hs : Finset Handle} {t : Handle} {total : List σ}

structure Program.InTurn (hs : Finset Handle) (total : List σ) (p : Program σ) : Prop where
  inv : p.Inv hs
  plain : ∀ t, ∀ a ∈ p.todo t, a.plain = true
  turns : ∃ out, Turns (p.line.map fun t => segments (p.todo t)) out ∧ p.out ++ out = total
  waiting : ∀ o, p.world.waiting o = []
  halted : p.world.halted = []
  ended : p.world.sched.runningThread = none → p.world.sched.readyQueue = []

theorem line_of_current (hcur : p.world.sched.current = some t) :
    p.line = t :: p.world.sched.readyQueue := by
  unfold Program.line
  rw [hcur]
  rfl

theorem map_update {α β : Type*} {f : Handle → α} {g : α → β} {y : α} {ts : List Handle}
    (h : t ∉ ts) : ts.map (fun u => g (update f t y u)) = ts.map fun u => g (f u) := by
  apply List.map_congr_left
  intro u hu
  have hne : u ≠ t := fun he => h (he ▸ hu)
  rw [update_of_ne hne]

theorem plain_update {todo : Handle → List (Act σ)} {a : Act σ} {rest : List (Act σ)}
    (h : ∀ t, ∀ a ∈ todo t, a.plain = true) (htodo : todo t = a :: rest) (u : Handle) :
    ∀ b ∈ update todo t rest u, b.plain = true := by
  intro b hb
  by_cases hu : u = t
  · rw [hu, update_self] at hb
    apply h t
    rw [htodo]
    exact List.mem_cons_of_mem a hb
  · rw [update_of_ne hu] at hb
    exact h u b hb

theorem Program.InTurn.live (h : p.InTurn hs total) (ht : t ∈ p.world.sched.live) : t ∈ p.line := by
  obtain ⟨place, hp⟩ := (h.inv.world.partition.mem_live t).1 ht
  cases place with
  | running => exact List.mem_append_left _ hp
  | ready => exact List.mem_append_right _ hp
  | waiters o => simp [h.waiting o] at hp
  | halted => simp [h.halted] at hp

theorem yield_line {w w' : World} (hi : w.Inv) (hcur : w.sched.current = some t)
    (h : Step w .utYield w') :
    w'.sched.current.toList ++ w'.sched.readyQueue = w.sched.readyQueue ++ [t] ∧
      (∀ o, w'.waiting o = w.waiting o) ∧ w'.halted = w.halted ∧
      w'.sched.runningThread ≠ none := by
  obtain ⟨s, hs, hw⟩ := bind_ok h.2
  cases hw
  unfold utYield at hs
  split at hs
  · rename_i hempty
    cases hs
    have hready : w.sched.readyQueue = [] := by simpa [isListEmpty] using hempty
    refine ⟨?_, ?_, rfl, ?_⟩
    · rw [leave_same, hcur, hready]
      rfl
    · intro o
      rw [leave_same]
    · rw [leave_same]
      exact running_of_current hcur
  · rw [current_eq_some.1 hcur] at hs
    have hs' := schedule_eq_dispatch hs hi.mainThread
    subst hs'
    refine ⟨dispatch_front _, ?_, rfl, dispatch_running _⟩
    intro o
    cases o <;> rfl

theorem exit_line {w w' : World} (hi : w.Inv) (h : Step w .utExit w') :
    w'.sched.current.toList ++ w'.sched.readyQueue = w.sched.readyQueue ∧
      (∀ o, w'.waiting o = w.waiting o) ∧ w'.halted = w.halted ∧
      w'.sched.runningThread ≠ none := by
  obtain ⟨s, hexit, hw⟩ := bind_ok h.2
  cases hw
  obtain ⟨u, _, rfl⟩ := utExit_eq_dispatch hexit hi.mainThread
  refine ⟨dispatch_front _, ?_, rfl, dispatch_running _⟩
  intro o
  cases o <;> rfl

theorem PStep.inTurn (hi : p.InTurn hs total) (h : PStep p l p') : p'.InTurn hs total := by
  have hinv := h.kept hi.inv
  obtain ⟨out, hturns, htotal⟩ := hi.turns
  cases h with
  | goOn hs' =>
    obtain rfl | ⟨hr, s, hend, rfl⟩ | ⟨t, _, rfl⟩ := ret_cases hs'.2
    · exact ⟨hinv, hi.plain, hi.turns, hi.waiting, hi.halted, hi.ended⟩
    · obtain ⟨hready, _, rfl⟩ := utRunEnd_eq hend
      refine ⟨hinv, hi.plain, ⟨out, ?_, htotal⟩, ?_, hi.halted, fun _ => hready⟩
      · unfold Program.line at hturns
        rw [hready, Sched.current, hr] at hturns
        simpa [Program.line, Sched.current, hready] using hturns
      · intro o
        have hwait := hi.waiting o
        cases o <;> exact hwait
    · refine ⟨hinv, hi.plain, hi.turns, ?_, hi.halted, hi.ended⟩
      intro o
      exact (resume_waiting p.world t o).trans (hi.waiting o)
  | @print t x rest hcur _ htodo =>
    obtain ⟨s, more, hrest, hself⟩ := segments_print x rest
    have hnot := hi.inv.world.current_not_ready hcur
    rw [line_of_current hcur, List.map_cons, htodo, hself] at hturns
    obtain ⟨out', rfl, hturns'⟩ := turns_print hturns
    refine ⟨hinv, plain_update hi.plain htodo, ⟨out', ?_, ?_⟩, hi.waiting, hi.halted, hi.ended⟩
    · unfold Program.line
      dsimp only
      rw [hcur, Option.toList_some, List.singleton_append, List.map_cons, map_update hnot,
        update_self, hrest]
      exact hturns'
    · rw [List.append_assoc]
      exact htotal
  | @call w t a op rest hcur htodo hop hs' =>
    have hplain := hi.plain t a (by rw [htodo]; exact List.mem_cons_self)
    cases a with
    | print => cases hop
    | wait | set => cases hplain
    | yield =>
      cases hop
      obtain ⟨hline, hwaiting, hhalted, hrun⟩ := yield_line hi.inv.world hcur hs'
      have hnot := hi.inv.world.current_not_ready hcur
      rw [line_of_current hcur, List.map_cons, htodo] at hturns
      obtain ⟨r, more, hrest⟩ := List.exists_cons_of_ne_nil (segments_ne_nil rest)
      rw [segments, hrest] at hturns
      cases hturns with
      | @more _ _ _ _ out' hturns' =>
        refine ⟨hinv, plain_update hi.plain htodo, ⟨out', ?_, htotal⟩,
          fun o => (hwaiting o).trans (hi.waiting o), hhalted.trans hi.halted,
          fun hnone => absurd hnone hrun⟩
        unfold Program.line
        dsimp only
        rw [hline, List.map_append, map_update hnot, List.map_singleton, update_self, hrest]
        exact hturns'
  | @exit w t hcur htodo hs' =>
    obtain ⟨hline, hwaiting, hhalted, hrun⟩ := exit_line hi.inv.world hs'
    rw [line_of_current hcur, List.map_cons, htodo] at hturns
    cases hturns with
    | @last _ _ out' hturns' =>
      refine ⟨hinv, hi.plain, ⟨out', ?_, htotal⟩, fun o => (hwaiting o).trans (hi.waiting o),
        hhalted.trans hi.halted, fun hnone => absurd hnone hrun⟩
      unfold Program.line
      rw [hline]
      exact hturns'

end Invariant

/-- Threads that print and yield, created in the order of `hs`: `ut_run` returns, and has printed
what all of them print up to their first yield, then what they print up to their second, and so
on, each round in the order of `hs`. -/
theorem printed_in_rounds {c : Config} {hs : List Handle} {w : World}
    (hstart : Runs Step (World.init c) (startOps hs) w) {script : Handle → List (Act σ)}
    (hplain : ∀ t, ∀ a ∈ script t, a.plain = true) {n : Nat}
    (hn : ∀ t ∈ hs, (segments (script t)).length ≤ n) :
    Returns PStep (Program.mk w script []) (fun _ => false) Program.printed
      (rounds n (hs.map fun t => segments (script t))) := by
  obtain ⟨hf, hline, hnone, _⟩ := Fresh.started hstart
  have hinit : (Program.mk w script []).InTurn hs.toFinset
      (rounds n (hs.map fun t => segments (script t))) := by
    refine ⟨hf.inv (inv_of_runs hstart), hplain, ⟨_, ?_, rfl⟩, hf.waiting, hf.halted, ?_⟩
    · unfold Program.line
      rw [hline]
      apply turns_rounds
      intro s hs'
      obtain ⟨t, ht, rfl⟩ := List.mem_map.mp hs'
      exact ⟨segments_ne_nil _, hn t ht⟩
    · intro hr
      rw [hnone hr] at hline
      exact (List.append_eq_nil_iff.mp hline).2
  have hkeep : ∀ (a : Program σ) l b,
      a.InTurn hs.toFinset (rounds n (hs.map fun t => segments (script t))) → PStep a l b →
      b.InTurn hs.toFinset (rounds n (hs.map fun t => segments (script t))) :=
    fun _ _ _ hi h => h.inTurn hi
  refine ⟨?_, ?_, bounded_of_invariant (c := 0) hinit hkeep fun a l b hi h => h.ahead hi.inv⟩
  · intro ls p x hrun hx
    have hi := hrun.invariant hinit hkeep
    unfold Program.printed at hx
    split at hx
    · rename_i hr
      obtain ⟨out, hturns, htotal⟩ := hi.turns
      rw [Program.line, hi.ended hr, Sched.current, hr] at hturns
      cases hturns
      rw [← Option.some.inj hx, ← htotal, List.append_nil]
    · cases hx
  · intro ls p hrun hnone'
    have hi := hrun.invariant hinit hkeep
    cases hr : p.world.sched.runningThread with
    | none => simp [Program.printed, hr] at hnone'
    | some r =>
      cases r with
      | user t =>
        obtain ⟨l, p', h⟩ := hi.inv.progress (current_eq_some.2 hr)
        exact ⟨l, p', h, rfl⟩
      | main =>
        have hlive : p.world.sched.live = ∅ := by
          rw [Finset.eq_empty_iff_forall_notMem]
          intro t ht
          have hmem := hi.live ht
          simp [Program.line, Sched.current, hr, hi.inv.world.drained hr] at hmem
        obtain ⟨p', h⟩ := hi.inv.finish hr hlive
        exact ⟨_, p', h, rfl⟩

/-- Three threads, the second of which does not yield. -/
theorem printed_in_rounds_three : ∃ w, Runs Step (World.init Config.plain) (startOps [1, 2, 3]) w ∧
    Returns PStep (Program.mk w (fun t => if t = 2 then [.print 'b']
      else [.print 'a', .yield, .print 'c', .print 'd']) []) (fun _ => false) Program.printed
      ['a', 'b', 'a', 'c', 'd', 'c', 'd'] := by
  have hrun := runs_of_runAll Allowed exec (startOps [1, 2, 3]) (World.init Config.plain) rfl
  refine ⟨_, hrun, printed_in_rounds hrun ?_ (n := 2) ?_⟩
  · intro t
    split <;> decide
  · decide

end OsCourse.UThread.Programs
