import OsCourse.Latch.Segments
import OsCourse.Lib.Calls
import OsCourse.Lib.Gather

/-! What `par_adder` of tp_adder.c returns, in every run over a pool of workers, and that
it returns. -/
namespace OsCourse.Latch.Adder
open Function Transition Wakeup Tally Gather Calls
variable {W : Type*}

/-- Context `i` with its part of the sum. -/
def filled (v : List Int32) (i : Nat) : Context :=
  { prepare v.length i with result := workerSum v (prepare v.length i) }

def OwnerPc.sent : OwnerPc → Nat
  | .preparing i => i
  | _ => nProcessors

/-- Context `i` is queued, or a worker is about to sum it. -/
def Waits (queue : List Nat) (worker : W → WorkerPc) (i : Nat) : Prop :=
  i ∈ queue ∨ ∃ w, worker w = .summing i

theorem totalResult_filled {v : List Int32} {contexts : Nat → Option Context}
    (h : ∀ i < nProcessors, contexts i = some (filled v i)) : totalResult contexts = parSum v := by
  apply List.foldl_ext
  intro total i hi
  rw [h i (List.mem_range.mp hi)]
  rfl

theorem workerSum_filled {v : List Int32} {slots : Nat → Option Context} {waiting : Nat → Prop}
    {sent i : Nat} {ctx : Context}
    (hf : Filling (prepare v.length) (filled v) slots waiting sent) (hw : waiting i)
    (hctx : slots i = some ctx) : { ctx with result := workerSum v ctx } = filled v i := by
  cases hf.waiting_slot hw with
  | inl hstart =>
    cases hctx.symm.trans hstart
    rfl
  | inr hdone =>
    cases hctx.symm.trans hdone
    rfl

structure Sums (v : List Int32) (s : State W) : Prop where
  filling : Filling (prepare v.length) (filled v) s.contexts (Waits s.queue s.worker)
    s.owner.sent
  bounded : s.owner.sent ≤ nProcessors
  owed : s.owner = .blocked → s.cdl.counter.toInt ≤ 0 → ∃ w, s.worker w = .broadcasting
  total : ∀ total, s.owner = .returned total → total = parSum v

theorem Sums.of_going {s : State W} (hf : Filling (prepare v.length) (filled v) s.contexts
    (Waits s.queue s.worker) s.owner.sent) (hb : s.owner.sent ≤ nProcessors)
    (hwaits : s.owner ≠ .blocked) (hback : ∀ total, s.owner ≠ .returned total) : Sums v s :=
  ⟨hf, hb, fun h => absurd h hwaits, fun total h => absurd h (hback total)⟩

theorem init_sums (v : List Int32) : Sums v (init : State W) := by
  refine Sums.of_going (Filling.init _ _ _ ?_) (Nat.zero_le _) nofun nofun
  intro i hi
  cases hi with
  | inl hqueue => cases hqueue
  | inr hworker =>
    obtain ⟨w, hw⟩ := hworker
    cases hw

theorem OwnerPc.sent_of_tests {o : OwnerPc} (h : o.tests = true) : o.sent = nProcessors := by
  cases o with
  | preparing i =>
    have hi : i = nProcessors := by simpa [OwnerPc.tests] using h
    exact hi
  | woken => rfl
  | blocked | aggregating | returned => cases h

section Moves
variable [DecidableEq W] {queue : List Nat} {worker : W → WorkerPc} {w : W} {p : WorkerPc}

theorem waits_move (hw : ∀ i, worker w ≠ .summing i) (hp : ∀ i, p ≠ .summing i) (i : Nat) :
    Waits queue (update worker w p) i ↔ Waits queue worker i := by
  apply or_congr_right
  constructor
  · intro h
    obtain ⟨u, hu⟩ := h
    obtain ⟨_, he⟩ | ⟨_, hold⟩ := update_cases hu
    · exact absurd he (hp i)
    · exact ⟨u, hold⟩
  · intro h
    obtain ⟨u, hu⟩ := h
    have hne : u ≠ w := fun he => hw i (he ▸ hu)
    exact ⟨u, (update_of_ne hne p worker).trans hu⟩

theorem waits_take {i : Nat} (hw : worker w = .idle) (j : Nat) :
    Waits queue (update worker w (.summing i)) j ↔ Waits (i :: queue) worker j := by
  unfold Waits
  rw [List.mem_cons]
  constructor
  · intro h
    obtain hold | ⟨u, hu⟩ := h
    · exact Or.inl (Or.inr hold)
    · obtain ⟨_, he⟩ | ⟨_, hold⟩ := update_cases hu
      · cases he
        exact Or.inl (Or.inl rfl)
      · exact Or.inr ⟨u, hold⟩
  · intro h
    obtain (hij | hold) | ⟨u, hu⟩ := h
    · subst hij
      exact Or.inr ⟨w, update_self _ _ _⟩
    · exact Or.inl hold
    · have hne : u ≠ w := by
        intro he
        rw [he, hw] at hu
        cases hu
      exact Or.inr ⟨u, (update_of_ne hne _ worker).trans hu⟩

theorem waits_sum {i j : Nat} (hw : worker w = .summing i) (hp : ∀ i, p ≠ .summing i) :
    (Waits queue (update worker w p) j → Waits queue worker j) ∧
      (Waits queue worker j → Waits queue (update worker w p) j ∨ j = i) := by
  constructor
  · intro h
    obtain hold | ⟨u, hu⟩ := h
    · exact Or.inl hold
    · obtain ⟨_, he⟩ | ⟨_, hold⟩ := update_cases hu
      · exact absurd he (hp j)
      · exact Or.inr ⟨u, hold⟩
  · intro h
    obtain hold | ⟨u, hu⟩ := h
    · exact Or.inl (Or.inl hold)
    · by_cases hne : u = w
      · rw [hne, hw] at hu
        cases hu
        exact Or.inr rfl
      · exact Or.inl (Or.inr ⟨u, (update_of_ne hne p worker).trans hu⟩)

theorem broadcasting_stays (hw : worker w ≠ .broadcasting)
    (h : ∃ u, worker u = .broadcasting) : ∃ u, update worker w p u = .broadcasting := by
  obtain ⟨u, hu⟩ := h
  have hne : u ≠ w := fun he => hw (he ▸ hu)
  exact ⟨u, (update_of_ne hne p worker).trans hu⟩

end Moves

/-- How many steps the contexts and the owner still have before them. -/
def WorkerPc.ahead : WorkerPc → Nat
  | .idle => 0
  | .summing _ => 4
  | .signalling _ => 3
  | .broadcasting => 2

def OwnerPc.ahead : OwnerPc → Nat
  | .preparing _ => 3
  | .woken => 2
  | .blocked | .aggregating => 1
  | .returned _ => 0

def State.ahead [Fintype W] (s : State W) : Nat :=
  6 * s.owner.unsent + 5 * s.queue.length + tally WorkerPc.ahead s.worker + s.owner.ahead

def Label.isSpurious : Label W → Bool
  | .spurious => true
  | _ => false

theorem OwnerPc.ahead_of_tests {o : OwnerPc} (h : o.tests = true) : 2 ≤ o.ahead := by
  cases o with
  | preparing i => exact Nat.le_succ 2
  | woken => exact Nat.le_refl 2
  | blocked | aggregating | returned => cases h

theorem OwnerPc.ahead_wake (o : OwnerPc) :
    (o.wake.getD o).unsent = o.unsent ∧ (o.wake.getD o).ahead ≤ o.ahead + 1 := by
  cases o with
  | blocked => exact ⟨rfl, Nat.le_refl 2⟩
  | preparing | woken | aggregating | returned => exact ⟨rfl, Nat.le_succ _⟩

section Steps
variable [DecidableEq W] [Fintype W] {v : List Int32} {s s' : State W} {l : Label W}

omit [DecidableEq W] in
/-- When the latch is open, every context has its part of the sum. -/
theorem Sums.totalResult (hi : Sums v s) (hinv : Inv s) (hpc : s.owner = .aggregating) :
    totalResult s.contexts = parSum v := by
  have hf := hi.filling
  rw [hpc] at hf
  obtain ⟨hempty, hidle⟩ := hinv.quiet (by rw [hpc]; rfl)
  apply totalResult_filled
  apply hf.all
  intro i hw
  obtain hqueue | ⟨w, hw⟩ := hw
  · rw [hempty] at hqueue
    cases hqueue
  · have hbusy := hidle w
    rw [hw] at hbusy
    cases hbusy

theorem Step.sums (h : Step v s l s') (hinv : Inv s) (hi : Sums v s) : Sums v s' := by
  have hf := hi.filling
  cases h with
  | @submit i hpc hlt =>
    rw [hpc] at hf
    refine Sums.of_going (hf.submit ?_) hlt nofun nofun
    intro j
    simp only [Waits, List.mem_append, List.mem_singleton]
    tauto
  | wait htests hmust =>
    rw [OwnerPc.sent_of_tests htests] at hf
    refine ⟨hf, Nat.le_refl _, ?_, ?_⟩
    · intro _ hzero
      have hpos := (cdlMustWait_iff s.cdl).mp hmust
      dsimp only at hzero
      omega
    · intro total h
      cases h
  | pass htests hmust =>
    rw [OwnerPc.sent_of_tests htests] at hf
    exact Sums.of_going hf (Nat.le_refl _) nofun nofun
  | spurious hpc =>
    rw [hpc] at hf
    exact Sums.of_going hf (Nat.le_refl _) nofun nofun
  | giveBack hpc =>
    rw [hpc] at hf
    refine ⟨hf, Nat.le_refl _, nofun, ?_⟩
    intro total h
    cases h
    exact hi.totalResult hinv hpc
  | @take w i rest hpc hqueue =>
    rw [hqueue] at hf
    refine ⟨hf.congr (waits_take hpc), hi.bounded, ?_, hi.total⟩
    intro hblocked hzero
    exact broadcasting_stays (by simp [hpc]) (hi.owed hblocked hzero)
  | @sum w i ctx hpc hctx =>
    rw [workerSum_filled hf (Or.inr ⟨w, hpc⟩) hctx]
    refine ⟨hf.finish ?_ ?_, hi.bounded, ?_, hi.total⟩
    · intro j
      exact (waits_sum hpc (by simp)).1
    · intro j
      exact (waits_sum hpc (by simp)).2
    · intro hblocked hzero
      exact broadcasting_stays (by simp [hpc]) (hi.owed hblocked hzero)
  | @signalLast w i hpc hlast =>
    refine ⟨hf.congr (waits_move (by simp [hpc]) (by simp)), hi.bounded, ?_, hi.total⟩
    intro _ _
    exact ⟨w, update_self _ _ _⟩
  | @signal w i hpc hnot =>
    refine ⟨hf.congr (waits_move (by simp [hpc]) (by simp)), hi.bounded, ?_, hi.total⟩
    intro hblocked hzero
    have hcount := signal_counter hinv
    have hcounter := hinv.counter
    have hbusy := tally_update WorkerPc.busy s.worker w .idle
    rw [hpc] at hbusy
    simp only [WorkerPc.busy] at hbusy
    have hlast := (cdlSignal_last s.cdl).mpr (by dsimp only at hzero; omega)
    rw [hnot] at hlast
    cases hlast
  | @broadcast w hpc =>
    have hsent : (s.owner.wake.getD s.owner).sent = s.owner.sent := by
      cases s.owner <;> rfl
    refine ⟨?_, ?_, ?_, ?_⟩
    · dsimp only
      rw [hsent]
      exact hf.congr (waits_move (by simp [hpc]) (by simp))
    · dsimp only
      rw [hsent]
      exact hi.bounded
    · intro hblocked
      cases howner : s.owner <;> simp [howner, OwnerPc.wake] at hblocked
    · intro total htotal
      apply hi.total total
      cases howner : s.owner <;> simp [howner, OwnerPc.wake] at htotal ⊢
      exact htotal

omit [Fintype W] in
theorem exists_worker_step (hi : Sums v s) {w : W} (hw : s.worker w ≠ .idle) :
    ∃ l t, Step v s l t ∧ l.isSpurious = false := by
  cases hpc : s.worker w with
  | idle => exact absurd hpc hw
  | summing i =>
    have hctx : ∃ ctx, s.contexts i = some ctx := by
      cases hi.filling.waiting_slot (Or.inr ⟨w, hpc⟩) with
      | inl hstart => exact ⟨_, hstart⟩
      | inr hdone => exact ⟨_, hdone⟩
    obtain ⟨ctx, hctx⟩ := hctx
    exact ⟨_, _, Step.sum hpc hctx, rfl⟩
  | signalling i =>
    cases hlast : (cdlSignal s.cdl).1 with
    | true => exact ⟨_, _, Step.signalLast hpc hlast, rfl⟩
    | false => exact ⟨_, _, Step.signal hpc hlast, rfl⟩
  | broadcasting => exact ⟨_, _, Step.broadcast hpc, rfl⟩

theorem exists_step [Nonempty W] (hinv : Inv s) (hi : Sums v s) (hgone : s.owner.gone = false) :
    ∃ l t, Step v s l t ∧ l.isSpurious = false := by
  have htest : s.owner.tests = true → ∃ l t, Step v s l t ∧ l.isSpurious = false := by
    intro htests
    cases hmust : cdlMustWait s.cdl with
    | true => exact ⟨_, _, Step.wait htests hmust, rfl⟩
    | false => exact ⟨_, _, Step.pass htests hmust, rfl⟩
  cases howner : s.owner with
  | preparing i =>
    have hle : i ≤ nProcessors := by
      have := hi.bounded
      rw [howner] at this
      exact this
    cases Nat.lt_or_eq_of_le hle with
    | inl hlt => exact ⟨_, _, Step.submit howner hlt, rfl⟩
    | inr heq => exact htest (by simp [howner, OwnerPc.tests, heq])
  | woken => exact htest (by rw [howner]; rfl)
  | aggregating => exact ⟨_, _, Step.giveBack howner, rfl⟩
  | returned total =>
    rw [howner] at hgone
    cases hgone
  | blocked =>
    by_cases hwork : ∃ w, s.worker w ≠ .idle
    · obtain ⟨w, hw⟩ := hwork
      exact exists_worker_step hi hw
    · have hidle : ∀ w, s.worker w = .idle := by
        intro w
        by_contra hw
        exact hwork ⟨w, hw⟩
      obtain ⟨w⟩ := ‹Nonempty W›
      cases hqueue : s.queue with
      | cons i rest => exact ⟨_, _, Step.take (hidle w) hqueue, rfl⟩
      | nil =>
        exfalso
        have hcounter := hinv.counter
        have hbusy : tally WorkerPc.busy s.worker = 0 :=
          tally_eq_zero.mpr fun u => by rw [hidle u]; rfl
        have hunsent : s.owner.unsent = 0 := by rw [howner]; rfl
        rw [hqueue, hbusy, hunsent] at hcounter
        obtain ⟨u, hu⟩ := hi.owed howner (by rw [hcounter]; rfl)
        rw [hidle u] at hu
        cases hu

theorem Step.ahead (h : Step v s l s') :
    s'.ahead + 1 ≤ s.ahead + if l.isSpurious then 2 else 0 := by
  unfold State.ahead
  cases h with
  | @submit i hpc hlt =>
    rw [hpc]
    simp only [OwnerPc.unsent, OwnerPc.ahead, Label.isSpurious, List.length_append,
      List.length_singleton]
    omega
  | wait htests _ | pass htests _ =>
    have hunsent := (OwnerPc.unsent_of_tests htests).1
    have howner := OwnerPc.ahead_of_tests htests
    have hsent : OwnerPc.blocked.unsent = 0 ∧ OwnerPc.aggregating.unsent = 0 := ⟨rfl, rfl⟩
    have hahead : OwnerPc.blocked.ahead = 1 ∧ OwnerPc.aggregating.ahead = 1 := ⟨rfl, rfl⟩
    dsimp only
    omega
  | spurious hpc | giveBack hpc =>
    rw [hpc]
    simp [OwnerPc.unsent, OwnerPc.ahead, Label.isSpurious]
  | @take w i rest hpc hqueue =>
    have hw := tally_update WorkerPc.ahead s.worker w (.summing i)
    rw [hpc] at hw
    rw [hqueue]
    simp only [WorkerPc.ahead, List.length_cons, Label.isSpurious] at hw ⊢
    omega
  | @sum w i _ hpc _ =>
    have hw := tally_update WorkerPc.ahead s.worker w (.signalling i)
    rw [hpc] at hw
    simp only [WorkerPc.ahead, Label.isSpurious] at hw ⊢
    omega
  | @signalLast w i hpc _ =>
    have hw := tally_update WorkerPc.ahead s.worker w .broadcasting
    rw [hpc] at hw
    simp only [WorkerPc.ahead, Label.isSpurious] at hw ⊢
    omega
  | @signal w i hpc _ =>
    have hw := tally_update WorkerPc.ahead s.worker w .idle
    rw [hpc] at hw
    simp only [WorkerPc.ahead, Label.isSpurious] at hw ⊢
    omega
  | @broadcast w hpc =>
    have hw := tally_update WorkerPc.ahead s.worker w .idle
    rw [hpc] at hw
    have howner := s.owner.ahead_wake
    simp only [WorkerPc.ahead, Label.isSpurious] at hw ⊢
    omega

/-- What `par_adder` has returned. -/
def State.result (s : State W) : Option Int64 :=
  match s.owner with
  | .returned total => some total
  | _ => none

omit [DecidableEq W] [Fintype W] in
theorem State.owner_of_result {s : State W} {total : Int64} (h : s.result = some total) :
    s.owner = .returned total := by
  unfold State.result at h
  split at h
  · cases h
    assumption
  · cases h

theorem returns_parSum [Nonempty W] (v : List Int32) :
    Returns (Step v) (init : State W) Label.isSpurious State.result (parSum v) := by
  apply Returns.of_invariant (P := fun a : State W => Inv a ∧ Sums v a) (c := 2)
    ⟨init_inv, init_sums v⟩
  · intro a l b ha hstep
    exact ⟨hstep.inv ha.1, hstep.sums ha.1 ha.2⟩
  · intro a total ha hresult
    exact ha.2.total total (State.owner_of_result hresult)
  · intro a ha hnone
    apply exists_step ha.1 ha.2
    unfold State.result at hnone
    split at hnone
    · cases hnone
    · rename_i hnot
      cases howner : a.owner with
      | returned total => exact absurd howner (hnot total)
      | preparing | blocked | woken | aggregating => rfl
  · intro a l b hstep
    exact hstep.ahead

end Steps

end OsCourse.Latch.Adder
