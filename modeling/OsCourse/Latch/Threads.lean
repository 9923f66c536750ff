import OsCourse.Latch.Totals

/-! `par_adder` of padder.c: a thread of its own for each context, and joins in place of
the latch. Contexts, segments and sums are those of tp_adder.c. -/
namespace OsCourse.Latch.Threads
open Function Transition Tally Gather Calls Adder

/-- `NTHREADS`, defined as `NPROCESSORS`. -/
def nThreads : Nat := nProcessors

inductive OwnerPc where
  /-- in the first loop, before context `i` -/
  | creating (i : Nat)
  /-- in the second loop, at the join of thread `i` -/
  | joining (i : Nat)
  | returned (total : Int64)
  deriving DecidableEq

inductive ThreadPc where
  | absent
  | summing
  | ended
  deriving DecidableEq

structure State where
  contexts : Nat → Option Context
  owner : OwnerPc
  worker : Fin nThreads → ThreadPc

inductive Label where
  | create
  | sum (i : Fin nThreads)
  | beginJoins
  | join
  | giveBack

def init : State := ⟨fun _ => none, .creating 0, fun _ => .absent⟩

inductive Step (v : List Int32) : State → Label → State → Prop
  | create {s : State} {i : Fin nThreads} : s.owner = .creating i →
      Step v s .create
        { contexts := update s.contexts i (some (prepare v.length i))
          owner := .creating (i + 1)
          worker := update s.worker i .summing }
  | sum {s : State} {i : Fin nThreads} {ctx : Context} : s.worker i = .summing →
      s.contexts i = some ctx →
      Step v s (.sum i) { s with
        contexts := update s.contexts i (some { ctx with result := workerSum v ctx })
        worker := update s.worker i .ended }
  | beginJoins {s : State} : s.owner = .creating nThreads →
      Step v s .beginJoins { s with owner := .joining 0 }
  | join {s : State} {i : Fin nThreads} : s.owner = .joining i → s.worker i = .ended →
      Step v s .join { s with owner := .joining (i + 1) }
  | giveBack {s : State} : s.owner = .joining nThreads →
      Step v s .giveBack { s with owner := .returned (totalResult s.contexts) }

def OwnerPc.sent : OwnerPc → Nat
  | .creating i => i
  | _ => nThreads

def OwnerPc.joined : OwnerPc → Nat
  | .creating _ => 0
  | .joining i => i
  | .returned _ => nThreads

def Waits (worker : Fin nThreads → ThreadPc) (i : Nat) : Prop :=
  ∃ h : i < nThreads, worker ⟨i, h⟩ = .summing

structure Sums (v : List Int32) (s : State) : Prop where
  filling : Filling (prepare v.length) (filled v) s.contexts (Waits s.worker) s.owner.sent
  bounded : s.owner.sent ≤ nThreads ∧ s.owner.joined ≤ nThreads
  created : ∀ i : Fin nThreads, i < s.owner.sent → s.worker i ≠ .absent
  ended : ∀ i : Fin nThreads, i < s.owner.joined → s.worker i = .ended
  total : ∀ total, s.owner = .returned total → total = parSum v

variable {v : List Int32} {s s' : State} {l : Label}

theorem init_sums (v : List Int32) : Sums v init := by
  refine ⟨Filling.init _ _ _ ?_, ⟨Nat.zero_le _, Nat.zero_le _⟩, ?_, ?_, ?_⟩
  · intro i hi
    obtain ⟨_, hw⟩ := hi
    cases hw
  · intro i hi
    exact absurd hi (Nat.not_lt_zero _)
  · intro i hi
    exact absurd hi (Nat.not_lt_zero _)
  · intro total h
    cases h

theorem waits_create (worker : Fin nThreads → ThreadPc) (i : Fin nThreads) (j : Nat) :
    Waits (update worker i .summing) j ↔ Waits worker j ∨ j = i := by
  constructor
  · intro h
    obtain ⟨hj, hw⟩ := h
    obtain ⟨he, _⟩ | ⟨_, hold⟩ := update_cases hw
    · exact Or.inr (congrArg Fin.val he)
    · exact Or.inl ⟨hj, hold⟩
  · intro h
    cases h with
    | inl hold =>
      obtain ⟨hj, hw⟩ := hold
      refine ⟨hj, ?_⟩
      by_cases he : ⟨j, hj⟩ = i
      · rw [he, update_self]
      · rw [update_of_ne he]
        exact hw
    | inr he =>
      subst he
      exact ⟨i.isLt, update_self _ _ _⟩

theorem waits_end (worker : Fin nThreads → ThreadPc) (i : Fin nThreads) (j : Nat) :
    (Waits (update worker i .ended) j → Waits worker j) ∧
      (Waits worker j → Waits (update worker i .ended) j ∨ j = i) := by
  constructor
  · intro h
    obtain ⟨hj, hw⟩ := h
    obtain ⟨_, he⟩ | ⟨_, hold⟩ := update_cases hw
    · cases he
    · exact ⟨hj, hold⟩
  · intro h
    obtain ⟨hj, hw⟩ := h
    by_cases he : ⟨j, hj⟩ = i
    · exact Or.inr (congrArg Fin.val he)
    · exact Or.inl ⟨hj, (update_of_ne he _ worker).trans hw⟩

theorem Step.sums (h : Step v s l s') (hi : Sums v s) : Sums v s' := by
  have hf := hi.filling
  have hb := hi.bounded
  cases h with
  | @create i howner =>
    have hcreated := hi.created
    rw [howner] at hf hcreated
    refine ⟨hf.submit (waits_create s.worker i), ⟨i.isLt, Nat.zero_le _⟩, ?_, ?_, ?_⟩
    · intro k hk
      dsimp only
      by_cases hki : k = i
      · rw [hki]
        simp
      · have hne : k.val ≠ i.val := fun he => hki (Fin.ext he)
        have hlt : k.val < i.val := by
          have hle : k.val < i.val + 1 := hk
          omega
        rw [update_of_ne hki]
        exact hcreated k hlt
    · intro k hk
      exact absurd hk (Nat.not_lt_zero _)
    · intro total htotal
      cases htotal
  | @sum i ctx hpc hctx =>
    rw [workerSum_filled hf ⟨i.isLt, hpc⟩ hctx]
    refine ⟨hf.finish (fun j => (waits_end s.worker i j).1) fun j => (waits_end s.worker i j).2,
      hb, ?_, ?_, hi.total⟩
    · intro k hk
      dsimp only
      by_cases hki : k = i
      · rw [hki]
        simp
      · rw [update_of_ne hki]
        exact hi.created k hk
    · intro k hk
      dsimp only
      by_cases hki : k = i
      · rw [hki, update_self]
      · rw [update_of_ne hki]
        exact hi.ended k hk
  | beginJoins howner =>
    have hcreated := hi.created
    rw [howner] at hf hcreated
    refine ⟨hf, ⟨Nat.le_refl _, Nat.zero_le _⟩, hcreated, ?_, ?_⟩
    · intro k hk
      exact absurd hk (Nat.not_lt_zero _)
    · intro total htotal
      cases htotal
  | @join i howner hended =>
    have hcreated := hi.created
    have hjoined := hi.ended
    rw [howner] at hf hcreated hjoined
    refine ⟨hf, ⟨Nat.le_refl _, i.isLt⟩, hcreated, ?_, ?_⟩
    · intro k hk
      by_cases hki : k = i
      · rw [hki]
        exact hended
      · have hne : k.val ≠ i.val := fun he => hki (Fin.ext he)
        have hlt : k.val < i.val := by
          have hle : k.val < i.val + 1 := hk
          omega
        exact hjoined k hlt
    · intro total htotal
      cases htotal
  | giveBack howner =>
    have hcreated := hi.created
    have hjoined := hi.ended
    rw [howner] at hf hcreated hjoined
    refine ⟨hf, ⟨Nat.le_refl _, Nat.le_refl _⟩, hcreated, hjoined, ?_⟩
    intro total htotal
    cases htotal
    apply totalResult_filled
    apply hf.all
    intro j hw
    obtain ⟨hj, hw⟩ := hw
    rw [hjoined ⟨j, hj⟩ hj] at hw
    cases hw

theorem exists_step (hi : Sums v s) (hnot : ∀ total, s.owner ≠ .returned total) :
    ∃ l t, Step v s l t := by
  have hb := hi.bounded
  cases howner : s.owner with
  | creating i =>
    rw [howner] at hb
    cases Nat.lt_or_eq_of_le hb.1 with
    | inl hlt => exact ⟨_, _, Step.create (i := ⟨i, hlt⟩) howner⟩
    | inr heq =>
      have hlast : i = nThreads := heq
      exact ⟨_, _, Step.beginJoins (hlast ▸ howner)⟩
  | joining i =>
    rw [howner] at hb
    cases Nat.lt_or_eq_of_le hb.2 with
    | inl hlt =>
      have hcreated := hi.created ⟨i, hlt⟩ (by rw [howner]; exact hlt)
      cases hpc : s.worker ⟨i, hlt⟩ with
      | absent => exact absurd hpc hcreated
      | ended => exact ⟨_, _, Step.join (i := ⟨i, hlt⟩) howner hpc⟩
      | summing =>
        cases hi.filling.waiting_slot ⟨hlt, hpc⟩ with
        | inl hstart => exact ⟨_, _, Step.sum (i := ⟨i, hlt⟩) hpc hstart⟩
        | inr hdone => exact ⟨_, _, Step.sum (i := ⟨i, hlt⟩) hpc hdone⟩
    | inr heq =>
      have hlast : i = nThreads := heq
      exact ⟨_, _, Step.giveBack (hlast ▸ howner)⟩
  | returned total => exact absurd howner (hnot total)

def OwnerPc.ahead : OwnerPc → Nat
  | .creating i => 2 * (nThreads - i) + nThreads + 2
  | .joining i => nThreads - i + 1
  | .returned _ => 0

def ThreadPc.ahead : ThreadPc → Nat
  | .summing => 1
  | .absent | .ended => 0

def State.ahead (s : State) : Nat := s.owner.ahead + tally ThreadPc.ahead s.worker

theorem Step.ahead (h : Step v s l s') : s'.ahead + 1 ≤ s.ahead := by
  unfold State.ahead
  cases h with
  | @create i howner =>
    have hw := tally_update ThreadPc.ahead s.worker i .summing
    have hlt := i.isLt
    rw [howner]
    simp only [OwnerPc.ahead, ThreadPc.ahead] at hw ⊢
    omega
  | @sum i ctx hpc _ =>
    have hw := tally_update ThreadPc.ahead s.worker i .ended
    rw [hpc] at hw
    simp only [ThreadPc.ahead] at hw ⊢
    omega
  | beginJoins howner | giveBack howner =>
    rw [howner]
    simp only [OwnerPc.ahead]
    omega
  | @join i howner _ =>
    have hlt := i.isLt
    rw [howner]
    simp only [OwnerPc.ahead]
    omega

/-- What `par_adder` has returned. -/
def State.result (s : State) : Option Int64 :=
  match s.owner with
  | .returned total => some total
  | _ => none

theorem State.owner_of_result {total : Int64} (h : s.result = some total) :
    s.owner = .returned total := by
  unfold State.result at h
  split at h
  · cases h
    assumption
  · cases h

theorem returns_parSum (v : List Int32) :
    Returns (Step v) init (fun _ => false) State.result (parSum v) := by
  apply Returns.of_invariant (P := Sums v) (c := 0) (init_sums v)
  · intro a l b ha hstep
    exact hstep.sums ha
  · intro a total ha hresult
    exact ha.total total (State.owner_of_result hresult)
  · intro a ha hnone
    have hnot : ∀ total, a.owner ≠ .returned total := by
      intro total howner
      simp [State.result, howner] at hnone
    obtain ⟨l, t, hstep⟩ := exists_step ha hnot
    exact ⟨l, t, hstep, rfl⟩
  · intro a l b hstep
    simpa using hstep.ahead

end OsCourse.Latch.Threads

namespace OsCourse.Latch
open Transition Calls Adder

/-- Over a pool and with threads of its own, `par_adder` returns what `seq_adder` does and
hands out segments that make up the array exactly when the processors divide the size;
the results alone agree when the values left out add up to zero. -/
theorem par_adders_iff {W : Type*} [DecidableEq W] [Fintype W] [Nonempty W] (v : List Int32) :
    ((Partitioned v.length ∧
      Returns (Adder.Step v) (Adder.init : Adder.State W) Label.isSpurious Adder.State.result
        (seqAdder v) ∧
      Returns (Threads.Step v) Threads.init (fun _ => false) Threads.State.result
        (seqAdder v)) ↔ v.length % nProcessors = 0) ∧
    (Returns (Adder.Step v) (Adder.init : Adder.State W) Label.isSpurious Adder.State.result
      (seqAdder v) ↔ seqAdder (remainder v) = 0) ∧
    (Returns (Threads.Step v) Threads.init (fun _ => false) Threads.State.result
      (seqAdder v) ↔ seqAdder (remainder v) = 0) := by
  have hpool := (Adder.returns_parSum (W := W) v).iff_eq (seqAdder v)
  have hthreads := (Threads.returns_parSum v).iff_eq (seqAdder v)
  rw [hpool, hthreads, parSum_eq_seqAdder_iff, partitioned_iff]
  refine ⟨?_, Iff.rfl, Iff.rfl⟩
  constructor
  · intro h
    exact h.1
  · intro hdvd
    have hnil : remainder v = [] := by
      rw [← List.length_eq_zero_iff, remainder_length, hdvd]
    have hzero : seqAdder (remainder v) = 0 := by
      rw [hnil]
      rfl
    exact ⟨hdvd, hzero, hzero⟩

/-- Eight values over a pool of one worker. -/
theorem par_adders_iff_eight : Returns (Adder.Step [1, 2, 3, 4, 5, 6, 7, 8])
    (Adder.init : Adder.State Unit) Label.isSpurious Adder.State.result 36 :=
  ((par_adders_iff [1, 2, 3, 4, 5, 6, 7, 8]).1.mpr rfl).2.1

/-- Of an array of one value no segment has any part, and the sum is lost. -/
theorem par_adder_loses_rest : ∃ ls s, Runs (Adder.Step [1]) (Adder.init : Adder.State Unit) ls s ∧
    s.result = some 0 ∧ seqAdder [1] = 1 ∧ ¬ Partitioned 1 := by
  obtain ⟨ls, s, hrun, hresult⟩ := (Adder.returns_parSum (W := Unit) [1]).exists_run
  refine ⟨ls, s, hrun, hresult, rfl, ?_⟩
  rw [partitioned_iff]
  decide

end OsCourse.Latch
