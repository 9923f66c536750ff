import OsCourse.Latch.Countdown
import OsCourse.Lib.Tally

/-! `par_adder` (tp_adder.c) over a pool of workers: its latch and its contexts are locals,
and the workers reach them through pointers. -/
namespace OsCourse.Latch.Adder
open Function Transition Wakeup Tally

def nProcessors : Nat := 4

/-- `context_t`, with positions in the array for its pointers. -/
structure Context where
  pstart : Nat
  pend : Nat
  result : Int64
  deriving DecidableEq

/-- The body of the loop of `par_adder` that fills in context `i`. -/
def prepare (size i : Nat) : Context :=
  let rangeSize := size / nProcessors
  let pref := i * rangeSize
  { pstart := pref
    pend := if pref + rangeSize > size then size else pref + rangeSize
    result := 0 }

/-- The loop of `worker_func`. -/
def workerSum (v : List Int32) (ctx : Context) : Int64 :=
  ((v.drop ctx.pstart).take (ctx.pend - ctx.pstart)).foldl (fun sum x => sum + x.toInt64) 0

/-- The last loop of `par_adder`. -/
def totalResult (contexts : Nat → Option Context) : Int64 :=
  (List.range nProcessors).foldl
    (fun total i => total + ((contexts i).map Context.result).getD 0) 0

inductive OwnerPc where
  /-- in the first loop, before context `i` -/
  | preparing (i : Nat)
  | blocked
  | woken
  /-- `cdl_wait` has returned -/
  | aggregating
  | returned (total : Int64)
  deriving DecidableEq

inductive WorkerPc where
  /-- with no context of the call -/
  | idle
  | summing (i : Nat)
  /-- before the lock of `cdl_signal` -/
  | signalling (i : Nat)
  /-- after the unlock, with `to_complete` -/
  | broadcasting
  deriving DecidableEq

/-- The owner has prepared every context, and goes to the test of `cdl_wait`. -/
def OwnerPc.tests : OwnerPc → Bool
  | .preparing i => i = nProcessors
  | .woken => true
  | _ => false

def OwnerPc.wake : OwnerPc → Option OwnerPc
  | .blocked => some .woken
  | _ => none

/-- `queue` holds the contexts submitted to the pool and not yet taken by a worker. -/
structure State (W : Type*) where
  cdl : Cdl
  contexts : Nat → Option Context
  queue : List Nat
  owner : OwnerPc
  worker : W → WorkerPc

inductive Label (W : Type*) where
  | submit
  | test
  | spurious
  | giveBack
  | take (w : W)
  | sum (w : W)
  | signal (w : W)
  | broadcast (w : W)

/-- The step reads or writes the latch or a context through a worker's pointer. -/
def Label.touches {W : Type*} : Label W → Bool
  | .sum _ | .signal _ | .broadcast _ => true
  | _ => false

/-- `par_adder` has returned. -/
def OwnerPc.gone : OwnerPc → Bool
  | .returned _ => true
  | _ => false

section Steps
variable {W : Type*} [DecidableEq W]

def init : State W :=
  { cdl := cdlInit (Int32.ofNat nProcessors)
    contexts := fun _ => none
    queue := []
    owner := .preparing 0
    worker := fun _ => .idle }

inductive Step (v : List Int32) : State W → Label W → State W → Prop
  | submit {s : State W} {i : Nat} : s.owner = .preparing i → i < nProcessors →
      Step v s .submit { s with
        contexts := update s.contexts i (some (prepare v.length i))
        queue := s.queue ++ [i]
        owner := .preparing (i + 1) }
  | wait {s : State W} : s.owner.tests = true → cdlMustWait s.cdl = true →
      Step v s .test { s with owner := .blocked }
  | pass {s : State W} : s.owner.tests = true → cdlMustWait s.cdl = false →
      Step v s .test { s with owner := .aggregating }
  | spurious {s : State W} : s.owner = .blocked →
      Step v s .spurious { s with owner := .woken }
  | giveBack {s : State W} : s.owner = .aggregating →
      Step v s .giveBack { s with owner := .returned (totalResult s.contexts) }
  | take {s : State W} {w : W} {i : Nat} {rest : List Nat} : s.worker w = .idle →
      s.queue = i :: rest →
      Step v s (.take w) { s with queue := rest, worker := update s.worker w (.summing i) }
  | sum {s : State W} {w : W} {i : Nat} {ctx : Context} : s.worker w = .summing i →
      s.contexts i = some ctx →
      Step v s (.sum w) { s with
        contexts := update s.contexts i (some { ctx with result := workerSum v ctx })
        worker := update s.worker w (.signalling i) }
  | signalLast {s : State W} {w : W} {i : Nat} : s.worker w = .signalling i →
      (cdlSignal s.cdl).1 = true →
      Step v s (.signal w) { s with
        cdl := (cdlSignal s.cdl).2
        worker := update s.worker w .broadcasting }
  | signal {s : State W} {w : W} {i : Nat} : s.worker w = .signalling i →
      (cdlSignal s.cdl).1 = false →
      Step v s (.signal w) { s with
        cdl := (cdlSignal s.cdl).2
        worker := update s.worker w .idle }
  | broadcast {s : State W} {w : W} : s.worker w = .broadcasting →
      Step v s (.broadcast w) { s with
        owner := (OwnerPc.wake s.owner).getD s.owner
        worker := update s.worker w .idle }

/-- The call has returned and its locals are gone: no step reaches them any more. -/
def Safe (v : List Int32) (s : State W) : Prop :=
  ∀ l t, Step v s l t → l.touches = true → s.owner.gone = false

/-- `par_adder` returns when no signaller has its broadcast to come. -/
def Orderly (s : State W) : Label W → Prop
  | .giveBack => ∀ w, s.worker w ≠ .broadcasting
  | _ => True

theorem orderly_of_safe {v : List Int32} {s s' : State W} {l : Label W}
    (h : Step v s l s') (hsafe : Safe v s') : Orderly s l := by
  cases h with
  | giveBack hpc =>
    intro w hw
    have := hsafe _ _ (Step.broadcast (w := w) hw) rfl
    cases this
  | submit | wait | pass | spurious | take | sum | signalLast | signal | broadcast => trivial

end Steps

def OwnerPc.unsent : OwnerPc → Nat
  | .preparing i => nProcessors - i
  | _ => 0

/-- The worker has a context whose section of `cdl_signal` has not run. -/
def WorkerPc.busy : WorkerPc → Nat
  | .summing _ | .signalling _ => 1
  | _ => 0

/-- `cdl_wait` has returned. -/
def OwnerPc.passed : OwnerPc → Bool
  | .aggregating | .returned _ => true
  | _ => false

section Invariant
variable {W : Type*} [Fintype W] {v : List Int32}

structure Inv (s : State W) : Prop where
  counter : s.cdl.counter.toInt =
    (s.owner.unsent + s.queue.length + tally WorkerPc.busy s.worker : Nat)
  passed : s.owner.passed = true → s.cdl.counter.toInt ≤ 0

theorem init_inv : Inv (init : State W) := by
  have hbusy : tally WorkerPc.busy (fun _ : W => WorkerPc.idle) = 0 :=
    (tally_const WorkerPc.busy WorkerPc.idle).trans (Nat.mul_zero _)
  refine ⟨?_, ?_⟩
  · simp only [init, hbusy]
    rfl
  · intro h
    cases h

theorem Inv.quiet {s : State W} (hi : Inv s) (h : s.owner.passed = true) :
    s.queue = [] ∧ ∀ w, (s.worker w).busy = 0 := by
  have h1 := hi.counter
  have h2 := hi.passed h
  refine ⟨List.length_eq_zero_iff.mp (by omega), tally_eq_zero.mp (by omega)⟩

theorem signal_counter {s : State W} (hi : Inv s) :
    (cdlSignal s.cdl).2.counter.toInt = s.cdl.counter.toInt - 1 := by
  apply cdlSignal_counter
  have := hi.counter
  omega

theorem OwnerPc.unsent_of_tests {o : OwnerPc} (h : o.tests = true) :
    o.unsent = 0 ∧ o.passed = false := by
  cases o with
  | preparing i =>
    have hi : i = nProcessors := by simpa [OwnerPc.tests] using h
    refine ⟨?_, rfl⟩
    rw [hi]
    exact Nat.sub_self _
  | woken => exact ⟨rfl, rfl⟩
  | blocked | aggregating | returned => cases h

variable [DecidableEq W] {s s' : State W} {l : Label W}

theorem Inv.signal (hi : Inv s) {w : W} {i : Nat} {pc : WorkerPc}
    (hpc : s.worker w = .signalling i) (hdone : pc.busy = 0) :
    Inv { s with cdl := (cdlSignal s.cdl).2, worker := update s.worker w pc } := by
  have hc := hi.counter
  have hw := tally_update WorkerPc.busy s.worker w pc
  rw [hpc, hdone] at hw
  simp only [WorkerPc.busy] at hw
  have hcount := signal_counter hi
  refine ⟨?_, fun h => ?_⟩
  · dsimp only
    omega
  · have hpassed := hi.passed h
    dsimp only
    omega

theorem Step.inv (h : Step v s l s') (hi : Inv s) : Inv s' := by
  have hc := hi.counter
  cases h with
  | @submit i hpc hlt =>
    refine ⟨?_, fun h => by cases h⟩
    rw [hpc] at hc
    simp only [OwnerPc.unsent, List.length_append, List.length_singleton] at hc ⊢
    omega
  | wait htests hmust =>
    have hu := OwnerPc.unsent_of_tests htests
    refine ⟨?_, fun h => by cases h⟩
    simp only [OwnerPc.unsent]
    omega
  | pass htests hmust =>
    have hu := OwnerPc.unsent_of_tests htests
    refine ⟨?_, fun _ => ?_⟩
    · simp only [OwnerPc.unsent]
      omega
    · by_contra hpos
      have := (cdlMustWait_iff s.cdl).mpr (Int.not_le.mp hpos)
      rw [hmust] at this
      cases this
  | spurious hpc =>
    refine ⟨?_, fun h => by cases h⟩
    rw [hpc] at hc
    exact hc
  | giveBack hpc =>
    refine ⟨?_, fun _ => hi.passed (by rw [hpc]; rfl)⟩
    rw [hpc] at hc
    exact hc
  | @take w i rest hpc hqueue =>
    have hw := tally_update WorkerPc.busy s.worker w (.summing i)
    rw [hpc] at hw
    simp only [WorkerPc.busy] at hw
    refine ⟨?_, hi.passed⟩
    rw [hqueue, List.length_cons] at hc
    dsimp only
    omega
  | sum hpc _ =>
    refine ⟨?_, hi.passed⟩
    rw [tally_same (by rw [hpc]; rfl)]
    exact hc
  | signalLast hpc _ | signal hpc _ => exact hi.signal hpc rfl
  | @broadcast w hpc =>
    have hsame : ((OwnerPc.wake s.owner).getD s.owner).unsent = s.owner.unsent ∧
        ((OwnerPc.wake s.owner).getD s.owner).passed = s.owner.passed := by
      cases s.owner <;> exact ⟨rfl, rfl⟩
    refine ⟨?_, ?_⟩
    · dsimp only
      rw [tally_same (by rw [hpc]; rfl), hsame.1]
      exact hc
    · dsimp only
      rw [hsame.2]
      exact hi.passed

theorem OwnerPc.passed_of_gone {o : OwnerPc} (h : o.gone = true) : o.passed = true := by
  cases o with
  | returned total => rfl
  | preparing | blocked | woken | aggregating => cases h

theorem Step.settled (h : Step v s l s') (hl : Orderly s l)
    (hi : s.owner.gone = true → ∀ w, s.worker w ≠ .broadcasting) (hinv : Inv s) :
    s'.owner.gone = true → ∀ w, s'.worker w ≠ .broadcasting := by
  have move {w : W} {q : WorkerPc} (hgone : s.owner.gone = true) (hq : q ≠ .broadcasting) :
      ∀ u, update s.worker w q u ≠ .broadcasting := by
    rw [forall_update_iff s.worker fun _ q => q ≠ .broadcasting]
    exact ⟨hq, fun u _ => hi hgone u⟩
  cases h with
  | submit | wait | pass | spurious =>
    intro hgone
    cases hgone
  | giveBack => exact fun _ => hl
  | take | sum | signal => exact fun hgone => move hgone (by simp)
  | @signalLast w i hpc _ =>
    intro hgone
    have hquiet := (hinv.quiet (OwnerPc.passed_of_gone hgone)).2 w
    rw [hpc] at hquiet
    cases hquiet
  | broadcast =>
    intro hgone
    apply move _ (by simp)
    cases hpc : s.owner with
    | returned total => rfl
    | preparing | blocked | woken | aggregating =>
      dsimp only at hgone
      rw [hpc] at hgone
      cases hgone

theorem safe_of_settled (hi : s.owner.gone = true → ∀ w, s.worker w ≠ .broadcasting)
    (hinv : Inv s) : Safe v s := by
  intro l t hstep htouch
  by_contra hne
  have hgone : s.owner.gone = true := by simpa using hne
  have hquiet := (hinv.quiet (OwnerPc.passed_of_gone hgone)).2
  cases hstep with
  | submit | wait | pass | spurious | giveBack | take => cases htouch
  | @sum w _ _ hpc _ | @signalLast w _ hpc _ | @signal w _ hpc _ =>
    have := hquiet w
    rw [hpc] at this
    cases this
  | @broadcast w hpc => exact hi hgone w hpc

/-- The orderly runs are those in which no worker touches the latch or a context after
`par_adder` has returned, and which reach no state where one could. -/
theorem locals_untouched_iff (v : List Int32) (ls : List (Label W)) (s : State W) :
    Runs (fun a l b => Step v a l b ∧ Orderly a l) init ls s ↔
      Runs (fun a l b => (Step v a l b ∧ (l.touches = true → a.owner.gone = false)) ∧ Safe v b)
        init ls s := by
  apply Runs.iff_of
    (P := fun a : State W => Inv a ∧ (a.owner.gone = true → ∀ w, a.worker w ≠ .broadcasting))
    (Q := fun _ => True)
  · exact ⟨init_inv, nofun⟩
  · trivial
  · rintro a l b ⟨hinv, hi⟩ hstep
    have hinv' := hstep.1.inv hinv
    have hi' := hstep.1.settled hstep.2 hi hinv
    have hunused := safe_of_settled hi hinv _ _ hstep.1
    exact ⟨⟨⟨hstep.1, hunused⟩, safe_of_settled hi' hinv'⟩, hinv', hi'⟩
  · rintro a l b _ ⟨⟨hstep, _⟩, hsafe⟩
    exact ⟨⟨hstep, orderly_of_safe hstep hsafe⟩, trivial⟩

end Invariant

/-- The last signaller unlocks with the counter at zero, the owner finds it so and returns,
and the broadcast is still to come. -/
theorem broadcast_after_return : ¬∀ (ls : List (Label Unit)) (s : State Unit),
    Runs (Step [1, 1, 1, 1]) init ls s → Safe [1, 1, 1, 1] s := by
  intro hall
  have hsent1 := Runs.single (l := Label.submit)
    (Step.submit (v := [1, 1, 1, 1]) (s := (init : State Unit)) (i := 0) rfl (by decide))
  have hsent2 := hsent1.snoc (l := Label.submit) (Step.submit (i := 1) rfl (by decide))
  have hsent3 := hsent2.snoc (l := Label.submit) (Step.submit (i := 2) rfl (by decide))
  have hsent4 := hsent3.snoc (l := Label.submit) (Step.submit (i := 3) rfl (by decide))
  have htook1 := hsent4.snoc (l := Label.take ()) (Step.take rfl rfl)
  have hsum1 := htook1.snoc (l := Label.sum ()) (Step.sum rfl rfl)
  have hdone1 := hsum1.snoc (l := Label.signal ()) (Step.signal rfl rfl)
  have htook2 := hdone1.snoc (l := Label.take ()) (Step.take rfl rfl)
  have hsum2 := htook2.snoc (l := Label.sum ()) (Step.sum rfl rfl)
  have hdone2 := hsum2.snoc (l := Label.signal ()) (Step.signal rfl rfl)
  have htook3 := hdone2.snoc (l := Label.take ()) (Step.take rfl rfl)
  have hsum3 := htook3.snoc (l := Label.sum ()) (Step.sum rfl rfl)
  have hdone3 := hsum3.snoc (l := Label.signal ()) (Step.signal rfl rfl)
  have htook4 := hdone3.snoc (l := Label.take ()) (Step.take rfl rfl)
  have hsum4 := htook4.snoc (l := Label.sum ()) (Step.sum rfl rfl)
  have hzero := hsum4.snoc (l := Label.signal ()) (Step.signalLast rfl rfl)
  have hpasses := hzero.snoc (l := Label.test) (Step.pass rfl rfl)
  have hreturns := hpasses.snoc (l := Label.giveBack) (Step.giveBack rfl)
  have hgone := hall _ _ hreturns (.broadcast ()) _ (Step.broadcast rfl) rfl
  cases hgone

end OsCourse.Latch.Adder
