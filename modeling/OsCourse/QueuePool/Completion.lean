import Mathlib.Data.Multiset.AddSub
import Mathlib.Data.Finset.Union
import Mathlib.Data.Fintype.EquivFin
import OsCourse.Lib.Calls
import OsCourse.Lib.Exchange
import OsCourse.QueuePool.Items

/-! Threads that submit a number of items each: all are called, and the pool comes to rest. -/
namespace OsCourse.QueuePool
open Alloc Calls Exchange Function History Tally Transition Wakeup

def WorkerPc.isBlocked {L : Type*} : WorkerPc L → Nat
  | .blocked => 1
  | _ => 0

def WorkerPc.isWoken {L : Type*} : WorkerPc L → Nat
  | .woken => 1
  | _ => 0

def Label.isSubmit {W S L F A : Type*} : Label W S L F A → Bool
  | .submit _ _ _ => true
  | _ => false

def Label.isSpurious {W S L F A : Type*} : Label W S L F A → Bool
  | .spurious _ => true
  | _ => false

/-- `todo` is what each thread has not begun to submit. -/
structure Program (W S L F A : Type*) where
  state : State W S L F A
  todo : S → List (WorkItem F A)

/-- What a call of `tp_submit` still has to put. -/
def SubmitterPc.pending {L F A : Type*} : SubmitterPc L F A → List (WorkItem F A)
  | .idle => []
  | .submitting func arg | .putting _ func arg => [⟨func, arg⟩]

section Steps
variable {W S L F A : Type*} [DecidableEq W] [DecidableEq S] [DecidableEq L]

inductive PStep : Program W S L F A → Label W S L F A → Program W S L F A → Prop
  | submit {a : Program W S L F A} {s' : State W S L F A} {u : S} {func : F} {arg : A}
      {rest : List (WorkItem F A)} :
      a.todo u = ⟨func, arg⟩ :: rest → Step a.state (.submit u func arg) s' →
      PStep a (.submit u func arg) ⟨s', update a.todo u rest⟩
  | run {a : Program W S L F A} {s' : State W S L F A} {l : Label W S L F A} :
      l.isSubmit = false → Step a.state l s' → PStep a l { a with state := s' }

end Steps

section Ends
variable {W S L F A : Type*}

def Program.left (a : Program W S L F A) (u : S) : List (WorkItem F A) :=
  (a.state.submitter u).pending ++ a.todo u

structure Program.AtRest (a : Program W S L F A) : Prop where
  submitters : ∀ u, a.left u = []
  queue : a.state.list = []
  workers : ∀ w, (a.state.worker w).isBlocked = 1

instance [Fintype W] [Fintype S] (a : Program W S L F A) : Decidable a.AtRest :=
  decidable_of_iff ((∀ u, (a.left u).isEmpty = true) ∧ a.state.list.isEmpty = true ∧
    ∀ w, (a.state.worker w).isBlocked = 1)
    ⟨fun h => ⟨fun u => List.isEmpty_iff.mp (h.1 u), List.isEmpty_iff.mp h.2.1, h.2.2⟩,
      fun h => ⟨fun u => List.isEmpty_iff.mpr (h.submitters u), List.isEmpty_iff.mpr h.queue,
        h.workers⟩⟩

def Program.result [Fintype W] [Fintype S] (a : Program W S L F A) :
    Option (Multiset (WorkItem F A)) :=
  if a.AtRest then some (a.state.started.map Prod.snd) else none

variable [Fintype S]

def Program.items (a : Program W S L F A) : Multiset (WorkItem F A) :=
  (a.state.submitted : Multiset (WorkItem F A)) +
    Finset.univ.sum fun u => (a.left u : Multiset (WorkItem F A))

def WorkerPc.weight : WorkerPc L → Nat
  | .blocked | .ended => 0
  | .getting | .woken => 1
  | .ran _ => 2
  | .running _ => 3
  | .got _ => 4

def SubmitterPc.weight : SubmitterPc L F A → Nat
  | .idle => 0
  | .putting _ _ _ => 6
  | .submitting _ _ => 7

def Program.ahead [Fintype W] (a : Program W S L F A) : Nat :=
  tally WorkerPc.weight a.state.worker + 4 * a.state.list.length +
    Finset.univ.sum fun u => (a.state.submitter u).weight + 8 * (a.todo u).length

end Ends

section Invariant
variable {W S L F A : Type*}

theorem wake_some {p q : WorkerPc L} (h : p.wake = some q) : p = .blocked ∧ q = .woken := by
  cases p <;> cases h
  exact ⟨rfl, rfl⟩

variable [Fintype W]

/-- While a worker is blocked, each item in the queue has a worker that was woken. -/
def Covered (worker : W → WorkerPc L) (list : List L) : Prop :=
  (gaugeOf WorkerPc.isBlocked WorkerPc.isWoken (fun _ => 0) worker list.length).Covered

variable [DecidableEq W]

theorem Covered.put {worker worker' : W → WorkerPc L} {list : List L} {o : Option W}
    (h : Covered worker list) (hsig : Signal WorkerPc.wake worker o worker') (node : L) :
    Covered worker' (list ++ [node]) := by
  have hlen : (list ++ [node]).length = list.length + 1 := List.length_append
  -- the item is there first, and the signal is still to come
  have hproduce : Gauge.Move (gaugeOf WorkerPc.isBlocked WorkerPc.isWoken (fun _ => 0) worker
      list.length) ⟨list.length + 1, tally WorkerPc.isBlocked worker,
        tally WorkerPc.isWoken worker, 1⟩ :=
    Gauge.Move.produce rfl rfl rfl (by simp [gaugeOf, tally])
  have hadded := hproduce.covered h
  intro hblocked
  simp only [gaugeOf, hlen] at hblocked ⊢
  obtain ⟨hb, hw⟩ | ⟨hnone, _⟩ := hsig.moves WorkerPc.isBlocked WorkerPc.isWoken
    (by intro p hp hnone; cases p <;> simp_all [WorkerPc.isBlocked, WorkerPc.wake])
    (by intro p q hpq; obtain ⟨rfl, rfl⟩ := wake_some hpq; exact ⟨rfl, rfl⟩)
  · have hle : list.length + 1 ≤ 1 + tally WorkerPc.isWoken worker :=
      hadded (by dsimp only; omega)
    omega
  · omega

variable [DecidableEq S] [DecidableEq L] {s s' : State W S L F A} {l : Label W S L F A}

theorem Step.covered (h : Step s l s') (hc : Covered s.worker s.list) :
    Covered s'.worker s'.list := by
  cases h with
  | submit | create => exact hc
  | put _ _ hsig => exact hc.put hsig _
  | wait _ hempty => exact (Gauge.Move.sleep (by simp [gaugeOf, hempty])).covered hc
  | @get w item heap' rest htests hget =>
    obtain ⟨node, hnode, _⟩ := queueGet_some hget
    have hlist : s.list.length = rest.length + 1 := by
      rw [hnode, List.length_cons]
    have hmove : (s.worker w).isBlocked = 0 ∧ (s.worker w).isWoken ≤ 1 := by
      cases hpc : s.worker w <;> rw [hpc] at htests <;> cases htests <;>
        simp [WorkerPc.isBlocked, WorkerPc.isWoken]
    exact (gaugeOf_take (q := .got item) hlist hmove.1 hmove.2 rfl).covered hc
  | @spurious w hpc =>
    exact (gaugeOf_wake (q := .woken) (by rw [hpc]; rfl) (by rw [hpc]; rfl) rfl).covered hc
  | @leave w hpc =>
    exact (gaugeOf_keep (q := .ended) (by rw [hpc]; rfl) (by rw [hpc]; rfl) rfl).covered hc
  | @start w wi item hpc _ =>
    exact (gaugeOf_keep (q := .running wi) (by rw [hpc]; rfl) (by rw [hpc]; rfl) rfl).covered hc
  | @comeBack w wi hpc =>
    exact (gaugeOf_keep (q := .ran wi) (by rw [hpc]; rfl) (by rw [hpc]; rfl) rfl).covered hc
  | @destroy w wi hpc _ =>
    exact (gaugeOf_keep (q := .getting) (by rw [hpc]; rfl) (by rw [hpc]; rfl) rfl).covered hc

end Invariant

section Weights
variable {W L : Type*} [DecidableEq W] [Fintype W]

theorem tally_signal {worker worker' : W → WorkerPc L} {o : Option W}
    (h : Signal WorkerPc.wake worker o worker') :
    tally WorkerPc.weight worker' ≤ tally WorkerPc.weight worker + 1 := by
  cases h with
  | nobody => omega
  | @one w p hp =>
    obtain ⟨hpc, rfl⟩ := wake_some hp
    have hmove := tally_update WorkerPc.weight worker w .woken
    rw [hpc] at hmove
    simp only [WorkerPc.weight] at hmove
    omega

theorem WorkerPc.weight_of_tests {pc : WorkerPc L} (h : pc.tests = true) : pc.weight = 1 := by
  cases pc <;> cases h <;> rfl

end Weights

section Programs
variable {W S L F A : Type*} [DecidableEq W] [DecidableEq S] [DecidableEq L]
  {s s' : State W S L F A} {a b : Program W S L F A} {l : Label W S L F A}

theorem PStep.step (h : PStep a l b) : Step a.state l b.state := by
  cases h with
  | submit _ hs | run _ hs => exact hs

/-- A step leaves everybody what was to submit, or puts the first item of somebody. -/
theorem PStep.left (h : PStep a l b) :
    ((∀ v, b.left v = a.left v) ∧ b.state.submitted = a.state.submitted) ∨
      ∃ u x, a.left u = x :: b.left u ∧ (∀ v, v ≠ u → b.left v = a.left v) ∧
        b.state.submitted = a.state.submitted ++ [x] := by
  cases h with
  | @submit s' u func arg rest htodo hs =>
    cases hs with
    | submit hpc =>
      refine Or.inl ⟨fun v => ?_, rfl⟩
      by_cases hv : v = u
      · subst hv
        simp [Program.left, hpc, htodo, SubmitterPc.pending]
      · simp [Program.left, hv]
  | run hl hs =>
    cases hs with
    | submit => cases hl
    | @create u func arg wi hpc _ =>
      refine Or.inl ⟨fun v => ?_, rfl⟩
      by_cases hv : v = u
      · subst hv
        simp [Program.left, hpc, SubmitterPc.pending]
      · simp [Program.left, hv]
    | @put u func arg wi node o worker' hpc _ _ =>
      refine Or.inr ⟨u, ⟨func, arg⟩, ?_, fun v hv => ?_, rfl⟩
      · simp [Program.left, hpc, SubmitterPc.pending]
      · simp [Program.left, hv]
    | wait | get | spurious | leave | start | comeBack | destroy =>
      exact Or.inl ⟨fun _ => rfl, rfl⟩

theorem PStep.items [Fintype S] (h : PStep a l b) : b.items = a.items := by
  obtain ⟨hsame, hsub⟩ | ⟨u, x, hu, hothers, hsub⟩ := h.left
  · simp only [Program.items, hsame, hsub]
  · unfold Program.items
    rw [sum_cons (Finset.mem_univ u) hu hothers, hsub, ← Multiset.coe_add,
      Multiset.coe_singleton, Multiset.add_cons, Multiset.add_assoc, Multiset.singleton_add,
      Multiset.add_cons]

theorem PStep.ahead [Fintype W] [Fintype S] (h : PStep a l b) :
    b.ahead + 1 ≤ a.ahead + if l.isSpurious then 2 else 0 := by
  have hsum := fun (u : S) (pc : SubmitterPc L F A) (todo : S → List (WorkItem F A))
      (ht : ∀ v, v ≠ u → todo v = a.todo v) =>
    sum_move (Finset.mem_univ u)
      (f := fun v => (a.state.submitter v).weight + 8 * (a.todo v).length)
      (g := fun v => (update a.state.submitter u pc v).weight + 8 * (todo v).length)
      fun v hv => by simp only [update_of_ne hv, ht v hv]
  unfold Program.ahead
  cases h with
  | @submit s' u func arg rest htodo hs =>
    cases hs with
    | submit hpc =>
      have hone := hsum u (.submitting func arg) (update a.todo u rest)
        fun v hv => update_of_ne hv _ _
      simp only [update_self, hpc, htodo, List.length_cons, SubmitterPc.weight,
        Label.isSpurious] at hone ⊢
      omega
  | run hl hs =>
    cases hs with
    | submit => cases hl
    | @create u func arg wi hpc _ =>
      have hone := hsum u (.putting wi func arg) a.todo fun _ _ => rfl
      simp only [update_self, hpc, SubmitterPc.weight, Label.isSpurious] at hone ⊢
      omega
    | @put u func arg wi node o worker' hpc _ hsig =>
      have hone := hsum u .idle a.todo fun _ _ => rfl
      have hwake := tally_signal hsig
      simp only [update_self, hpc, SubmitterPc.weight, Label.isSpurious, queuePut,
        List.length_append, List.length_singleton] at hone ⊢
      omega
    | @wait w htests _ =>
      have hmove := tally_update WorkerPc.weight a.state.worker w .blocked
      rw [WorkerPc.weight_of_tests htests] at hmove
      simp only [WorkerPc.weight, Label.isSpurious] at hmove ⊢
      omega
    | @get w item heap' rest htests hget =>
      obtain ⟨node, hnode, _⟩ := queueGet_some hget
      have hmove := tally_update WorkerPc.weight a.state.worker w (.got item)
      have hlen := congrArg List.length hnode
      rw [WorkerPc.weight_of_tests htests] at hmove
      simp only [WorkerPc.weight, Label.isSpurious, List.length_cons] at hmove hlen ⊢
      omega
    | @spurious w hpc =>
      have hmove := tally_update WorkerPc.weight a.state.worker w .woken
      rw [hpc] at hmove
      simp only [WorkerPc.weight, Label.isSpurious, if_true] at hmove ⊢
      omega
    | @leave w hpc =>
      have hmove := tally_update WorkerPc.weight a.state.worker w .ended
      rw [hpc] at hmove
      simp only [WorkerPc.weight, Label.isSpurious] at hmove ⊢
      omega
    | @start w wi item hpc _ =>
      have hmove := tally_update WorkerPc.weight a.state.worker w (.running wi)
      rw [hpc] at hmove
      simp only [WorkerPc.weight, Label.isSpurious] at hmove ⊢
      omega
    | @comeBack w wi hpc =>
      have hmove := tally_update WorkerPc.weight a.state.worker w (.ran wi)
      rw [hpc] at hmove
      simp only [WorkerPc.weight, Label.isSpurious] at hmove ⊢
      omega
    | @destroy w wi hpc _ =>
      have hmove := tally_update WorkerPc.weight a.state.worker w .getting
      rw [hpc] at hmove
      simp only [WorkerPc.weight, Label.isSpurious] at hmove ⊢
      omega

variable [Fintype W] [Fintype S]

omit [DecidableEq S] [DecidableEq L] in
theorem Sound.exists_free [Infinite L] (hi : Sound s) : ∃ a, s.heap a = none := by
  classical
  obtain ⟨a, ha⟩ := Infinite.exists_notMem_finset (s.list.toFinset ∪
    (contents s.heap s.list).reduceOption.toFinset ∪
    Finset.univ.biUnion (fun w => (s.worker w).holds.toFinset) ∪
      Finset.univ.biUnion fun u => (s.submitter u).holds.toFinset)
  refine ⟨a, ?_⟩
  by_contra hlive
  apply ha
  simp only [Finset.mem_union, Finset.mem_biUnion, Finset.mem_univ, true_and, List.mem_toFinset]
  obtain hitem | hnode := workItems_or_nodes hlive
  · obtain ⟨k, hk⟩ := hi.items.custody.kept hitem
    cases k with
    | queue => exact Or.inl (Or.inl (Or.inr hk))
    | worker w => exact Or.inl (Or.inr ⟨w, hk⟩)
    | submitter u => exact Or.inr ⟨u, hk⟩
  · obtain ⟨_, hin⟩ := hi.nodes.kept hnode
    exact Or.inl (Or.inl (Or.inl hin))

omit [Fintype W] [Fintype S] in
theorem exists_work (hi : Sound s) {w : W} (hw : (s.worker w).isBlocked ≠ 1) :
    ∃ l s', Step s l s' ∧ l.isSubmit = false ∧ l.isSpurious = false := by
  have halive := (hi.items.worker w).alive
  have hlive : ∀ wi, wi ∈ (s.worker w).holds → ∃ item, s.heap wi = some (.workItem item) :=
    fun wi hwi => hi.live (k := .worker w) hwi
  have htest : (s.worker w).tests = true →
      ∃ l s', Step s l s' ∧ l.isSubmit = false ∧ l.isSpurious = false := by
    intro htests
    cases hlist : s.list with
    | nil => exact ⟨_, _, Step.wait htests hlist, rfl, rfl⟩
    | cons node rest =>
      have hnode := hi.nodes.live (k := ()) (hlist ▸ List.mem_cons_self)
      obtain ⟨item, hitem⟩ := Option.ne_none_iff_exists'.mp hnode
      have hget := queueGet_node (nodes_eq_some.mp hitem) rest
      exact ⟨_, _, Step.get htests (hlist ▸ hget), rfl, rfl⟩
  cases hpc : s.worker w with
  | getting | woken => exact htest (by rw [hpc]; rfl)
  | blocked => exact absurd (by rw [hpc]; rfl) hw
  | got item =>
    cases item with
    | none => exact absurd hpc halive.2
    | some wi =>
      obtain ⟨item, hitem⟩ := hlive wi (by rw [hpc]; exact List.mem_singleton_self wi)
      exact ⟨_, _, Step.start hpc hitem, rfl, rfl⟩
  | running wi => exact ⟨_, _, Step.comeBack hpc, rfl, rfl⟩
  | ran wi =>
    obtain ⟨item, hitem⟩ := hlive wi (by rw [hpc]; exact List.mem_singleton_self wi)
    exact ⟨_, _, Step.destroy hpc (by rw [hitem]; simp), rfl, rfl⟩
  | ended => exact absurd hpc halive.1

theorem exists_submit [Infinite L] (hi : Sound a.state) {u : S} (hu : a.left u ≠ []) :
    ∃ l b, PStep a l b ∧ l.isSpurious = false := by
  cases hpc : a.state.submitter u with
  | idle =>
    cases htodo : a.todo u with
    | nil => exact absurd (by simp [Program.left, hpc, htodo, SubmitterPc.pending]) hu
    | cons wi rest => exact ⟨_, _, PStep.submit htodo (Step.submit hpc), rfl⟩
  | submitting func arg =>
    obtain ⟨wi, hwi⟩ := hi.exists_free
    exact ⟨_, _, PStep.run rfl (Step.create hpc hwi), rfl⟩
  | putting wi func arg =>
    obtain ⟨node, hnode⟩ := hi.exists_free
    obtain ⟨o, worker', hsig⟩ := exists_signal WorkerPc.wake a.state.worker
    exact ⟨_, _, PStep.run rfl (Step.put hpc hnode hsig), rfl⟩

structure Program.Inv (items : Multiset (WorkItem F A)) (a : Program W S L F A) : Prop where
  sound : Sound a.state
  covered : Covered a.state.worker a.state.list
  items : a.items = items

theorem exists_step [Infinite L] [Nonempty W] {items : Multiset (WorkItem F A)}
    (hi : a.Inv items) (hnot : ¬ a.AtRest) : ∃ l b, PStep a l b ∧ l.isSpurious = false := by
  by_cases hu : ∀ u, a.left u = []
  · by_cases hw : ∀ w, (a.state.worker w).isBlocked = 1
    · -- all wait, and nobody was woken: then nothing is in the queue
      refine absurd ⟨hu, ?_, hw⟩ hnot
      obtain ⟨w⟩ := ‹Nonempty W›
      have hblocked := le_tally WorkerPc.isBlocked a.state.worker w
      rw [hw w] at hblocked
      have hempty := hi.covered.empty hblocked (tally_eq_zero.mpr fun _ => rfl) ?_
      · exact List.length_eq_zero_iff.mp hempty
      · refine tally_eq_zero.mpr fun v => ?_
        have hv := hw v
        cases hpc : a.state.worker v <;> rw [hpc] at hv <;> cases hv
        rfl
    · obtain ⟨w, hw⟩ := not_forall.mp hw
      obtain ⟨l, s', hstep, hsubmit, hspurious⟩ := exists_work hi.sound hw
      exact ⟨l, _, PStep.run hsubmit hstep, hspurious⟩
  · obtain ⟨u, hu⟩ := not_forall.mp hu
    exact exists_submit hi.sound hu

omit [DecidableEq S] [DecidableEq L] [Fintype W] in
theorem started_at_rest (hi : Sound a.state) (hrest : a.AtRest) :
    ((a.state.started.map Prod.snd : List (WorkItem F A)) : Multiset (WorkItem F A)) =
      a.items := by
  have hqueue := hi.items.queue
  rw [QueueOk, hrest.queue, contents, List.map_nil, List.map_nil] at hqueue
  have hdrop := List.map_eq_nil_iff.mp hqueue.symm
  rw [List.drop_eq_nil_iff] at hdrop
  have hperm : a.state.started.Perm (a.state.taken.zip a.state.submitted) := by
    apply perm_of_entries
    intro w
    have hcalls := (hi.items.worker w).calls
    have hblocked := hrest.workers w
    cases hpc : a.state.worker w <;> rw [hpc] at hblocked <;> cases hblocked
    rw [hpc] at hcalls
    exact (List.append_nil _).symm.trans hcalls
  have hleft : ∀ u, (a.left u : Multiset (WorkItem F A)) = 0 := by
    intro u
    rw [hrest.submitters u]
    rfl
  rw [Program.items, Finset.sum_eq_zero fun u _ => hleft u, add_zero, Multiset.coe_eq_coe]
  have hsubmitted := hperm.map Prod.snd
  rwa [List.map_snd_zip hdrop] at hsubmitted

omit [DecidableEq S] [DecidableEq L] [Fintype W] [Fintype S] in
theorem heap_at_rest (hi : Sound a.state) (hrest : a.AtRest) (b : L) :
    a.state.heap b = none := by
  by_contra hlive
  obtain hitem | hnode := workItems_or_nodes hlive
  · obtain ⟨k, hk⟩ := hi.items.custody.kept hitem
    cases k with
    | queue =>
      simp only [held, hrest.queue, contents, List.map_nil, List.reduceOption_nil] at hk
      cases hk
    | worker w =>
      have hblocked := hrest.workers w
      cases hpc : a.state.worker w <;> rw [hpc] at hblocked <;> cases hblocked
      simp only [held, hpc] at hk
      cases hk
    | submitter u =>
      have hleft := hrest.submitters u
      simp only [held] at hk
      cases hpc : a.state.submitter u with
      | idle | submitting =>
        rw [hpc] at hk
        cases hk
      | putting => simp [Program.left, hpc, SubmitterPc.pending] at hleft
  · obtain ⟨_, hin⟩ := hi.nodes.kept hnode
    rw [hrest.queue] at hin
    cases hin

omit [DecidableEq S] [DecidableEq L] in
theorem Program.Inv.init (script : S → List (WorkItem F A)) :
    (Program.mk (tpInit : State W S L F A) script).Inv
      (Finset.univ.sum fun u => (script u : Multiset (WorkItem F A))) := by
  refine ⟨Sound.init, fun hb => ?_, ?_⟩
  · exact absurd (tally_eq_zero.mpr fun _ => rfl) (Nat.pos_iff_ne_zero.mp hb)
  · exact zero_add _

theorem PStep.inv {items : Multiset (WorkItem F A)} (h : PStep a l b) (hi : a.Inv items) :
    b.Inv items :=
  ⟨h.step.sound hi.sound, h.step.covered hi.covered, h.items.trans hi.items⟩

/-- Threads submit a number of items each to the pool, in any order of their steps and those of
the workers and with any spurious wakeups: the pool comes to rest with all items submitted called,
each as often as it was submitted, and with all blocks freed, those of work items and of nodes. -/
theorem pool_returns [Infinite L] [Nonempty W] (script : S → List (WorkItem F A)) :
    Returns PStep (Program.mk (tpInit : State W S L F A) script) Label.isSpurious Program.result
      (Finset.univ.sum fun u => (script u : Multiset (WorkItem F A))) ∧
    ∀ ls (a : Program W S L F A), Runs PStep (Program.mk tpInit script) ls a → a.AtRest →
      ∀ b, a.state.heap b = none := by
  have hinit := Program.Inv.init (W := W) (L := L) script
  refine ⟨?_, ?_⟩
  · apply Returns.of_invariant (c := 2) hinit
    · intro a l b hi hstep
      exact hstep.inv hi
    · intro a x hi hx
      unfold Program.result at hx
      split at hx
      · rename_i hrest
        rw [← Option.some.inj hx, started_at_rest hi.sound hrest, hi.items]
      · cases hx
    · intro a hi hnone
      have hnot : ¬ a.AtRest := by
        intro hrest
        rw [Program.result, if_pos hrest] at hnone
        cases hnone
      obtain ⟨l, b, hstep, hl⟩ := exists_step hi hnot
      exact ⟨l, b, hstep, hl⟩
    · intro a l b hstep
      exact hstep.ahead
  · intro ls a hrun hrest
    have hi := hrun.invariant hinit fun a l b hi hstep => hstep.inv hi
    exact heap_at_rest hi.sound hrest

end Programs

/-- Two threads submit three items to a pool of one worker. -/
theorem pool_returns_three :
    Returns PStep (Program.mk (tpInit : State Unit Bool Nat Bool Nat)
        fun u => if u then [⟨true, 1⟩] else [⟨true, 1⟩, ⟨false, 2⟩])
      Label.isSpurious Program.result {⟨true, 1⟩, ⟨true, 1⟩, ⟨false, 2⟩} := by
  have h := (pool_returns (W := Unit) (L := Nat) fun u : Bool =>
    if u then [WorkItem.mk true 1] else [⟨true, 1⟩, ⟨false, 2⟩]).1
  have hsum : (Finset.univ.sum fun u : Bool => ((if u then [WorkItem.mk true 1] else
      [⟨true, 1⟩, ⟨false, 2⟩] : List (WorkItem Bool Nat)) : Multiset (WorkItem Bool Nat))) =
      {⟨true, 1⟩, ⟨true, 1⟩, ⟨false, 2⟩} := by decide
  rwa [hsum] at h

end OsCourse.QueuePool
