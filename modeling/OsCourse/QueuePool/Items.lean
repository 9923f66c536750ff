import Mathlib.Data.List.ReduceOption
import OsCourse.Lib.Custody
import OsCourse.Lib.History
import OsCourse.QueuePool.Model

/-! What becomes of the work items and the nodes: who has each block, and what each worker
calls. -/
namespace OsCourse.QueuePool
open Alloc Function History Transition Wakeup
variable {W S L F A : Type*}

section Blocks
variable {heap : L → Option (Block L F A)} {a : L}

def workItems (heap : L → Option (Block L F A)) (a : L) : Option (WorkItem F A) :=
  (heap a).bind Block.workItem?

def nodes (heap : L → Option (Block L F A)) (a : L) : Option (Option L) :=
  (heap a).bind Block.node?

theorem workItems_eq_some {wi : WorkItem F A} :
    workItems heap a = some wi ↔ heap a = some (.workItem wi) := by
  unfold workItems
  cases heap a with
  | none => simp
  | some b => cases b <;> simp [Block.workItem?]

theorem nodes_eq_some {item : Option L} :
    nodes heap a = some item ↔ heap a = some (.node item) := by
  unfold nodes
  cases heap a with
  | none => simp
  | some b => cases b <;> simp [Block.node?]

theorem workItems_or_nodes (h : heap a ≠ none) : workItems heap a ≠ none ∨ nodes heap a ≠ none := by
  unfold workItems nodes
  cases hb : heap a with
  | none => exact absurd hb h
  | some b => cases b <;> simp [Block.workItem?, Block.node?]

variable [DecidableEq L]

theorem bind_update {V X : Type*} (f : V → Option X) (heap : L → Option V) (a : L) (o : Option V) :
    (fun b => (update heap a o b).bind f) = update (fun b => (heap b).bind f) a (o.bind f) := by
  funext b
  by_cases hb : b = a
  · rw [hb, update_self, update_self]
  · rw [update_of_ne hb, update_of_ne hb]

/-- A block of one kind is nothing among those of the other. -/
theorem bind_update_same {V X : Type*} {f : V → Option X} {heap : L → Option V} {a : L}
    {o : Option V} (h : o.bind f = (heap a).bind f) :
    (fun b => (update heap a o b).bind f) = fun b => (heap b).bind f := by
  rw [bind_update, h]
  exact update_eq_self a fun b => (heap b).bind f

theorem workItems_createWi (heap : L → Option (Block L F A)) (wi : L) (func : F) (arg : A) :
    workItems (createWi heap wi func arg) = update (workItems heap) wi (some ⟨func, arg⟩) :=
  bind_update Block.workItem? heap wi _

theorem nodes_createWi (h : heap a = none) (func : F) (arg : A) :
    nodes (createWi heap a func arg) = nodes heap := by
  apply bind_update_same
  rw [h]
  rfl

theorem workItems_destroyWi (heap : L → Option (Block L F A)) (wi : L) :
    workItems (destroyWi heap wi) = update (workItems heap) wi none :=
  bind_update Block.workItem? heap wi _

theorem nodes_destroyWi {wi : WorkItem F A} (h : heap a = some (.workItem wi)) :
    nodes (destroyWi heap a) = nodes heap := by
  apply bind_update_same
  rw [h]
  rfl

theorem workItems_createNode (h : heap a = none) (item : Option L) :
    workItems (createNode heap a item) = workItems heap := by
  apply bind_update_same
  rw [h]
  rfl

theorem nodes_createNode (heap : L → Option (Block L F A)) (node : L) (item : Option L) :
    nodes (createNode heap node item) = update (nodes heap) node (some item) :=
  bind_update Block.node? heap node _

theorem workItems_destroyNode {item : Option L} (h : heap a = some (.node item)) :
    workItems (destroyNode heap a) = workItems heap := by
  apply bind_update_same
  rw [h]
  rfl

theorem nodes_destroyNode (heap : L → Option (Block L F A)) (node : L) :
    nodes (destroyNode heap node) = update (nodes heap) node none :=
  bind_update Block.node? heap node _

end Blocks

inductive Holder (W S : Type*) where
  | queue
  | worker (w : W)
  | submitter (u : S)
  deriving DecidableEq

def WorkerPc.holds : WorkerPc L → List L
  | .got (some wi) | .running wi | .ran wi => [wi]
  | _ => []

def SubmitterPc.holds : SubmitterPc L F A → List L
  | .putting wi _ _ => [wi]
  | _ => []

def contents (heap : L → Option (Block L F A)) (list : List L) : List (Option L) :=
  list.map fun node => (nodes heap node).join

def held (list : List (Option L)) (worker : W → WorkerPc L)
    (submitter : S → SubmitterPc L F A) : Holder W S → List L
  | .queue => list.reduceOption
  | .worker w => (worker w).holds
  | .submitter u => (submitter u).holds

def WorkerPc.uncalled (heap : L → Option (WorkItem F A)) : WorkerPc L → List (WorkItem F A)
  | .got (some wi) => (heap wi).toList
  | _ => []

def WorkerPc.calling : WorkerPc L → Option L
  | .running wi | .ran wi => some wi
  | _ => none

/-- The queue points to the items that nobody has taken, in the order of their submission. -/
def QueueOk (heap : L → Option (WorkItem F A)) (list : List (Option L))
    (submitted : List (WorkItem F A)) (taken : List W) : Prop :=
  list.map (fun item => item.bind heap) = (submitted.drop taken.length).map some

/-- A worker has called what it was handed, in this order, but for the item it is about to call,
and what it has called last is what its block says. -/
structure WorkerOk (heap : L → Option (WorkItem F A)) (pc : WorkerPc L)
    (called handed : List (WorkItem F A)) : Prop where
  alive : pc ≠ .ended ∧ pc ≠ .got none
  calls : called ++ pc.uncalled heap = handed
  last : ∀ wi, pc.calling = some wi → called.getLast? = heap wi

def SubmitterOk (heap : L → Option (WorkItem F A)) (pc : SubmitterPc L F A) : Prop :=
  ∀ wi func arg, pc = .putting wi func arg → heap wi = some ⟨func, arg⟩

/-- The items that worker `w` took, in this order: the first submitted is the first taken. -/
def State.handed [DecidableEq W] (s : State W S L F A) (w : W) : List (WorkItem F A) :=
  entries w (s.taken.zip s.submitted)

def NodesOk (heap : L → Option (Block L F A)) (list : List L) : Prop :=
  Custody (nodes heap) fun _ : Unit => list

/-- The work items `items` and the queue `queue` of pointers to them are as the rest says. -/
structure ItemsOk [DecidableEq W] (items : L → Option (WorkItem F A)) (queue : List (Option L))
    (s : State W S L F A) : Prop where
  custody : Custody items (held queue s.worker s.submitter)
  queue : QueueOk items queue s.submitted s.taken
  taken_le : s.taken.length ≤ s.submitted.length
  worker : ∀ w, WorkerOk items (s.worker w) (entries w s.started) (s.handed w)
  submitter : ∀ u, SubmitterOk items (s.submitter u)

structure Sound [DecidableEq W] (s : State W S L F A) : Prop where
  nodes : NodesOk s.heap s.list
  items : ItemsOk (workItems s.heap) (contents s.heap s.list) s

section Lists
variable {heap : L → Option (Block L F A)} {list rest : List L} {node : L} {item : Option L}

theorem NodesOk.init : NodesOk (fun _ : L => (none : Option (Block L F A))) [] := Custody.empty

theorem contents_cons (h : heap node = some (.node item)) :
    contents heap (node :: rest) = item :: contents heap rest := by
  rw [contents, List.map_cons, nodes_eq_some.mpr h]
  rfl

variable [DecidableEq L]

theorem update_unit {X : Type*} (x y : X) :
    update (fun _ : Unit => x) () y = fun _ => y := by
  funext u
  exact update_self _ _ _

theorem NodesOk.put (h : NodesOk heap list) (hfree : heap node = none) (item : Option L) :
    NodesOk (createNode heap node item) (list ++ [node]) ∧
      contents (createNode heap node item) (list ++ [node]) = contents heap list ++ [item] := by
  have hnone : nodes heap node = none := by
    rw [nodes, hfree]
    rfl
  constructor
  · have hnew := Custody.malloc h hnone () (x := item)
    rw [update_unit] at hnew
    unfold NodesOk
    rw [nodes_createNode]
    exact hnew
  · unfold contents
    rw [nodes_createNode, List.map_append, List.map_singleton, update_self]
    congr 1
    apply List.map_congr_left
    intro n hn
    rw [update_of_ne]
    rintro rfl
    exact h.live (k := ()) hn hnone

theorem NodesOk.get (h : NodesOk heap (node :: rest)) :
    NodesOk (destroyNode heap node) rest ∧
      contents (destroyNode heap node) rest = contents heap rest := by
  constructor
  · have hrest := Custody.free h (k := ()) rfl
    rw [update_unit] at hrest
    unfold NodesOk
    rw [nodes_destroyNode]
    exact hrest
  · unfold contents
    rw [nodes_destroyNode]
    apply List.map_congr_left
    intro n hn
    rw [update_of_ne]
    rintro rfl
    exact (List.nodup_cons.mp (h.once ())).1 hn

end Lists

section Frames
variable {heap heap' : L → Option (WorkItem F A)} {list : List (Option L)}
  {worker : W → WorkerPc L} {submitter : S → SubmitterPc L F A}

theorem QueueOk.frame {submitted : List (WorkItem F A)} {taken : List W}
    (h : QueueOk heap list submitted taken)
    (hf : ∀ a ∈ list.reduceOption, heap' a = heap a) :
    QueueOk heap' list submitted taken := by
  unfold QueueOk at h ⊢
  rw [← h]
  apply List.map_congr_left
  intro item hitem
  cases item with
  | none => rfl
  | some a => exact hf a (List.reduceOption_mem_iff.mpr hitem)

theorem WorkerOk.frame {pc : WorkerPc L} {called handed : List (WorkItem F A)}
    (h : WorkerOk heap pc called handed) (hf : ∀ a ∈ pc.holds, heap' a = heap a) :
    WorkerOk heap' pc called handed := by
  obtain ⟨halive, hcalls, hlast⟩ := h
  refine ⟨halive, ?_, ?_⟩
  · rw [← hcalls]
    cases pc with
    | got item =>
      cases item with
      | none => rfl
      | some a => simp only [WorkerPc.uncalled, hf a (List.mem_singleton_self a)]
    | getting | blocked | woken | running | ran | ended => rfl
  · intro wi hwi
    rw [hlast wi hwi, hf wi]
    cases pc <;> cases hwi <;> exact List.mem_singleton_self wi

theorem SubmitterOk.frame {pc : SubmitterPc L F A} (h : SubmitterOk heap pc)
    (hf : ∀ a ∈ pc.holds, heap' a = heap a) : SubmitterOk heap' pc := by
  intro wi func arg hpc
  have hold := h wi func arg hpc
  rw [hpc] at hf
  rw [hf wi (List.mem_singleton_self wi), hold]

variable [DecidableEq W] [DecidableEq S]

theorem held_queue (list list' : List (Option L)) : held list' worker submitter =
    update (held list worker submitter) .queue list'.reduceOption := by
  funext k
  cases k with
  | queue => rw [update_self]; rfl
  | worker w => rw [update_of_ne (by simp)]; rfl
  | submitter u => rw [update_of_ne (by simp)]; rfl

theorem held_worker (w : W) (pc : WorkerPc L) : held list (update worker w pc) submitter =
    update (held list worker submitter) (.worker w) pc.holds := by
  funext k
  cases k with
  | queue => rw [update_of_ne (by simp)]; rfl
  | worker w' =>
    by_cases hw : w' = w
    · rw [hw, update_self]
      simp [held]
    · rw [update_of_ne (by simpa using hw)]
      simp [held, hw]
  | submitter u => rw [update_of_ne (by simp)]; rfl

theorem held_submitter (u : S) (pc : SubmitterPc L F A) :
    held list worker (update submitter u pc) =
      update (held list worker submitter) (.submitter u) pc.holds := by
  funext k
  cases k with
  | queue => rw [update_of_ne (by simp)]; rfl
  | worker w => rw [update_of_ne (by simp)]; rfl
  | submitter u' =>
    by_cases hu : u' = u
    · rw [hu, update_self]
      simp [held]
    · rw [update_of_ne (by simpa using hu)]
      simp [held, hu]

theorem held_worker_same {w : W} {pc : WorkerPc L} (h : pc.holds = (worker w).holds) :
    held list (update worker w pc) submitter = held list worker submitter := by
  rw [held_worker, h]
  exact update_eq_self (Holder.worker w) (held list worker submitter)

theorem held_signal {worker' : W → WorkerPc L} {o : Option W}
    (h : Signal WorkerPc.wake worker o worker') :
    held list worker' submitter = held list worker submitter := by
  cases h with
  | nobody => rfl
  | @one w p hp =>
    apply held_worker_same
    cases hpc : worker w <;> rw [hpc] at hp <;> cases hp
    rfl

end Frames

section Orders
variable {X Y : Type*}

theorem zip_snoc_right (xs : List X) (ys : List Y) (y : Y) (h : xs.length ≤ ys.length) :
    xs.zip (ys ++ [y]) = xs.zip ys := by
  induction xs generalizing ys with
  | nil => rfl
  | cons x xs ih =>
    cases ys with
    | nil => exact absurd h (by simp)
    | cons z ys =>
      rw [List.length_cons, List.length_cons] at h
      rw [List.cons_append, List.zip_cons_cons, List.zip_cons_cons, ih ys (by omega)]

theorem zip_snoc_left (xs : List X) (ys : List Y) (x : X) {y : Y} {rest : List Y}
    (h : ys.drop xs.length = y :: rest) : (xs ++ [x]).zip ys = xs.zip ys ++ [(x, y)] := by
  induction xs generalizing ys with
  | nil =>
    rw [List.length_nil, List.drop_zero] at h
    rw [h]
    rfl
  | cons z xs ih =>
    cases ys with
    | nil => simp at h
    | cons y' ys =>
      rw [List.length_cons, List.drop_succ_cons] at h
      rw [List.cons_append, List.zip_cons_cons, List.zip_cons_cons, ih ys h, List.cons_append]

end Orders

section Moves
variable {heap : L → Option (WorkItem F A)} {worker worker' : W → WorkerPc L}
  {called handed : List (WorkItem F A)}

theorem WorkerOk.loop {pc pc' : WorkerPc L} (h : WorkerOk heap pc called handed)
    (hpc : pc.uncalled heap = []) (hpc' : pc' = .getting ∨ pc' = .blocked ∨ pc' = .woken) :
    WorkerOk heap pc' called handed := by
  have hcalls := h.calls
  rw [hpc] at hcalls
  obtain rfl | rfl | rfl := hpc' <;>
    exact ⟨⟨by simp, by simp⟩, hcalls, by intro wi hwi; cases hwi⟩

theorem WorkerOk.signal [DecidableEq W] {o : Option W}
    (h : Signal WorkerPc.wake worker o worker') {w : W}
    (hw : WorkerOk heap (worker w) called handed) : WorkerOk heap (worker' w) called handed := by
  cases h with
  | nobody => exact hw
  | @one v p hp =>
    by_cases hwv : w = v
    · subst hwv
      rw [update_self]
      cases hpc : worker w <;> rw [hpc] at hp <;> cases hp
      rw [hpc] at hw
      exact hw.loop rfl (Or.inr (Or.inr rfl))
    · rw [update_of_ne hwv]
      exact hw

theorem WorkerPc.of_tests (heap : L → Option (WorkItem F A)) {pc : WorkerPc L}
    (h : pc.tests = true) :
    pc.holds = [] ∧ pc.uncalled heap = [] := by
  cases pc <;> cases h <;> exact ⟨rfl, rfl⟩

end Moves

section Invariant
variable {s s' : State W S L F A} {l : Label W S L F A}

theorem others_keep {heap heap' : L → Option (WorkItem F A)} {held : Holder W S → List L}
    {k : Holder W S} {wi : L} (hheap : ∀ a, a ≠ wi → heap' a = heap a)
    (hwi : ∀ j, j ≠ k → wi ∉ held j) (j : Holder W S) (hj : j ≠ k) :
    ∀ a ∈ held j, heap' a = heap a := by
  intro a ha
  apply hheap
  intro he
  exact hwi j hj (he ▸ ha)

variable [DecidableEq W]

theorem Sound.init : Sound (tpInit : State W S L F A) := by
  refine ⟨NodesOk.init, ?_⟩
  refine
  { custody := ?_
    queue := rfl
    taken_le := Nat.le_refl _
    worker := fun w => ⟨⟨by simp [tpInit], by simp [tpInit]⟩, rfl, by intro wi hwi; cases hwi⟩
    submitter := ?_ }
  · have hempty : held ([] : List (Option L)) (fun _ : W => WorkerPc.getting)
        (fun _ : S => (SubmitterPc.idle : SubmitterPc L F A)) = fun _ => [] := by
      funext k
      cases k <;> rfl
    exact hempty ▸ Custody.empty
  · intro u wi func arg hpc
    cases hpc

theorem ItemsOk.first {items : L → Option (WorkItem F A)} {item : Option L}
    {queue : List (Option L)} (hi : ItemsOk items (item :: queue) s) :
    ∃ wi x later, item = some wi ∧ items wi = some x ∧
      s.submitted.drop s.taken.length = x :: later ∧
      queue.map (fun item => item.bind items) = later.map some := by
  have hqueue := hi.queue
  rw [QueueOk, List.map_cons] at hqueue
  cases hdrop : s.submitted.drop s.taken.length with
  | nil =>
    rw [hdrop] at hqueue
    cases hqueue
  | cons x later =>
    rw [hdrop, List.map_cons] at hqueue
    obtain ⟨hhead, hrest⟩ := List.cons.inj hqueue
    obtain ⟨wi, hwi, hx⟩ := Option.bind_eq_some_iff.mp hhead
    exact ⟨wi, x, later, hwi, hx, rfl, hrest⟩

theorem workers_update {heap : L → Option (WorkItem F A)} {worker : W → WorkerPc L}
    {called handed : W → List (WorkItem F A)} {w : W} {pc : WorkerPc L}
    (hself : WorkerOk heap pc (called w) (handed w))
    (hothers : ∀ v, v ≠ w → WorkerOk heap (worker v) (called v) (handed v)) (v : W) :
    WorkerOk heap (update worker w pc v) (called v) (handed v) := by
  by_cases hv : v = w
  · rw [hv, update_self]
    exact hself
  · rw [update_of_ne hv]
    exact hothers v hv

/-- The blocks are a matter of the first two arguments. -/
theorem ItemsOk.goto {items : L → Option (WorkItem F A)} {queue : List (Option L)}
    (hi : ItemsOk items queue s) (heap : L → Option (Block L F A)) (list : List L) :
    ItemsOk items queue { s with heap := heap, list := list } :=
  ⟨hi.custody, hi.queue, hi.taken_le, hi.worker, hi.submitter⟩

theorem Sound.live (hi : Sound s) {k : Holder W S} {wi : L}
    (h : wi ∈ held (contents s.heap s.list) s.worker s.submitter k) :
    ∃ item, s.heap wi = some (.workItem item) := by
  obtain ⟨item, hitem⟩ := Option.ne_none_iff_exists'.mp (hi.items.custody.live h)
  exact ⟨item, workItems_eq_some.mp hitem⟩

section Steps
variable [DecidableEq S]
variable {items : L → Option (WorkItem F A)} {queue : List (Option L)}

theorem ItemsOk.submit (hi : ItemsOk items queue s) {u : S} (hpc : s.submitter u = .idle)
    (func : F) (arg : A) : ItemsOk items queue
      { s with submitter := update s.submitter u (.submitting func arg) } := by
  refine ⟨?_, hi.queue, hi.taken_le, hi.worker, ?_⟩
  · rw [held_submitter]
    have hsame : (SubmitterPc.submitting func arg : SubmitterPc L F A).holds =
        held queue s.worker s.submitter (.submitter u) := by
      simp only [held, hpc]
      rfl
    rw [hsame, update_eq_self]
    exact hi.custody
  · intro v wi func' arg' hv
    obtain ⟨_, he⟩ | ⟨_, hold⟩ := update_cases hv
    · cases he
    · exact hi.submitter v wi func' arg' hold

theorem ItemsOk.put (hi : ItemsOk items queue s) {u : S} {func : F} {arg : A} {wi : L}
    {o : Option W} {worker' : W → WorkerPc L} (hpc : s.submitter u = .putting wi func arg)
    (hsig : Signal WorkerPc.wake s.worker o worker') :
    ItemsOk items (queue ++ [some wi]) { s with
      worker := worker'
      submitter := update s.submitter u .idle
      submitted := s.submitted ++ [⟨func, arg⟩] } := by
  have hhave : held queue s.worker s.submitter (.submitter u) = wi :: [] := by
    simp only [held, hpc]
    rfl
  refine ⟨?_, ?_, ?_, ?_, ?_⟩
  · have hhand := hi.custody.hand hhave (j := .queue) (by simp)
    rw [held_submitter, held_signal hsig, held_queue queue]
    rw [update_comm (by simp)] at hhand
    have hall : (queue ++ [some wi]).reduceOption = queue.reduceOption ++ [wi] :=
      List.reduceOption_append _ _
    rw [hall]
    exact hhand
  · have hcreated := hi.submitter u wi func arg hpc
    have hqueue := hi.queue
    unfold QueueOk at *
    rw [List.map_append, hqueue, List.drop_append_of_le_length hi.taken_le, List.map_append]
    simp [hcreated]
  · rw [List.length_append]
    exact Nat.le_add_right_of_le hi.taken_le
  · intro w
    rw [State.handed, zip_snoc_right _ _ _ hi.taken_le]
    exact (hi.worker w).signal hsig
  · intro v a func' arg' hv
    obtain ⟨_, he⟩ | ⟨_, hold⟩ := update_cases hv
    · cases he
    · exact hi.submitter v a func' arg' hold

theorem ItemsOk.get {item : Option L} (hi : ItemsOk items (item :: queue) s) {w : W}
    (htests : (s.worker w).tests = true) : ItemsOk items queue { s with
      worker := update s.worker w (.got item)
      taken := s.taken ++ [w] } := by
  obtain ⟨hholds, huncalled⟩ := WorkerPc.of_tests items htests
  obtain ⟨wi, x, later, rfl, hx, hdrop, hrest⟩ := hi.first
  have hhave : held (some wi :: queue) s.worker s.submitter .queue = wi :: queue.reduceOption := by
    simp only [held, List.reduceOption_cons_of_some]
  have hzip := zip_snoc_left s.taken s.submitted w hdrop
  refine ⟨?_, ?_, ?_, ?_, hi.submitter⟩
  · have hhand := hi.custody.hand hhave (j := .worker w) (by simp)
    have hnone : held (some wi :: queue) s.worker s.submitter (.worker w) = [] := hholds
    rw [hnone] at hhand
    rw [held_worker, held_queue (some wi :: queue)]
    exact hhand
  · unfold QueueOk
    rw [hrest, List.length_append, List.length_singleton, ← List.drop_drop, hdrop]
    rfl
  · have hlen := congrArg List.length hdrop
    rw [List.length_drop, List.length_cons] at hlen
    rw [List.length_append, List.length_singleton]
    dsimp only
    omega
  · refine workers_update ?_ fun v hv => ?_
    · have hcalls := (hi.worker w).calls
      rw [huncalled, List.append_nil] at hcalls
      refine ⟨⟨by simp, by simp⟩, ?_, by intro a ha; cases ha⟩
      rw [State.handed, hzip, entries_snoc_self, hcalls]
      simp only [WorkerPc.uncalled, hx]
      rfl
    · rw [State.handed, hzip, entries_snoc_ne (Ne.symm hv)]
      exact hi.worker v

theorem ItemsOk.loop (hi : ItemsOk items queue s) {w : W} {pc : WorkerPc L}
    (hholds : (s.worker w).holds = []) (huncalled : (s.worker w).uncalled items = [])
    (hpc : pc = .getting ∨ pc = .blocked ∨ pc = .woken) :
    ItemsOk items queue { s with worker := update s.worker w pc } := by
  refine ⟨?_, hi.queue, hi.taken_le, ?_, hi.submitter⟩
  · have hsame : pc.holds = (s.worker w).holds := by
      rw [hholds]
      obtain rfl | rfl | rfl := hpc <;> rfl
    rw [held_worker_same hsame]
    exact hi.custody
  · exact workers_update ((hi.worker w).loop huncalled hpc) fun v _ => hi.worker v

theorem ItemsOk.start (hi : ItemsOk items queue s) {w : W} {wi : L} {item : WorkItem F A}
    (hpc : s.worker w = .got (some wi)) (hitem : items wi = some item) :
    ItemsOk items queue { s with
      worker := update s.worker w (.running wi)
      started := s.started ++ [(w, item)] } := by
  refine ⟨?_, hi.queue, hi.taken_le, ?_, hi.submitter⟩
  · rw [held_worker_same (by rw [hpc]; rfl)]
    exact hi.custody
  · refine workers_update ?_ fun v hv => ?_
    · have hcalls := (hi.worker w).calls
      rw [hpc, WorkerPc.uncalled, hitem] at hcalls
      refine ⟨⟨by simp, by simp⟩, ?_, ?_⟩
      · have hnone : (WorkerPc.running wi).uncalled items = [] := rfl
        rw [entries_snoc_self, hnone, List.append_nil]
        exact hcalls
      · intro a ha
        cases ha
        rw [entries_snoc_self, List.getLast?_concat, hitem]
    · rw [entries_snoc_ne (Ne.symm hv)]
      exact hi.worker v

theorem ItemsOk.comeBack (hi : ItemsOk items queue s) {w : W} {wi : L}
    (hpc : s.worker w = .running wi) :
    ItemsOk items queue { s with worker := update s.worker w (.ran wi) } := by
  refine ⟨?_, hi.queue, hi.taken_le, ?_, hi.submitter⟩
  · rw [held_worker_same (by rw [hpc]; rfl)]
    exact hi.custody
  · refine workers_update ?_ fun v _ => hi.worker v
    have hw := hi.worker w
    rw [hpc] at hw
    exact ⟨⟨by simp, by simp⟩, hw.calls, hw.last⟩

variable [DecidableEq L]

theorem ItemsOk.create (hi : ItemsOk items queue s) {u : S} {func : F} {arg : A} {wi : L}
    (hpc : s.submitter u = .submitting func arg) (hfree : items wi = none) :
    ItemsOk (update items wi (some ⟨func, arg⟩)) queue
      { s with submitter := update s.submitter u (.putting wi func arg) } := by
  have hothers : ∀ j, j ≠ .submitter u → ∀ a ∈ held queue s.worker s.submitter j,
      update items wi (some ⟨func, arg⟩) a = items a :=
    others_keep (fun a ha => update_of_ne ha _ _) fun j _ hj => hi.custody.live hj hfree
  refine ⟨?_, hi.queue.frame (hothers .queue (by simp)), hi.taken_le, ?_, ?_⟩
  · have hnew := hi.custody.malloc hfree (.submitter u) (x := ⟨func, arg⟩)
    rw [held_submitter]
    simp only [held, hpc, SubmitterPc.holds, List.nil_append] at hnew ⊢
    exact hnew
  · intro w
    exact (hi.worker w).frame (hothers (.worker w) (by simp))
  · intro v a func' arg' hv
    obtain ⟨_, he⟩ | ⟨hne, hold⟩ := update_cases hv
    · cases he
      exact update_self _ _ _
    · exact (hi.submitter v).frame (hothers (.submitter v) (by simpa using hne)) a func' arg' hold

theorem ItemsOk.destroy (hi : ItemsOk items queue s) {w : W} {wi : L}
    (hpc : s.worker w = .ran wi) :
    ItemsOk (update items wi none) queue { s with worker := update s.worker w .getting } := by
  have hhave : held queue s.worker s.submitter (.worker w) = wi :: [] := by
    simp only [held, hpc]
    rfl
  have hothers : ∀ j, j ≠ .worker w → ∀ a ∈ held queue s.worker s.submitter j,
      update items wi none a = items a :=
    others_keep (fun a ha => update_of_ne ha _ _)
      fun j hj hin => hj (hi.custody.apart hin (hhave ▸ List.mem_singleton_self wi))
  refine ⟨?_, hi.queue.frame (hothers .queue (by simp)), hi.taken_le, ?_, ?_⟩
  · rw [held_worker]
    exact hi.custody.free hhave
  · refine workers_update ?_ fun v hv => ?_
    · have hw := hi.worker w
      rw [hpc] at hw
      exact ⟨⟨by simp, by simp⟩, hw.calls, by intro a ha; cases ha⟩
    · exact (hi.worker v).frame (hothers (.worker v) (by simpa using hv))
  · intro u
    exact (hi.submitter u).frame (hothers (.submitter u) (by simp))

theorem Step.sound (h : Step s l s') (hi : Sound s) : Sound s' := by
  cases h with
  | submit hpc => exact ⟨hi.nodes, hi.items.submit hpc _ _⟩
  | @create u func arg wi hpc hfree =>
    have hnodes := nodes_createWi hfree func arg
    have hnone : workItems s.heap wi = none := by
      rw [workItems, hfree]
      rfl
    constructor
    · unfold NodesOk
      rw [hnodes]
      exact hi.nodes
    · rw [workItems_createWi, contents, hnodes]
      exact (hi.items.create hpc hnone).goto _ _
  | put hpc hfree hsig =>
    obtain ⟨hnodes, hqueue⟩ := hi.nodes.put hfree (some _)
    refine ⟨hnodes, ?_⟩
    dsimp only [queuePut]
    rw [hqueue, workItems_createNode hfree]
    exact (hi.items.put hpc hsig).goto _ _
  | @wait w htests _ =>
    obtain ⟨hholds, huncalled⟩ := WorkerPc.of_tests (workItems s.heap) htests
    exact ⟨hi.nodes, hi.items.loop hholds huncalled (Or.inr (Or.inl rfl))⟩
  | get htests hget =>
    obtain ⟨node, hlist, hnode, rfl⟩ := queueGet_some hget
    obtain ⟨hnodes, hqueue⟩ := NodesOk.get (hlist ▸ hi.nodes)
    refine ⟨hnodes, ?_⟩
    have hitems := hi.items
    rw [hlist, contents_cons hnode] at hitems
    rw [hqueue, workItems_destroyNode hnode]
    exact (hitems.get htests).goto _ _
  | spurious hpc =>
    exact ⟨hi.nodes, hi.items.loop (by rw [hpc]; rfl) (by rw [hpc]; rfl) (Or.inr (Or.inr rfl))⟩
  | @leave w hpc => exact absurd hpc (hi.items.worker w).alive.2
  | start hpc hitem => exact ⟨hi.nodes, hi.items.start hpc (workItems_eq_some.mpr hitem)⟩
  | comeBack hpc => exact ⟨hi.nodes, hi.items.comeBack hpc⟩
  | @destroy w wi hpc _ =>
    have hheld : wi ∈ held (contents s.heap s.list) s.worker s.submitter (.worker w) := by
      simp [held, hpc, WorkerPc.holds]
    obtain ⟨item, hitem⟩ := hi.live hheld
    have hnodes := nodes_destroyWi hitem
    constructor
    · unfold NodesOk
      rw [hnodes]
      exact hi.nodes
    · rw [workItems_destroyWi, contents, hnodes]
      exact (hi.items.destroy hpc).goto _ _

end Steps

variable [DecidableEq S] [DecidableEq L]

/-- In every run of the pool the queue points to what nobody has taken, in the order of its
submission, each worker has called what it was handed, in this order and once, and none has ended.
The nodes that are allocated are those of the list, each there once. The work items that somebody
has are live, and each live one is with one of them, once. -/
theorem items_served {ls : List (Label W S L F A)}
    (h : Runs Step (tpInit : State W S L F A) ls s) :
    QueueOk (workItems s.heap) (contents s.heap s.list) s.submitted s.taken ∧
    (∀ w, WorkerOk (workItems s.heap) (s.worker w) (entries w s.started) (s.handed w)) ∧
    (∀ node, node ∈ s.list ↔ ∃ item, s.heap node = some (.node item)) ∧ s.list.Nodup ∧
    (∀ k, ∀ wi ∈ held (contents s.heap s.list) s.worker s.submitter k,
      ∃ item, s.heap wi = some (.workItem item)) ∧
    ∀ wi item, s.heap wi = some (.workItem item) →
      ∃ k, (held (contents s.heap s.list) s.worker s.submitter k).count wi = 1 ∧
        ∀ j, wi ∈ held (contents s.heap s.list) s.worker s.submitter j → j = k := by
  have hi : Sound s := h.invariant Sound.init fun a l b ha hstep => hstep.sound ha
  refine ⟨hi.items.queue, hi.items.worker, ?_, hi.nodes.once (), fun k wi => hi.live, ?_⟩
  · intro node
    constructor
    · intro hnode
      obtain ⟨item, hitem⟩ := Option.ne_none_iff_exists'.mp (hi.nodes.live (k := ()) hnode)
      exact ⟨item, nodes_eq_some.mp hitem⟩
    · rintro ⟨item, hitem⟩
      obtain ⟨_, hnode⟩ := hi.nodes.kept (a := node) (by rw [nodes_eq_some.mpr hitem]; simp)
      exact hnode
  · intro wi item hwi
    have hlive : workItems s.heap wi ≠ none := by
      rw [workItems_eq_some.mpr hwi]
      simp
    obtain ⟨k, hk, hothers⟩ := hi.items.custody.exists_unique hlive
    exact ⟨k, List.count_eq_one_of_mem (hi.items.custody.once k) hk, hothers⟩

end Invariant

/-- The block of the first node is used for the second item, and the one of the first item for
its node. -/
theorem items_served_twice : ∃ (ls : List (Label Unit Unit Nat Bool Nat)) (s : State _ _ _ _ _),
    Runs Step tpInit ls s ∧ s.started = [((), ⟨true, 1⟩)] ∧ s.list = [0] ∧
      s.heap 0 = some (.node (some 1)) ∧ s.heap 1 = some (.workItem ⟨false, 2⟩) ∧
      s.submitted = [⟨true, 1⟩, ⟨false, 2⟩] ∧ s.list.Nodup ∧
      QueueOk (workItems s.heap) (contents s.heap s.list) s.submitted s.taken := by
  have hcreated := ((Runs.nil (tpInit : State Unit Unit Nat Bool Nat)).snoc
    (@Step.submit Unit Unit Nat Bool Nat _ _ _ _ () true 1 rfl)).snoc
    (@Step.create Unit Unit Nat Bool Nat _ _ _ _ () true 1 0 rfl rfl)
  have hput := hcreated.snoc (@Step.put Unit Unit Nat Bool Nat _ _ _ _ () true 1 0 1 none _ rfl rfl
    (Signal.nobody fun _ => rfl))
  have hcalled := (hput.snoc
    (@Step.get Unit Unit Nat Bool Nat _ _ _ _ () (some 0) _ [] rfl rfl)).snoc
    (@Step.start Unit Unit Nat Bool Nat _ _ _ _ () 0 ⟨true, 1⟩ rfl rfl)
  have hfreed := (hcalled.snoc (@Step.comeBack Unit Unit Nat Bool Nat _ _ _ _ () 0 rfl)).snoc
    (@Step.destroy Unit Unit Nat Bool Nat _ _ _ _ () 0 rfl (by decide))
  have hagain := (hfreed.snoc (@Step.submit Unit Unit Nat Bool Nat _ _ _ _ () false 2 rfl)).snoc
    (@Step.create Unit Unit Nat Bool Nat _ _ _ _ () false 2 1 rfl rfl)
  have hrun := hagain.snoc (@Step.put Unit Unit Nat Bool Nat _ _ _ _ () false 2 1 0 none _ rfl rfl
    (Signal.nobody fun _ => rfl))
  obtain ⟨hqueue, _, _, hnodup, _⟩ := items_served hrun
  exact ⟨_, _, hrun, rfl, rfl, rfl, rfl, rfl, hnodup, hqueue⟩

end OsCourse.QueuePool
