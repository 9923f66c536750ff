import OsCourse.Lib.Wakeup

/-! The thread pool over a queue of pointers (tp/tpool.c and tp/queue.c). A section under the
mutex of the queue is one step, the signal inside the one of `queue_put` included. -/
namespace OsCourse.QueuePool
open Function Transition Wakeup

/-- `workitem_t` -/
structure WorkItem (F A : Type*) where
  func : F
  arg : A
  deriving DecidableEq

inductive Block (L F A : Type*) where
  | workItem (wi : WorkItem F A)
  /-- a `node_t` with its item, none for NULL -/
  | node (item : Option L)
  deriving DecidableEq

def Block.workItem? {L F A : Type*} : Block L F A → Option (WorkItem F A)
  | .workItem wi => some wi
  | .node _ => none

def Block.node? {L F A : Type*} : Block L F A → Option (Option L)
  | .workItem _ => none
  | .node item => some item

section Code
variable {F A L : Type*} [DecidableEq L]

/-- `create_wi`, at the block `wi` of `malloc`. -/
def createWi (heap : L → Option (Block L F A)) (wi : L) (func : F) (arg : A) :
    L → Option (Block L F A) := update heap wi (some (.workItem ⟨func, arg⟩))

def destroyWi (heap : L → Option (Block L F A)) (wi : L) : L → Option (Block L F A) :=
  update heap wi none

/-- `create_node`, at the block `node` of `malloc`. -/
def createNode (heap : L → Option (Block L F A)) (node : L) (item : Option L) :
    L → Option (Block L F A) := update heap node (some (.node item))

def destroyNode (heap : L → Option (Block L F A)) (node : L) : L → Option (Block L F A) :=
  update heap node none

/-- `queue_put` under the mutex. -/
def queuePut (heap : L → Option (Block L F A)) (list : List L) (node : L) (item : Option L) :
    (L → Option (Block L F A)) × List L := (createNode heap node item, list ++ [node])

/-- `queue_get` under the mutex: none when it has to wait, and when the first of the list is no
node, where what follows is undefined. -/
def queueGet (heap : L → Option (Block L F A)) (list : List L) :
    Option (Option L × (L → Option (Block L F A)) × List L) :=
  match list with
  | [] => none
  | node :: rest =>
    match heap node with
    | some (.node item) => some (item, destroyNode heap node, rest)
    | _ => none

theorem queueGet_node {heap : L → Option (Block L F A)} {node : L} {item : Option L}
    (h : heap node = some (.node item)) (rest : List L) :
    queueGet heap (node :: rest) = some (item, destroyNode heap node, rest) := by
  simp only [queueGet, h]

theorem queueGet_some {heap heap' : L → Option (Block L F A)} {list rest : List L}
    {item : Option L} (h : queueGet heap list = some (item, heap', rest)) :
    ∃ node, list = node :: rest ∧ heap node = some (.node item) ∧
      heap' = destroyNode heap node := by
  cases list with
  | nil => cases h
  | cons node list =>
    simp only [queueGet] at h
    split at h
    · rename_i hnode
      cases h
      exact ⟨node, rfl, hnode, rfl⟩
    · cases h

end Code

inductive WorkerPc (L : Type*) where
  /-- before the lock of `queue_get` -/
  | getting
  /-- in `pthread_cond_wait` on `hasItems` -/
  | blocked
  | woken
  /-- with what `queue_get` returned, none for NULL -/
  | got (item : Option L)
  | running (item : L)
  /-- `func` has returned, before `destroy_wi` -/
  | ran (item : L)
  | ended
  deriving DecidableEq

inductive SubmitterPc (L F A : Type*) where
  | idle
  /-- before `create_wi` -/
  | submitting (func : F) (arg : A)
  /-- before the lock of `queue_put` -/
  | putting (wi : L) (func : F) (arg : A)
  deriving DecidableEq

def WorkerPc.wake {L : Type*} : WorkerPc L → Option (WorkerPc L)
  | .blocked => some .woken
  | _ => none

def WorkerPc.tests {L : Type*} : WorkerPc L → Bool
  | .getting | .woken => true
  | _ => false

/-- `list` has the nodes of the queue, from the first. `submitted`, `taken` and `started` are
history: what was submitted, in the order of the queue, who removed each of the items, and the
functions called by each worker. -/
structure State (W S L F A : Type*) where
  heap : L → Option (Block L F A)
  list : List L
  worker : W → WorkerPc L
  submitter : S → SubmitterPc L F A
  submitted : List (WorkItem F A)
  taken : List W
  started : List (W × WorkItem F A)

inductive Label (W S L F A : Type*) where
  | submit (u : S) (func : F) (arg : A)
  | create (u : S) (wi : L)
  | put (u : S) (node : L) (woken : Option W)
  | get (w : W)
  | spurious (w : W)
  | leave (w : W)
  | start (w : W)
  | comeBack (w : W)
  | destroy (w : W)

/-- `tp_init`, with a worker for each `w : W`. -/
def tpInit {W S L F A : Type*} : State W S L F A :=
  { heap := fun _ => none
    list := []
    worker := fun _ => .getting
    submitter := fun _ => .idle
    submitted := []
    taken := []
    started := [] }

section Steps
variable {W S L F A : Type*} [DecidableEq W] [DecidableEq S] [DecidableEq L]

inductive Step : State W S L F A → Label W S L F A → State W S L F A → Prop
  | submit {s : State W S L F A} {u : S} {func : F} {arg : A} : s.submitter u = .idle →
      Step s (.submit u func arg)
        { s with submitter := update s.submitter u (.submitting func arg) }
  -- any block that is not in use, also one that was freed before
  | create {s : State W S L F A} {u : S} {func : F} {arg : A} {wi : L} :
      s.submitter u = .submitting func arg → s.heap wi = none →
      Step s (.create u wi) { s with
        heap := createWi s.heap wi func arg
        submitter := update s.submitter u (.putting wi func arg) }
  | put {s : State W S L F A} {u : S} {func : F} {arg : A} {wi node : L} {o : Option W}
      {worker' : W → WorkerPc L} :
      s.submitter u = .putting wi func arg → s.heap node = none →
      Signal WorkerPc.wake s.worker o worker' →
      Step s (.put u node o) { s with
        heap := (queuePut s.heap s.list node (some wi)).1
        list := (queuePut s.heap s.list node (some wi)).2
        worker := worker'
        submitter := update s.submitter u .idle
        submitted := s.submitted ++ [⟨func, arg⟩] }
  | wait {s : State W S L F A} {w : W} : (s.worker w).tests = true → s.list = [] →
      Step s (.get w) { s with worker := update s.worker w .blocked }
  | get {s : State W S L F A} {w : W} {item : Option L} {heap' : L → Option (Block L F A)}
      {rest : List L} :
      (s.worker w).tests = true → queueGet s.heap s.list = some (item, heap', rest) →
      Step s (.get w) { s with
        heap := heap'
        list := rest
        worker := update s.worker w (.got item)
        taken := s.taken ++ [w] }
  | spurious {s : State W S L F A} {w : W} : s.worker w = .blocked →
      Step s (.spurious w) { s with worker := update s.worker w .woken }
  | leave {s : State W S L F A} {w : W} : s.worker w = .got none →
      Step s (.leave w) { s with worker := update s.worker w .ended }
  -- without a live block, what follows is undefined
  | start {s : State W S L F A} {w : W} {wi : L} {item : WorkItem F A} :
      s.worker w = .got (some wi) → s.heap wi = some (.workItem item) →
      Step s (.start w) { s with
        worker := update s.worker w (.running wi)
        started := s.started ++ [(w, item)] }
  | comeBack {s : State W S L F A} {w : W} {wi : L} : s.worker w = .running wi →
      Step s (.comeBack w) { s with worker := update s.worker w (.ran wi) }
  | destroy {s : State W S L F A} {w : W} {wi : L} : s.worker w = .ran wi → s.heap wi ≠ none →
      Step s (.destroy w) { s with
        heap := destroyWi s.heap wi
        worker := update s.worker w .getting }

end Steps

end OsCourse.QueuePool
