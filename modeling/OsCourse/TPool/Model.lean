import OsCourse.Lib.Wakeup

/-! The thread pool (tpool.c): its workers, threads that call `tp_submit` and threads that
call `tp_shutdown`. What a thread does from a lock of the mutex up to its wait or its
unlock is one step, and the unlock, the signal and each destroy are steps of their own. -/
namespace OsCourse.TPool
open Function Transition Wakeup

/-- `work_item_t`: `func` is none for NULL, and `arg` where it is not assigned. -/
structure WorkItem (F A : Type*) where
  func : Option F
  arg : Option A
  deriving DecidableEq

/-- The fields of `tpool_t` that the mutex protects. -/
structure Pool (F A : Type*) where
  nthreads : Int
  remainingThreads : Int
  workQueue : List (WorkItem F A)
  inShutdown : Bool
  shutdownDone : Bool

section Code
variable {F A : Type*}

/-- The poison pill. -/
def pill : WorkItem F A := ⟨none, none⟩

def tpInit1 (poolSize : Int) : Pool F A :=
  { nthreads := poolSize
    remainingThreads := poolSize
    workQueue := []
    inShutdown := false
    shutdownDone := false }

/-- The inner loop of `worker_func`: none when the worker has to wait. -/
def takeWork (p : Pool F A) : Option (WorkItem F A × Pool F A) :=
  match p.workQueue with
  | [] => none
  | wi :: rest => some (wi, { p with workQueue := rest })

/-- The second section of `worker_func`; it broadcasts when the flag is set here. -/
def workerTerminate (p : Pool F A) : Pool F A :=
  let remaining := p.remainingThreads - 1
  if remaining = 0 then { p with remainingThreads := remaining, shutdownDone := true }
  else { p with remainingThreads := remaining }

/-- `tp_submit` under the mutex: none when it turns the task away. -/
def tpSubmit (func : Option F) (arg : A) (p : Pool F A) : Option (Pool F A) :=
  if p.inShutdown then none
  else some { p with workQueue := p.workQueue ++ [⟨func, some arg⟩] }

/-- `tp_shutdown` under the mutex, up to its wait: none when another call came first. -/
def tpShutdown (p : Pool F A) : Option (Pool F A) :=
  if p.inShutdown then none
  else some { p with
    inShutdown := true
    workQueue := p.workQueue ++ List.replicate p.nthreads.toNat pill }

end Code

inductive WorkerPc (F A : Type*) where
  /-- at the first lock of the loop -/
  | top
  /-- in `pthread_cond_wait` on `has_work` -/
  | blocked
  /-- released there, and not yet holding the mutex again -/
  | woken
  /-- an item removed, before the unlock -/
  | took (wi : WorkItem F A)
  | fetched (wi : WorkItem F A)
  | running (wi : WorkItem F A)
  /-- before the unlock of the second section -/
  | leaving
  | exited
  deriving DecidableEq

inductive SubmitterPc (F A : Type*) where
  | idle
  | entering (func : Option F) (arg : A)
  /-- before the unlock of a call that found `in_shutdown` -/
  | rejected
  /-- before the unlock of a call that queued its task -/
  | accepted
  | signalling
  deriving DecidableEq

inductive CloserPc where
  | idle
  | entering
  | refused
  | turnedAway
  /-- in `pthread_cond_wait` on `workers_terminated` -/
  | blocked
  | woken
  /-- `shutdown_done` seen, before the unlock -/
  | leaving
  | freeHasWork
  | freeTerminated
  | freeMutex
  | finished
  deriving DecidableEq

def WorkerPc.holds {F A : Type*} : WorkerPc F A → Bool
  | .took _ | .leaving => true
  | _ => false

def SubmitterPc.holds {F A : Type*} : SubmitterPc F A → Bool
  | .rejected | .accepted => true
  | _ => false

def CloserPc.holds : CloserPc → Bool
  | .refused | .leaving => true
  | _ => false

def WorkerPc.wake {F A : Type*} : WorkerPc F A → Option (WorkerPc F A)
  | .blocked => some .woken
  | _ => none

def CloserPc.wake : CloserPc → Option CloserPc
  | .blocked => some .woken
  | _ => none

def WorkerPc.checks {F A : Type*} : WorkerPc F A → Bool
  | .top | .woken => true
  | _ => false

inductive Party (W S D : Type*) where
  | worker (w : W)
  | submitter (u : S)
  | closer (d : D)
  deriving DecidableEq

/-- What `tp_shutdown` destroys. -/
inductive Obj where
  | mutex
  | hasWork
  | workersTerminated
  deriving DecidableEq

/-- `accepted` is history: the items that `tp_submit` queued, and so are `taken`, `started`
and `returned`: the items that each worker removed, called and came back from. -/
structure State (W S D F A : Type*) where
  pool : Pool F A
  holder : Option (Party W S D)
  worker : W → WorkerPc F A
  submitter : S → SubmitterPc F A
  closer : D → CloserPc
  destroyed : Obj → Bool
  accepted : List (WorkItem F A)
  taken : List (W × WorkItem F A)
  started : List (W × WorkItem F A)
  returned : List (W × WorkItem F A)

inductive Label (W S D F A : Type*) where
  | check (w : W)
  | unlockTaken (w : W)
  | start (w : W)
  | comeBack (w : W)
  | terminate (w : W)
  | unlockLeaving (w : W)
  | spuriousWorker (w : W)
  | submit (u : S) (func : Option F) (arg : A)
  | lockSubmit (u : S)
  | unlockSubmit (u : S)
  | signal (u : S) (w : Option W)
  | shutdown (d : D)
  | lockShutdown (d : D)
  | recheck (d : D)
  | spuriousCloser (d : D)
  | unlockShutdown (d : D)
  | destroy (d : D) (o : Obj)

section Steps
variable {W S D F A : Type*} [DecidableEq W] [DecidableEq S] [DecidableEq D]

/-- The pool that `tp_init1` leaves, with a worker for each `w : W` and no call yet. -/
def init (poolSize : Int) : State W S D F A :=
  { pool := tpInit1 poolSize
    holder := none
    worker := fun _ => .top
    submitter := fun _ => .idle
    closer := fun _ => .idle
    destroyed := fun _ => false
    accepted := []
    taken := []
    started := []
    returned := [] }

inductive Step : State W S D F A → Label W S D F A → State W S D F A → Prop
  | wait {s : State W S D F A} {w : W} : (s.worker w).checks = true → s.holder = none →
      takeWork s.pool = none →
      Step s (.check w) { s with worker := update s.worker w .blocked }
  | take {s : State W S D F A} {w : W} {wi : WorkItem F A} {p : Pool F A} :
      (s.worker w).checks = true → s.holder = none → takeWork s.pool = some (wi, p) →
      Step s (.check w) { s with
        pool := p
        holder := some (.worker w)
        worker := update s.worker w (.took wi)
        taken := s.taken ++ [(w, wi)] }
  | unlockTaken {s : State W S D F A} {w : W} {wi : WorkItem F A} : s.worker w = .took wi →
      Step s (.unlockTaken w) { s with
        holder := none
        worker := update s.worker w (.fetched wi) }
  | start {s : State W S D F A} {w : W} {wi : WorkItem F A} : s.worker w = .fetched wi →
      wi.func ≠ none →
      Step s (.start w) { s with
        worker := update s.worker w (.running wi)
        started := s.started ++ [(w, wi)] }
  | comeBack {s : State W S D F A} {w : W} {wi : WorkItem F A} : s.worker w = .running wi →
      Step s (.comeBack w) { s with
        worker := update s.worker w .top
        returned := s.returned ++ [(w, wi)] }
  | terminate {s : State W S D F A} {w : W} {wi : WorkItem F A} : s.worker w = .fetched wi →
      wi.func = none → s.holder = none →
      Step s (.terminate w) { s with
        pool := workerTerminate s.pool
        holder := some (.worker w)
        worker := update s.worker w .leaving
        closer := if (workerTerminate s.pool).remainingThreads = 0
          then broadcast CloserPc.wake s.closer else s.closer }
  | unlockLeaving {s : State W S D F A} {w : W} : s.worker w = .leaving →
      Step s (.unlockLeaving w) { s with
        holder := none
        worker := update s.worker w .exited }
  | spuriousWorker {s : State W S D F A} {w : W} : s.worker w = .blocked →
      Step s (.spuriousWorker w) { s with worker := update s.worker w .woken }
  | submit {s : State W S D F A} {u : S} {func : Option F} {arg : A} : s.submitter u = .idle →
      Step s (.submit u func arg) { s with
        submitter := update s.submitter u (.entering func arg) }
  | reject {s : State W S D F A} {u : S} {func : Option F} {arg : A} :
      s.submitter u = .entering func arg → s.holder = none → tpSubmit func arg s.pool = none →
      Step s (.lockSubmit u) { s with
        holder := some (.submitter u)
        submitter := update s.submitter u .rejected }
  | accept {s : State W S D F A} {u : S} {func : Option F} {arg : A} {p : Pool F A} :
      s.submitter u = .entering func arg → s.holder = none → tpSubmit func arg s.pool = some p →
      Step s (.lockSubmit u) { s with
        pool := p
        holder := some (.submitter u)
        submitter := update s.submitter u .accepted
        accepted := s.accepted ++ [⟨func, some arg⟩] }
  | unlockRejected {s : State W S D F A} {u : S} : s.submitter u = .rejected →
      Step s (.unlockSubmit u) { s with
        holder := none
        submitter := update s.submitter u .idle }
  | unlockAccepted {s : State W S D F A} {u : S} : s.submitter u = .accepted →
      Step s (.unlockSubmit u) { s with
        holder := none
        submitter := update s.submitter u .signalling }
  | signal {s : State W S D F A} {u : S} {o : Option W} {worker' : W → WorkerPc F A} :
      s.submitter u = .signalling → Signal WorkerPc.wake s.worker o worker' →
      Step s (.signal u o) { s with
        worker := worker'
        submitter := update s.submitter u .idle }
  | shutdown {s : State W S D F A} {d : D} : s.closer d = .idle →
      Step s (.shutdown d) { s with closer := update s.closer d .entering }
  | refuse {s : State W S D F A} {d : D} : s.closer d = .entering → s.holder = none →
      tpShutdown s.pool = none →
      Step s (.lockShutdown d) { s with
        holder := some (.closer d)
        closer := update s.closer d .refused }
  | beginWait {s : State W S D F A} {d : D} {p : Pool F A} : s.closer d = .entering →
      s.holder = none → tpShutdown s.pool = some p → p.shutdownDone = false →
      Step s (.lockShutdown d) { s with
        pool := p
        worker := broadcast WorkerPc.wake s.worker
        closer := update s.closer d .blocked }
  | beginDone {s : State W S D F A} {d : D} {p : Pool F A} : s.closer d = .entering →
      s.holder = none → tpShutdown s.pool = some p → p.shutdownDone = true →
      Step s (.lockShutdown d) { s with
        pool := p
        holder := some (.closer d)
        worker := broadcast WorkerPc.wake s.worker
        closer := update s.closer d .leaving }
  | recheckWait {s : State W S D F A} {d : D} : s.closer d = .woken → s.holder = none →
      s.pool.shutdownDone = false →
      Step s (.recheck d) { s with closer := update s.closer d .blocked }
  | recheckDone {s : State W S D F A} {d : D} : s.closer d = .woken → s.holder = none →
      s.pool.shutdownDone = true →
      Step s (.recheck d) { s with
        holder := some (.closer d)
        closer := update s.closer d .leaving }
  | spuriousCloser {s : State W S D F A} {d : D} : s.closer d = .blocked →
      Step s (.spuriousCloser d) { s with closer := update s.closer d .woken }
  | unlockRefused {s : State W S D F A} {d : D} : s.closer d = .refused →
      Step s (.unlockShutdown d) { s with
        holder := none
        closer := update s.closer d .turnedAway }
  | unlockShutdown {s : State W S D F A} {d : D} : s.closer d = .leaving →
      Step s (.unlockShutdown d) { s with
        holder := none
        closer := update s.closer d .freeHasWork }
  | destroyHasWork {s : State W S D F A} {d : D} : s.closer d = .freeHasWork →
      Step s (.destroy d .hasWork) { s with
        closer := update s.closer d .freeTerminated
        destroyed := update s.destroyed .hasWork true }
  | destroyTerminated {s : State W S D F A} {d : D} : s.closer d = .freeTerminated →
      Step s (.destroy d .workersTerminated) { s with
        closer := update s.closer d .freeMutex
        destroyed := update s.destroyed .workersTerminated true }
  | destroyMutex {s : State W S D F A} {d : D} : s.closer d = .freeMutex →
      Step s (.destroy d .mutex) { s with
        closer := update s.closer d .finished
        destroyed := update s.destroyed .mutex true }

end Steps

end OsCourse.TPool
