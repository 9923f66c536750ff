import Mathlib.Data.Finset.Union
import Mathlib.Data.Fintype.EquivFin
import OsCourse.Lib.Custody
import OsCourse.PoolServer.Model
import OsCourse.TPool.Completion

/-! Each connection of the server with a thread pool is served to its end and closed once, and
the server comes to its end. -/
namespace OsCourse.PoolServer
open Alloc Calls Function Servers Tally Transition Wakeup
variable {W L : Type*} {n : Nat}

section Loop
variable {k : Conn} {m : Chunk} {rest : List Chunk}

/-- A whole message covers what was in the local before. -/
theorem echoLoop_msg (msg msg' : EchoMsg) (reads : List Chunk) (written : List UInt8) :
    echoLoop msg reads written = echoLoop msg' reads written := by
  induction reads generalizing msg msg' written with
  | nil => rfl
  | cons c reads ih =>
    unfold echoLoop
    split
    · rename_i hc
      rw [EchoMsg.fill_full msg hc, EchoMsg.fill_full msg' hc]
      exact ih _ _ _
    · rfl

/-- What is still to come of a connection is what `process_connection` makes of all its reads. -/
def ConnOk (reads : List Chunk) (k : Conn) : Prop :=
  if k.closed then ∀ msg, k = IpChannel.processConnection msg reads
  else ∀ msg, echoLoop msg k.reads k.written = IpChannel.processConnection msg reads

theorem ConnOk.init (reads : List Chunk) : ConnOk reads ⟨reads, [], false⟩ := fun _ => rfl

theorem next_some (h : Conn.next k = some (m, rest)) :
    k.reads = m :: rest ∧ m.bytes.length = maxMsgSize := by
  unfold Conn.next at h
  split at h
  · cases h
  · rename_i c reads hreads
    split at h
    · rename_i hc
      cases h
      exact ⟨hreads, hc⟩
    · cases h

theorem ConnOk.echo {reads : List Chunk} (h : ConnOk reads k) (hopen : k.closed = false)
    (hnext : Conn.next k = some (m, rest)) (msg : EchoMsg) :
    ConnOk reads (Conn.echo k msg m rest) := by
  obtain ⟨hreads, hfull⟩ := next_some hnext
  unfold ConnOk at h ⊢
  simp only [hopen, Bool.false_eq_true, if_false, Conn.echo] at h ⊢
  intro msg'
  rw [← h msg', hreads, EchoMsg.fill_full msg hfull]
  conv_rhs => unfold echoLoop
  rw [if_pos hfull, EchoMsg.fill_full msg' hfull]
  exact echoLoop_msg _ _ _ _

theorem ConnOk.close {reads : List Chunk} (h : ConnOk reads k) (hopen : k.closed = false)
    (hnext : Conn.next k = none) : ConnOk reads (Conn.close k) := by
  unfold ConnOk at h ⊢
  simp only [hopen, Bool.false_eq_true, if_false, Conn.close, if_true] at h ⊢
  intro msg
  rw [← h msg]
  unfold Conn.next at hnext
  split at hnext
  · rename_i hreads
    rw [hreads]
    rfl
  · rename_i c reads hreads
    split at hnext
    · cases hnext
    · rename_i hshort
      rw [hreads]
      unfold echoLoop
      rw [if_neg hshort]
      rfl

end Loop

section Custody

inductive Holder (W : Type*) where
  | main
  | queue
  | worker (w : W)
  deriving DecidableEq

def workerHolds : TPool.WorkerPc Unit L → List L
  | .took wi | .fetched wi | .running wi => wi.arg.toList
  | _ => []

def mainHolds : TPool.SubmitterPc Unit L → List L
  | .entering _ cfd => [cfd]
  | _ => []

def held (p : Pool W L) : Holder W → List L
  | .main => mainHolds (p.submitter ())
  | .queue => p.pool.workQueue.filterMap TPool.WorkItem.arg
  | .worker w => workerHolds (p.worker w)

theorem workerHolds_wake (p q : TPool.WorkerPc Unit L) (h : p.wake = some q) :
    workerHolds q = workerHolds p := by
  cases p <;> cases h
  rfl

theorem workerHolds_of_checks {p : TPool.WorkerPc Unit L} (h : p.checks = true) :
    workerHolds p = [] := by
  cases p with
  | top | woken => rfl
  | blocked | took | fetched | running | leaving | exited => cases h

variable [DecidableEq W]

theorem held_worker {p q : Pool W L} {w : W} {pc : TPool.WorkerPc Unit L}
    (hw : q.worker = update p.worker w pc) (hu : q.submitter = p.submitter)
    (hq : q.pool.workQueue = p.pool.workQueue) :
    held q = update (held p) (.worker w) (workerHolds pc) := by
  funext k
  cases k with
  | main => rw [update_of_ne (by simp)]; simp only [held, hu]
  | queue => rw [update_of_ne (by simp)]; simp only [held, hq]
  | worker v =>
    by_cases hv : v = w
    · rw [hv, update_self]
      simp only [held, hw, update_self]
    · rw [update_of_ne (by simpa using hv)]
      simp only [held, hw, update_of_ne hv]

theorem held_worker_same {p q : Pool W L} {w : W} {pc : TPool.WorkerPc Unit L}
    (hw : q.worker = update p.worker w pc) (hu : q.submitter = p.submitter)
    (hq : q.pool.workQueue = p.pool.workQueue)
    (h : workerHolds pc = workerHolds (p.worker w)) : held q = held p := by
  rw [held_worker hw hu hq, h]
  exact update_eq_self (Holder.worker w) (held p)

omit [DecidableEq W] in
theorem held_congr {p q : Pool W L} (hw : ∀ w, workerHolds (q.worker w) = workerHolds (p.worker w))
    (hu : mainHolds (q.submitter ()) = mainHolds (p.submitter ()))
    (hq : q.pool.workQueue.filterMap TPool.WorkItem.arg =
      p.pool.workQueue.filterMap TPool.WorkItem.arg) : held q = held p := by
  funext k
  cases k with
  | main => exact hu
  | queue => exact hq
  | worker w => exact hw w

variable {p q : Pool W L} {files : L → Option (Fin n)}

theorem custody_worker {w : W} {pc : TPool.WorkerPc Unit L} (hc : Custody files (held p))
    (hw : q.worker = update p.worker w pc) (hu : q.submitter = p.submitter)
    (hq : q.pool.workQueue = p.pool.workQueue)
    (h : workerHolds pc = workerHolds (p.worker w)) : Custody files (held q) :=
  held_worker_same hw hu hq h ▸ hc

omit [DecidableEq W] in
theorem custody_congr (hc : Custody files (held p))
    (hw : ∀ w, workerHolds (q.worker w) = workerHolds (p.worker w))
    (hu : mainHolds (q.submitter ()) = mainHolds (p.submitter ()))
    (hq : q.pool.workQueue.filterMap TPool.WorkItem.arg =
      p.pool.workQueue.filterMap TPool.WorkItem.arg) : Custody files (held q) :=
  held_congr hw hu hq ▸ hc

theorem custody_take {w : W} {wi : TPool.WorkItem Unit L} {rest : List (TPool.WorkItem Unit L)}
    (hc : Custody files (held p)) (hpc : (p.worker w).checks = true)
    (hqueue : p.pool.workQueue = wi :: rest) (hq : q.pool.workQueue = rest)
    (hw : q.worker = update p.worker w (.took wi)) (hu : q.submitter = p.submitter) :
    Custody files (held q) := by
  have hfree : held p (.worker w) = [] := workerHolds_of_checks hpc
  cases harg : wi.arg with
  | none =>
    have hsame : held q = held p := by
      refine held_congr (fun v => ?_) (by rw [hu]) (by rw [hqueue, hq, List.filterMap_cons, harg])
      by_cases hv : v = w
      · rw [hw, hv, update_self]
        exact (congrArg Option.toList harg).trans hfree.symm
      · rw [hw, update_of_ne hv]
    exact hsame ▸ hc
  | some cfd =>
    have hhas : held p .queue = cfd :: rest.filterMap TPool.WorkItem.arg := by
      simp only [held, hqueue, List.filterMap_cons, harg]
    have hmove := hc.hand (j := .worker w) hhas (by simp)
    have hsame : held q = update (update (held p) .queue (rest.filterMap TPool.WorkItem.arg))
        (.worker w) (held p (.worker w) ++ [cfd]) := by
      funext k
      cases k with
      | main =>
        rw [update_of_ne (by simp), update_of_ne (by simp)]
        simp only [held, hu]
      | queue =>
        rw [update_of_ne (by simp), update_self]
        simp only [held, hq]
      | worker v =>
        by_cases hv : v = w
        · rw [hv, update_self, hfree]
          simp only [held, hw, update_self, workerHolds, harg]
          rfl
        · rw [update_of_ne (by simpa using hv), update_of_ne (by simp)]
          simp only [held, hw, update_of_ne hv]
    exact hsame ▸ hmove

theorem custody_accept {func : Option Unit} {cfd : L} (hc : Custody files (held p))
    (hpc : p.submitter () = .entering func cfd)
    (hq : q.pool.workQueue = p.pool.workQueue ++ [⟨func, some cfd⟩])
    (hw : q.worker = p.worker) (hu : q.submitter () = .accepted) : Custody files (held q) := by
  have hhas : held p .main = cfd :: [] := by simp only [held, hpc, mainHolds]
  have hmove := hc.hand (j := .queue) hhas (by simp)
  have hsame : held q = update (update (held p) .main []) .queue (held p .queue ++ [cfd]) := by
    funext k
    cases k with
    | main =>
      rw [update_of_ne (by simp), update_self]
      simp only [held, hu, mainHolds]
    | queue =>
      rw [update_self]
      simp [held, hq, List.filterMap_append]
    | worker v =>
      rw [update_of_ne (by simp), update_of_ne (by simp)]
      simp only [held, hw]
  exact hsame ▸ hmove

variable [Fintype W] {l : TPool.Label W Unit Unit Unit L}

theorem custody_pool (h : TPool.Step p l q) (hl : ofPool l = true)
    (hledger : TPool.Ledger (Fintype.card W) p)
    (hopen : p.submitter () ≠ .idle → p.pool.inShutdown = false)
    (hc : Custody files (held p)) : Custody files (held q) := by
  cases h with
  | submit | shutdown | comeBack => cases hl
  | wait hpc _ _ => exact custody_worker hc rfl rfl rfl (workerHolds_of_checks hpc).symm
  | take hpc _ htake => exact custody_take hc hpc (TPool.takeWork_some htake).1 rfl rfl rfl
  | unlockTaken hpc | start hpc _ | unlockLeaving hpc | spuriousWorker hpc =>
    exact custody_worker hc rfl rfl rfl (by rw [hpc]; rfl)
  | @terminate w wi hpc hnull _ =>
    refine custody_worker hc rfl rfl TPool.workerTerminate_workQueue ?_
    rw [hpc, hledger.carried_pill hpc hnull]
    rfl
  | @reject u func cfd hpc _ hlate =>
    cases u
    have hbusy : p.submitter () ≠ .idle := by
      rw [hpc]
      simp
    rw [TPool.tpSubmit, hopen hbusy] at hlate
    cases hlate
  | @accept u func cfd pool hpc _ hsub =>
    cases u
    have hqueue : pool.workQueue = p.pool.workQueue ++ [⟨func, some cfd⟩] := by
      rw [(TPool.tpSubmit_some hsub).2]
    exact custody_accept hc hpc hqueue rfl (by dsimp only; rw [update_self])
  | @unlockRejected u hpc | @unlockAccepted u hpc =>
    cases u
    refine custody_congr hc (fun _ => rfl) ?_ rfl
    dsimp only
    rw [hpc, update_self]
    rfl
  | @signal u o worker' hpc hsig =>
    cases u
    refine custody_congr hc (hsig.apply workerHolds workerHolds_wake) ?_ rfl
    dsimp only
    rw [hpc, update_self]
    rfl
  | beginWait _ _ hbegin _ | beginDone _ _ hbegin _ =>
    refine custody_congr hc (broadcast_iff workerHolds workerHolds_wake) rfl ?_
    rw [(TPool.tpShutdown_some hbegin).2]
    simp [List.filterMap_append, TPool.pill]
  | refuse | recheckWait | recheckDone | spuriousCloser | unlockRefused | unlockShutdown
  | destroyHasWork | destroyTerminated | destroyMutex => exact hc

end Custody

section Table
variable {files : L → Option (Fin n)} {closed : Fin n → Bool} {accepted : Nat}

/-- The connections accepted and not closed have one descriptor each. -/
structure Table (files : L → Option (Fin n)) (closed : Fin n → Bool) (accepted : Nat) : Prop where
  one : ∀ f f' c, files f = some c → files f' = some c → f = f'
  opened : ∀ f c, files f = some c → c.val < accepted ∧ closed c = false
  found : ∀ c, c.val < accepted → closed c = false → ∃ f, files f = some c
  fresh : ∀ c, accepted ≤ c.val → closed c = false

theorem Table.init : Table (fun _ : L => none) (fun _ : Fin n => false) 0 := by
  refine ⟨?_, ?_, ?_, fun _ _ => rfl⟩
  · intro f f' c h
    cases h
  · intro f c h
    cases h
  · intro c h
    exact absurd h (Nat.not_lt_zero _)

variable [DecidableEq L] {cfd : L} {c : Fin n}

theorem Table.accept (h : Table files closed accepted) (hn : accepted < n)
    (hfree : files cfd = none) :
    Table (update files cfd (some ⟨accepted, hn⟩)) closed (accepted + 1) := by
  have hcases : ∀ f c, update files cfd (some ⟨accepted, hn⟩) f = some c →
      (f = cfd ∧ c.val = accepted) ∨ (f ≠ cfd ∧ files f = some c) := by
    intro f c hf
    obtain ⟨hfc, hc⟩ | hold := update_cases hf
    · cases hc
      exact Or.inl ⟨hfc, rfl⟩
    · exact Or.inr hold
  refine ⟨?_, ?_, ?_, fun c hc => h.fresh c (by omega)⟩
  · intro f f' c hf hf'
    obtain ⟨hfc, hc⟩ | ⟨_, hold⟩ := hcases f c hf
    · obtain ⟨hfc', _⟩ | ⟨_, hold'⟩ := hcases f' c hf'
      · rw [hfc, hfc']
      · have := (h.opened f' c hold').1
        omega
    · obtain ⟨_, hc⟩ | ⟨_, hold'⟩ := hcases f' c hf'
      · have := (h.opened f c hold).1
        omega
      · exact h.one f f' c hold hold'
  · intro f c hf
    obtain ⟨_, hc⟩ | ⟨_, hold⟩ := hcases f c hf
    · exact ⟨by omega, h.fresh c (by omega)⟩
    · obtain ⟨hlt, hopen⟩ := h.opened f c hold
      exact ⟨by omega, hopen⟩
  · intro c hc hopen
    by_cases hlt : c.val < accepted
    · obtain ⟨f, hf⟩ := h.found c hlt hopen
      have hne : f ≠ cfd := by
        intro he
        rw [he, hfree] at hf
        cases hf
      exact ⟨f, (update_of_ne hne _ _).trans hf⟩
    · refine ⟨cfd, (update_self cfd _ _).trans (congrArg some (Fin.ext ?_))⟩
      dsimp only
      omega

theorem Table.close (h : Table files closed accepted) (hopen : files cfd = some c) :
    Table (update files cfd none) (update closed c true) accepted := by
  have hcases : ∀ f d, update files cfd none f = some d → f ≠ cfd ∧ files f = some d := by
    intro f d hf
    obtain ⟨_, hd⟩ | hold := update_cases hf
    · cases hd
    · exact hold
  have hother : ∀ f d, update files cfd none f = some d → d ≠ c := by
    intro f d hf hd
    obtain ⟨hne, hold⟩ := hcases f d hf
    rw [hd] at hold
    exact hne (h.one f cfd c hold hopen)
  refine ⟨?_, ?_, ?_, ?_⟩
  · intro f f' d hf hf'
    exact h.one f f' d (hcases f d hf).2 (hcases f' d hf').2
  · intro f d hf
    rw [update_of_ne (hother f d hf)]
    exact h.opened f d (hcases f d hf).2
  · intro d hd hlive
    have hdc : d ≠ c := by
      intro he
      rw [he, update_self] at hlive
      cases hlive
    rw [update_of_ne hdc] at hlive
    obtain ⟨f, hf⟩ := h.found d hd hlive
    have hne : f ≠ cfd := by
      intro he
      rw [he, hopen] at hf
      exact hdc (Option.some.inj hf).symm
    exact ⟨f, (update_of_ne hne _ _).trans hf⟩
  · intro d hd
    have hdc : d ≠ c := by
      intro he
      have := (h.opened cfd c hopen).1
      rw [he] at hd
      omega
    rw [update_of_ne hdc]
    exact h.fresh d hd

end Table

section Main
variable [DecidableEq W] {p q : Pool W L} {l : TPool.Label W Unit Unit Unit L}

theorem idle_stays (h : TPool.Step p l q) (hl : ofPool l = true) :
    (p.closer () = .idle → q.closer () = .idle) ∧
      (p.submitter () = .idle → q.submitter () = .idle) := by
  cases h with
  | submit | shutdown | comeBack => cases hl
  | wait | take | unlockTaken | start | unlockLeaving | spuriousWorker => exact ⟨id, id⟩
  | terminate =>
    refine ⟨fun hidle => ?_, id⟩
    dsimp only
    split_ifs
    · rw [broadcast_of_none (by rw [hidle]; rfl), hidle]
    · exact hidle
  | @reject u _ _ hpc _ _ | @accept u _ _ _ hpc _ _ | @unlockRejected u hpc
  | @unlockAccepted u hpc | @signal u _ _ hpc _ =>
    cases u
    refine ⟨id, fun hidle => ?_⟩
    rw [hpc] at hidle
    cases hidle
  | @refuse d hpc _ _ | @beginWait d _ hpc _ _ _ | @beginDone d _ hpc _ _ _
  | @recheckWait d hpc _ _ | @recheckDone d hpc _ _ | @spuriousCloser d hpc
  | @unlockRefused d hpc | @unlockShutdown d hpc | @destroyHasWork d hpc
  | @destroyTerminated d hpc | @destroyMutex d hpc =>
    cases d
    refine ⟨fun hidle => ?_, id⟩
    rw [hpc] at hidle
    cases hidle

theorem args_step (h : TPool.Step p l q) (hi : ∀ wi ∈ p.accepted, wi.arg ≠ none) :
    ∀ wi ∈ q.accepted, wi.arg ≠ none := by
  cases h with
  | accept =>
    intro wi hwi
    cases List.mem_append.mp hwi with
    | inl hold => exact hi wi hold
    | inr hnew =>
      rw [List.mem_singleton.mp hnew]
      exact Option.some_ne_none _
  | _ => exact hi

theorem running_accepted [Fintype W] (h : TPool.Ledger (Fintype.card W) p) {w : W}
    {wi : TPool.WorkItem Unit L} (hpc : p.worker w = .running wi) : wi ∈ p.accepted := by
  have hcarries := h.carries w
  have hstarted : wi ∈ History.entries w p.started := by
    rw [hcarries.call, hpc]
    exact List.mem_append_right _ (List.mem_singleton_self wi)
  have htaken : wi ∈ History.entries w p.taken := by
    rw [hcarries.carry]
    exact List.mem_append_left _ hstarted
  have hmem : wi ∈ p.accepted ++ TPool.pills (Fintype.card W) p.pool.inShutdown := by
    rw [← h.queue]
    exact List.mem_append_left _ (History.mem_of_mem_entries htaken)
  cases List.mem_append.mp hmem with
  | inl hacc => exact hacc
  | inr hpill =>
    have hreal := hcarries.real wi hstarted
    rw [List.eq_of_mem_replicate hpill] at hreal
    exact absurd rfl hreal

end Main

section Runs
variable [DecidableEq W] [Fintype W] {reads : Fin n → List Chunk} {s s' : State W L n}
  {l : Label W L}

structure Inv (reads : Fin n → List Chunk) (s : State W L n) : Prop where
  kept : TPool.Kept s.pool
  sound : TPool.Sound s.pool
  settled : TPool.Settled s.pool
  custody : Custody s.files (held s.pool)
  args : ∀ wi ∈ s.pool.accepted, wi.arg ≠ none
  main : s.pool.closer () ≠ .idle → s.accepted = n ∧ s.pool.submitter () = .idle
  le : s.accepted ≤ n
  table : Table s.files (fun c => (s.conn c).closed) s.accepted
  conn : ∀ c, ConnOk (reads c) (s.conn c)

theorem Inv.init [Nonempty W] (reads : Fin n → List Chunk) (msg : W → EchoMsg) :
    Inv reads (init reads msg : State W L n) := by
  refine ⟨TPool.init_kept, TPool.init_sound, ⟨?_, ?_⟩, ?_, ?_, ?_, Nat.zero_le n, Table.init,
    fun c => ConnOk.init _⟩
  · intro h
    cases h
  · intro h
    cases h
  · have hnone : held (PoolServer.init reads msg : State W L n).pool = fun _ => [] := by
      funext k
      cases k <;> rfl
    rw [hnone]
    exact Custody.empty
  · intro wi h
    cases h
  · intro h
    exact absurd rfl h

theorem Inv.not_destroyed (hi : Inv reads s) (hidle : s.pool.closer () = .idle) (o : TPool.Obj) :
    s.pool.destroyed o = false := by
  rw [hi.sound.closed.flags, hidle]
  rfl

theorem Inv.not_shut (hi : Inv reads s) (hbusy : s.pool.submitter () ≠ .idle) :
    s.pool.pool.inShutdown = false := by
  by_contra hshut
  obtain ⟨d, hd⟩ := hi.kept.caller (by simpa using hshut)
  have hclosing : s.pool.closer () ≠ .idle := by
    intro hidle
    cases d
    rw [hidle] at hd
    cases hd
  exact hbusy (hi.main hclosing).2

theorem Inv.of_pool {q : Pool W L} {lp : TPool.Label W Unit Unit Unit L} (hi : Inv reads s)
    (h : TPool.Step s.pool lp q) (hfunc : lp.HasFunc) (horderly : TPool.Orderly s.pool lp) :
    TPool.Kept q ∧ TPool.Sound q ∧ TPool.Settled q ∧ ∀ wi ∈ q.accepted, wi.arg ≠ none :=
  ⟨h.kept hfunc hi.kept, h.sound hi.sound, h.settled horderly hi.sound hi.settled,
    args_step h hi.args⟩

/-- The objects of the pool are destroyed after the last call of `tp_submit`. -/
theorem Inv.orderly (hi : Inv reads s) {q : Pool W L} {lp : TPool.Label W Unit Unit Unit L}
    (h : TPool.Step s.pool lp q) (hl : ofPool lp = true) : TPool.Orderly s.pool lp := by
  cases h with
  | submit => cases hl
  | @destroyHasWork d hpc | @destroyMutex d hpc =>
    cases d
    have hidle := (hi.main (by rw [hpc]; simp)).2
    simp [TPool.Orderly, hidle]
  | _ => trivial

variable [DecidableEq L]

theorem Step.inv (h : Step s l s') (hi : Inv reads s) : Inv reads s' := by
  cases h with
  | @accept cfd p hn hfree hs =>
    have hidle : s.pool.closer () = .idle := by
      by_contra hclosing
      have := (hi.main hclosing).1
      omega
    obtain ⟨hkept, hsound, hsettled, hargs⟩ := hi.of_pool hs (Option.some_ne_none ())
      (hi.not_destroyed hidle .mutex)
    cases hs with
    | submit hpc =>
      refine ⟨hkept, hsound, hsettled, ?_, hargs, fun hclosing => absurd hidle hclosing,
        by dsimp only; omega, hi.table.accept hn hfree, hi.conn⟩
      have hheld : ∀ k, held { s.pool with
          submitter := update s.pool.submitter () (.entering (some ()) cfd) } k =
          update (held s.pool) .main (held s.pool .main ++ [cfd]) k := by
        intro k
        cases k with
        | main =>
          rw [update_self]
          simp only [held, update_self, hpc, mainHolds, List.nil_append]
        | queue => rw [update_of_ne (by simp)]; rfl
        | worker w => rw [update_of_ne (by simp)]; rfl
      rw [show held _ = _ from funext hheld]
      exact hi.custody.malloc hfree .main
  | acceptFails hn hsub hs =>
    obtain ⟨hkept, hsound, hsettled, hargs⟩ := hi.of_pool hs trivial trivial
    cases hs with
    | shutdown hpc =>
      exact ⟨hkept, hsound, hsettled, hi.custody, hargs, fun _ => ⟨hn, hsub⟩, hi.le, hi.table,
        hi.conn⟩
  | @echo w func cfd c m rest hpc hfile hnext =>
    have hopen := (hi.table.opened cfd c hfile).2
    have hclosed : (fun d => (update s.conn c (Conn.echo (s.conn c) (s.msg w) m rest) d).closed) =
        fun d => (s.conn d).closed := by
      funext d
      by_cases hd : d = c
      · rw [hd, update_self]
        rfl
      · rw [update_of_ne hd]
    refine ⟨hi.kept, hi.sound, hi.settled, hi.custody, hi.args, hi.main, hi.le, ?_, ?_⟩
    · dsimp only
      rw [hclosed]
      exact hi.table
    · rw [forall_update_iff s.conn fun d k => ConnOk (reads d) k]
      exact ⟨(hi.conn c).echo hopen hnext _, fun d _ => hi.conn d⟩
  | @hangUp w func cfd c p hpc hfile hnext hs =>
    have hopen := (hi.table.opened cfd c hfile).2
    have hclosed : (fun d => (update s.conn c (Conn.close (s.conn c)) d).closed) =
        update (fun d => (s.conn d).closed) c true := by
      funext d
      by_cases hd : d = c
      · rw [hd, update_self, update_self]
        rfl
      · rw [update_of_ne hd, update_of_ne hd]
    obtain ⟨hkept, hsound, hsettled, hargs⟩ := hi.of_pool hs trivial trivial
    cases hs with
    | comeBack hrun =>
      refine ⟨hkept, hsound, hsettled, ?_, hargs, hi.main, hi.le, ?_, ?_⟩
      · have hhas : held s.pool (.worker w) = [cfd] := by
          simp only [held, hpc, workerHolds, Option.toList]
        rw [held_worker (q := { s.pool with worker := update s.pool.worker w .top, returned := _ })
          rfl rfl rfl]
        exact hi.custody.free hhas
      · dsimp only
        rw [hclosed]
        exact hi.table.close hfile
      · rw [forall_update_iff s.conn fun d k => ConnOk (reads d) k]
        exact ⟨(hi.conn c).close hopen hnext, fun d _ => hi.conn d⟩
  | @badFile w func cfd p hpc hfile hs =>
    refine absurd hfile (hi.custody.live (k := .worker w) ?_)
    simp [held, hpc, workerHolds]
  | @pool lp p hl hs =>
    obtain ⟨hcloser, hsub⟩ := idle_stays hs hl
    have hfunc : lp.HasFunc := by
      cases lp with
      | submit => cases hl
      | _ => trivial
    obtain ⟨hkept, hsound, hsettled, hargs⟩ := hi.of_pool hs hfunc (hi.orderly hs hl)
    refine ⟨hkept, hsound, hsettled, custody_pool hs hl hi.kept.ledger hi.not_shut hi.custody,
      hargs, ?_, hi.le, hi.table, hi.conn⟩
    intro hclosing
    obtain ⟨hn, hidle⟩ := hi.main fun hidle => hclosing (hcloser hidle)
    exact ⟨hn, hsub hidle⟩

def Label.isSpurious : Label W L → Bool
  | .pool l => l.isSpurious
  | _ => false

def State.ahead (s : State W L n) : Nat :=
  s.pool.ahead + 9 * (n - s.accepted) +
    (if s.pool.closer () = .idle then 5 * Fintype.card W + 8 else 0) +
      tally (fun k : Conn => k.reads.length) s.conn

theorem Step.ahead (h : Step s l s') (hi : Inv reads s) :
    s'.ahead + 1 ≤ s.ahead + if l.isSpurious then 2 else 0 := by
  have hcount := hi.kept.counted
  unfold State.ahead
  cases h with
  | @accept cfd p hn hfree hs =>
    have hpool := hs.ahead hcount
    cases hs with
    | submit hpc =>
      simp only [TPool.Label.adds] at hpool
      dsimp only
      omega
  | acceptFails hn hsub hs =>
    have hpool := hs.ahead hcount
    cases hs with
    | @shutdown d hpc =>
      cases d
      have hentering : update s.pool.closer () .entering () ≠ .idle := by simp
      simp only [TPool.Label.adds] at hpool
      dsimp only
      rw [if_pos hpc, if_neg hentering]
      omega
  | @echo w func cfd c m rest hpc hfile hnext =>
    have hleft := tally_update (fun k : Conn => k.reads.length) s.conn c
      (Conn.echo (s.conn c) (s.msg w) m rest)
    have hlen : (s.conn c).reads.length =
        (Conn.echo (s.conn c) (s.msg w) m rest).reads.length + 1 := by
      rw [(next_some hnext).1]
      rfl
    dsimp only
    omega
  | @hangUp w func cfd c p hpc hfile hnext hs =>
    have hpool := hs.ahead hcount
    have hleft := tally_update (fun k : Conn => k.reads.length) s.conn c (Conn.close (s.conn c))
    have hlen : (Conn.close (s.conn c)).reads.length ≤ (s.conn c).reads.length := by
      simp [Conn.close]
    cases hs with
    | comeBack =>
      simp only [TPool.Label.adds] at hpool
      dsimp only
      omega
  | @badFile w func cfd p hpc hfile hs =>
    have hpool := hs.ahead hcount
    cases hs with
    | comeBack =>
      simp only [TPool.Label.adds] at hpool
      dsimp only
      omega
  | @pool lp p hl hs =>
    have hpool := hs.ahead hcount
    have hadds : lp.adds (Fintype.card W) =
        if (Label.pool lp : Label W L).isSpurious then 2 else 0 := by
      cases lp <;> first | rfl | cases hl
    have hcalls : (if p.closer () = .idle then 5 * Fintype.card W + 8 else 0) =
        if s.pool.closer () = .idle then 5 * Fintype.card W + 8 else 0 :=
      if_congr ⟨hs.idle_before, (idle_stays hs hl).1⟩ rfl rfl
    rw [hadds] at hpool
    dsimp only
    rw [hcalls]
    omega

theorem Inv.exists_free [Infinite L] (hi : Inv reads s) : ∃ cfd, s.files cfd = none := by
  obtain ⟨cfd, hcfd⟩ := Infinite.exists_notMem_finset ((held s.pool .main).toFinset ∪
    (held s.pool .queue).toFinset ∪ Finset.univ.biUnion fun w => (held s.pool (.worker w)).toFinset)
  refine ⟨cfd, ?_⟩
  by_contra hlive
  obtain ⟨k, hk⟩ := hi.custody.kept hlive
  apply hcfd
  simp only [Finset.mem_union, Finset.mem_biUnion, Finset.mem_univ, true_and, List.mem_toFinset]
  cases k with
  | main => exact Or.inl (Or.inl hk)
  | queue => exact Or.inl (Or.inr hk)
  | worker w => exact Or.inr ⟨w, hk⟩

omit [Fintype W] [DecidableEq L] in
theorem submitter_enabled {p : Pool W L} (ho : Owned p.held p.holder)
    (hbusy : p.submitter () ≠ .idle) : TPool.Enabled p := by
  cases hpc : p.submitter () with
  | idle => exact absurd hpc hbusy
  | entering func cfd =>
    cases hholder : p.holder with
    | some x => exact TPool.enabled_of_holder ho hholder
    | none =>
      cases hsub : TPool.tpSubmit func cfd p.pool with
      | none => exact ⟨_, _, TPool.Step.reject hpc hholder hsub, rfl⟩
      | some q => exact ⟨_, _, TPool.Step.accept hpc hholder hsub, rfl⟩
  | rejected => exact ⟨_, _, TPool.Step.unlockRejected hpc, rfl⟩
  | accepted => exact ⟨_, _, TPool.Step.unlockAccepted hpc, rfl⟩
  | signalling =>
    obtain ⟨o, worker', hsig⟩ := exists_signal TPool.WorkerPc.wake p.worker
    exact ⟨_, _, TPool.Step.signal hpc hsig, rfl⟩

theorem Inv.task_goes_on (hi : Inv reads s) {w : W} {wi : TPool.WorkItem Unit L}
    (hpc : s.pool.worker w = .running wi) : ∃ l t, Step s l t ∧ l.isSpurious = false := by
  obtain ⟨cfd, harg⟩ := Option.ne_none_iff_exists'.mp
    (hi.args wi (running_accepted hi.kept.ledger hpc))
  obtain ⟨func, arg⟩ := wi
  subst harg
  cases hfile : s.files cfd with
  | none => exact ⟨_, _, Step.badFile hpc hfile (TPool.Step.comeBack hpc), rfl⟩
  | some c =>
    cases hnext : Conn.next (s.conn c) with
    | none => exact ⟨_, _, Step.hangUp hpc hfile hnext (TPool.Step.comeBack hpc), rfl⟩
    | some r => exact ⟨_, _, Step.echo hpc hfile hnext, rfl⟩

theorem Inv.goes_on [Infinite L] (hi : Inv reads s) (hnot : ¬ s.Finished) :
    ∃ l t, Step s l t ∧ l.isSpurious = false := by
  have hpool : TPool.Enabled s.pool → ∃ l t, Step s l t ∧ l.isSpurious = false := by
    rintro ⟨lp, p, hstep, hl⟩
    refine ⟨_, _, Step.pool ?_ hstep, ?_⟩ <;> cases lp <;> first | rfl | cases hl
  by_cases hbusy : s.pool.submitter () = .idle
  · by_cases hn : s.accepted = n
    · by_cases hshut : s.pool.pool.inShutdown = true
      · by_cases hpast : (s.pool.closer ()).past = true
        · apply hpool
          cases hpc : s.pool.closer () with
          | freeHasWork => exact ⟨_, _, TPool.Step.destroyHasWork hpc, rfl⟩
          | freeTerminated => exact ⟨_, _, TPool.Step.destroyTerminated hpc, rfl⟩
          | freeMutex => exact ⟨_, _, TPool.Step.destroyMutex hpc, rfl⟩
          | finished => exact absurd hpc hnot
          | idle | entering | refused | turnedAway | blocked | woken | leaving =>
            rw [hpc] at hpast
            cases hpast
        · obtain hgo | ⟨w, wi, hrun⟩ := hi.kept.goes_on hshut fun _ => by simpa using hpast
          · exact hpool hgo
          · exact hi.task_goes_on hrun
      · cases hpc : s.pool.closer () with
        | idle => exact ⟨_, _, Step.acceptFails hn hbusy (TPool.Step.shutdown hpc), rfl⟩
        | entering => exact hpool (TPool.closer_enabled hi.kept.owned hpc)
        | refused | turnedAway =>
          exact absurd (hi.kept.attended.late () (by rw [hpc]; rfl)) hshut
        | blocked | woken | leaving | freeHasWork | freeTerminated | freeMutex | finished =>
          exact absurd (hi.kept.attended.began () (by rw [hpc]; rfl)) hshut
    · have hlt : s.accepted < n := by
        have := hi.le
        omega
      obtain ⟨cfd, hfree⟩ := hi.exists_free
      exact ⟨_, _, Step.accept hlt hfree (TPool.Step.submit hbusy), rfl⟩
  · exact hpool (submitter_enabled hi.kept.owned hbusy)

omit [DecidableEq L] in
theorem Inv.all_closed [Nonempty W] (hi : Inv reads s) (hend : s.Finished) (cfd : L) :
    s.files cfd = none := by
  have hclosing : s.pool.closer () = .finished := hend
  by_contra hlive
  obtain ⟨k, hk⟩ := hi.custody.kept hlive
  have hdead := (hi.kept.returned_perm (d := ()) (by rw [hclosing]; rfl)).2
  cases k with
  | main =>
    simp [held, (hi.main (by rw [hclosing]; simp)).2, mainHolds] at hk
  | queue => simp [held, (hi.kept.ledger.drained hdead).1] at hk
  | worker w =>
    have hw := hdead w
    cases hpc : s.pool.worker w with
    | leaving | exited => simp [held, hpc, workerHolds] at hk
    | top | blocked | woken | took | fetched | running =>
      rw [hpc] at hw
      cases hw

omit [DecidableEq L] in
theorem Inv.conn_eq [Nonempty W] (hi : Inv reads s) (hend : s.Finished) (msg : EchoMsg) :
    s.conn = fun c => IpChannel.processConnection msg (reads c) := by
  have hclosing : s.pool.closer () = .finished := hend
  have hn := (hi.main (by rw [hclosing]; simp)).1
  funext c
  have hclosed : (s.conn c).closed = true := by
    by_contra hopen
    obtain ⟨cfd, hfile⟩ := hi.table.found c (by omega) (by simpa using hopen)
    rw [hi.all_closed hend cfd] at hfile
    cases hfile
  have hconn := hi.conn c
  rw [ConnOk, if_pos hclosed] at hconn
  exact hconn msg

/-- Connections arrive until `accept` fails, in any order of the steps of the main thread and
the workers and with any spurious wakeups: the server comes to its end, with each connection
left as a call of `process_connection` alone with its reads leaves it. On the way an open
descriptor is with one thread or once in the queue, a worker that runs has its descriptor open,
no step uses an object that is destroyed, and at the end no descriptor is open. -/
theorem connections_served [Infinite L] [Nonempty W] (reads : Fin n → List Chunk)
    (msg : W → EchoMsg) (m : EchoMsg) :
    Returns Step (init reads msg : State W L n) Label.isSpurious State.result
        (fun c => IpChannel.processConnection m (reads c)) ∧
      ∀ ls (s : State W L n), Runs Step (init reads msg) ls s →
        Custody s.files (held s.pool) ∧
          (∀ w wi, s.pool.worker w = .running wi → ∃ cfd, wi.arg = some cfd ∧
            s.files cfd ≠ none) ∧
          TPool.Safe s.pool ∧ (s.Finished → ∀ cfd, s.files cfd = none) := by
  have hinit := Inv.init (L := L) reads msg
  have hkeep : ∀ (a : State W L n) l b, Inv reads a → Step a l b → Inv reads b :=
    fun _ _ _ hi h => h.inv hi
  refine ⟨⟨?_, ?_, ?_⟩, ?_⟩
  · intro ls s x hrun hx
    have hi := hrun.invariant hinit hkeep
    unfold State.result at hx
    split at hx
    · rename_i hend
      rw [← Option.some.inj hx, hi.conn_eq hend m]
    · cases hx
  · intro ls s hrun hnone
    apply (hrun.invariant hinit hkeep).goes_on
    intro hend
    rw [State.result, if_pos hend] at hnone
    cases hnone
  · exact bounded_of_invariant (c := 2) hinit hkeep fun a l b hi h => h.ahead hi
  · intro ls s hrun
    have hi := hrun.invariant hinit hkeep
    refine ⟨hi.custody, ?_, TPool.safe_of_settled hi.sound hi.settled, hi.all_closed⟩
    intro w wi hpc
    obtain ⟨cfd, harg⟩ := Option.ne_none_iff_exists'.mp
      (hi.args wi (running_accepted hi.kept.ledger hpc))
    refine ⟨cfd, harg, hi.custody.live (k := .worker w) ?_⟩
    simp [held, hpc, workerHolds, harg]

end Runs

/-- Two connections and two workers: one sends a whole message, the other nothing. -/
theorem connections_served_two :
    Returns Step (init (fun c => if c = 0 then [Chunk.zeros maxMsgSize (by decide) le_rfl] else [])
        (fun _ => EchoMsg.zeros) : State Bool Nat 2) Label.isSpurious State.result
      (fun c => IpChannel.processConnection EchoMsg.zeros
        (if c = 0 then [Chunk.zeros maxMsgSize (by decide) le_rfl] else [])) :=
  (connections_served (fun c => if c = 0 then [Chunk.zeros maxMsgSize (by decide) le_rfl] else [])
    (fun _ => EchoMsg.zeros) EchoMsg.zeros).1

end OsCourse.PoolServer
