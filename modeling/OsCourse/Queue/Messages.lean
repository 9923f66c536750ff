import Mathlib.Data.List.TakeWhile
import OsCourse.Queue.Balance

/-! What the queue promises: the messages come out as they went in, none is lost and
the list stays within its bound. -/
namespace OsCourse.Queue
open Function Placement Transition UThread

theorem takeWhile_padded {s : List UInt8} (hs : ∀ x ∈ s, x ≠ 0) (k : Nat) :
    (s ++ List.replicate k 0).takeWhile (· ≠ 0) = s := by
  have hz : (List.replicate k (0 : UInt8)).takeWhile (· ≠ 0) = [] := by
    cases k with
    | zero => rfl
    | succ k => simp [List.replicate_succ]
  rw [List.takeWhile_append_of_pos (by simpa using hs), hz, List.append_nil]

theorem strncpy_padded {s : List UInt8} (hs : ∀ x ∈ s, x ≠ 0) {n : Nat} (hn : s.length ≤ n) :
    strncpy (s ++ List.replicate (n - s.length) 0) n = s ++ List.replicate (n - s.length) 0 := by
  unfold strncpy
  rw [takeWhile_padded hs, List.take_of_length_le hn]

/-- A node holds the message, cut after 127 bytes and ended by zeros. -/
theorem nodeCreate_msg (msg : List UInt8) :
    (nodeCreate msg).msg =
      (msg.takeWhile (· ≠ 0)).take (maxMsg - 1) ++
        List.replicate (maxMsg - ((msg.takeWhile (· ≠ 0)).take (maxMsg - 1)).length) 0 := by
  unfold nodeCreate strncpy
  generalize msg.takeWhile (· ≠ 0) = s
  apply List.ext_getElem?
  intro k
  simp only [maxMsg, List.getElem?_set, List.getElem?_append, List.getElem?_replicate,
    List.getElem?_take, List.length_take, List.length_append, List.length_replicate]
  grind

theorem strncpy_nodeCreate (msg : List UInt8) :
    strncpy (nodeCreate msg).msg maxMsg = (nodeCreate msg).msg := by
  rw [nodeCreate_msg]
  apply strncpy_padded
  · intro x hx
    have hin := List.mem_takeWhile_imp (List.mem_of_mem_take hx)
    simpa using hin
  · have hlen := List.length_take_le (maxMsg - 1) (msg.takeWhile (· ≠ 0))
    exact hlen.trans (by decide)

/-- The messages handed out and the nodes still linked, in order, are those inserted. -/
def QWorld.InOrder (q : QWorld) : Prop :=
  q.sent.map nodeCreate = q.received.map Node.mk ++ q.head

theorem inOrder_step {q q' : QWorld} (hi : q.InOrder) (he : QEffect q q') : q'.InOrder := by
  unfold QWorld.InOrder at *
  cases he with
  | lib op _ _ _ _ h => rw [h]; exact hi
  | enter t c _ _ _ h => rw [h]; exact hi
  | put t msg _ _ _ h =>
    rw [h]
    simp [hi]
  | get t node head _ _ hhead _ h =>
    have hin : node ∈ q.sent.map nodeCreate := by
      rw [hi, hhead]
      simp
    obtain ⟨msg, _, hmsg⟩ := List.mem_map.1 hin
    have hcopy : strncpy node.msg maxMsg = node.msg := by
      rw [← hmsg]
      exact strncpy_nodeCreate msg
    rw [h, hi, hhead]
    simp [hcopy]

theorem inOrder_of_runs {m : Int32} {c : Config} {ops : List QOp} {q : QWorld}
    (h : Runs QStep (queueInit m c) ops q) : q.InOrder :=
  h.invariant (P := QWorld.InOrder) rfl fun _ _ _ hi hs => inOrder_step hi (qstep_effect hs)

theorem ofLibrary_bind_ne {α : Type} (x : Except Fault α) (f : α → QWorld) :
    (do return f (← ofLibrary x)) ≠ (.error .emptyList : Except QFault QWorld) := by
  cases x with
  | error e =>
    intro h
    cases h
  | ok a =>
    intro h
    cases h

theorem emptyList_only {q : QWorld} {op : QOp} (h : qexec op q = .error .emptyList) :
    ∃ t, q.world.sched.current = some t ∧ q.doing t = some .get ∧ q.head = [] := by
  cases op with
  | lib op => exact absurd h (ofLibrary_bind_ne _ _)
  | enter c =>
    cases hcur : q.world.sched.current with
    | none => simp [qexec, hcur] at h
    | some t =>
      simp only [qexec, hcur] at h
      exact absurd h (ofLibrary_bind_ne _ _)
  | finish =>
    cases hcur : q.world.sched.current with
    | none => simp [qexec, hcur] at h
    | some t =>
      refine ⟨t, rfl, ?_⟩
      simp only [qexec, hcur, callRest] at h
      cases hdo : q.doing t with
      | none =>
        rw [hdo] at h
        cases h
      | some c =>
        rw [hdo] at h
        cases c with
        | put msg => cases h
        | get =>
          cases hhead : q.head with
          | nil => exact ⟨rfl, rfl⟩
          | cons node head =>
            simp only [queueGet, hhead] at h
            cases h

theorem QInv.granted_running {m : Int32} {q : QWorld} {i : Nat} (hi : QInv m q)
    (hq : q.world.sched.readyQueue = []) {t : Handle} (ht : t ∈ q.granted i) :
    q.world.sched.current = some t ∧ ∃ c, q.doing t = some c := by
  obtain ⟨⟨c, hc, hci⟩, hno⟩ := hi.placed.mem_granted.1 ht
  obtain ⟨_, hin⟩ := hi.placed t c hc
  rw [hq, hci] at hin
  refine ⟨(hin.resolve_right fun h => ?_), c, hc⟩
  exact h.elim (by simp) hno

theorem units_zero {m : Int32} {q : QWorld} {i : Nat} (h : SemOf m q i) {t : Handle}
    (ht : t ∈ q.world.waiting (.sem i)) : (q.world.sems i).units.toInt = 0 := by
  obtain ⟨u, hu⟩ := h.inv
  have hnn := h.nonneg
  have hone : (1 : Int32).toInt = 1 := rfl
  cases hw : (q.world.sems i).waiters with
  | nil => simp [hw] at ht
  | cons wb rest =>
    have hlt := Int32.lt_iff_toInt_lt.1 (hu.unmet wb rest hw)
    rw [h.ones wb (by simp [hw]), hone] at hlt
    omega

/-- The queue of `m` places, in every world of every program: `queue_get` never takes
from an empty list, there are `m` nodes at the most, the messages come out in the
order in which they went in, each once, no unit is cut off, and when nothing is ready
and the running thread is in no call of the queue, puts and gets are not both blocked. -/
theorem bounded_queue {m : Int32} (hm : 1 ≤ m.toInt) {c : Config} {ops : List QOp} {q : QWorld}
    (h : Runs QStep (queueInit m c) ops q) :
    (∀ op, QAllowed q op → qexec op q ≠ .error .emptyList) ∧
    (q.head.length : Int) ≤ m.toInt ∧
    q.sent.map (fun msg => (nodeCreate msg).msg) = q.received ++ q.head.map (·.msg) ∧
    (∀ k, .cut k ∉ (q.world.sems elemAvaiable).log ∧ .cut k ∉ (q.world.sems spaceAvaiable).log) ∧
    (q.world.sched.readyQueue = [] → (∀ t, q.world.sched.current = some t → q.doing t = none) →
      ¬ ((∃ t msg, q.doing t = some (.put msg) ∧ t ∈ q.world.waiting (.sem spaceAvaiable)) ∧
        ∃ t, q.doing t = some .get ∧ t ∈ q.world.waiting (.sem elemAvaiable))) := by
  have hi := qinv_of_runs hm h
  have hord := inOrder_of_runs h
  have helems := hi.elems
  have hspaces := hi.spaces
  have hspace := units_le_unused q spaceAvaiable
  have hnn := hi.space.nonneg
  refine ⟨fun op hall he => ?_, by omega, ?_, fun k => ⟨hi.elem.uncut k, hi.space.uncut k⟩, ?_⟩
  · obtain ⟨t, hcur, hdo, hhead⟩ := emptyList_only he
    have hpos := hi.unused_pos hcur hdo
    have hnn' := hi.elem.nonneg
    simp only [Call.waits, helems, hhead, List.length_nil] at hpos
    omega
  · have hmap := congrArg (List.map Node.msg) hord
    simpa [Function.comp_def] using hmap
  · intro hq hfree hboth
    obtain ⟨⟨p, msg, _, hp⟩, g, _, hg⟩ := hboth
    have hno : ∀ i, q.granted i = ∅ := by
      intro i
      rw [Finset.eq_empty_iff_forall_notMem]
      intro t ht
      obtain ⟨hcur, c, hc⟩ := hi.granted_running hq ht
      simp [hfree t hcur] at hc
    -- then no unit of either semaphore is kept or granted, and the list is empty and full
    have hE : q.unused elemAvaiable = 0 := by
      unfold QWorld.unused
      rw [hno, units_zero hi.elem hg]
      rfl
    have hS : q.unused spaceAvaiable = 0 := by
      unfold QWorld.unused
      rw [hno, units_zero hi.space hp]
      rfl
    omega

/-- A place for one message. Thread 1 puts twice and blocks, thread 2 blocks on its
first put, thread 3 gets, which grants thread 1, and blocks on its second get. -/
def handoff : List QOp :=
  [.lib (.utCreate 1), .lib (.utCreate 2), .lib (.utCreate 3), .lib .utRun,
    .enter (.put [104]), .finish, .enter (.put [105]), .enter (.put [106]),
    .enter .get, .finish, .enter .get]

/-- Nothing is ready, a put and a get are blocked: the granted put of thread 1, which
runs again, is not finished. -/
theorem put_and_get_blocked : ∃ q, Runs QStep (queueInit 1 Config.plain) handoff q ∧
    q.world.sched.readyQueue = [] ∧
    (∃ t msg, q.doing t = some (.put msg) ∧ t ∈ q.world.waiting (.sem spaceAvaiable)) ∧
    ∃ t, q.doing t = some .get ∧ t ∈ q.world.waiting (.sem elemAvaiable) :=
  ⟨_, runs_of_runAll QAllowed qexec handoff (queueInit 1 Config.plain) rfl, rfl,
    ⟨2, [106], rfl, by decide⟩, 3, rfl, by decide⟩

/-- The message that came out is the one that went in first. -/
theorem bounded_queue_handoff : ∃ q, Runs QStep (queueInit 1 Config.plain) handoff q ∧
    q.head.length ≤ 1 ∧ q.received = [(nodeCreate [104]).msg] := by
  have key : ∀ q, Runs QStep (queueInit 1 Config.plain) handoff q → q.sent = [[104]] →
      q.head = [] → q.head.length ≤ 1 ∧ q.received = [(nodeCreate [104]).msg] := by
    intro q hrun hsent hhead
    obtain ⟨_, hlen, hmsgs, _⟩ := bounded_queue (by decide) hrun
    rw [hsent, hhead] at hmsgs
    exact ⟨by simp [hhead], by simpa using hmsgs.symm⟩
  have hrun := runs_of_runAll QAllowed qexec handoff (queueInit 1 Config.plain) rfl
  exact ⟨_, hrun, key _ hrun rfl rfl⟩

end OsCourse.Queue
