import OsCourse.UThread.Event

/-! The bounded message queue (queue_test.c) over the semaphores, in programs where
any threads put and get, and may use any other object of the library. -/
namespace OsCourse.Queue
open Function Placement Transition UThread

def maxMsg : Nat := 128

/-- The first `n` bytes that `strncpy` writes: the string, cut or padded with zeros. -/
def strncpy (src : List UInt8) (n : Nat) : List UInt8 :=
  let s := (src.takeWhile (· ≠ 0)).take n
  s ++ List.replicate (n - s.length) 0

structure Node where
  msg : List UInt8
  deriving DecidableEq, Repr

def nodeCreate (msg : List UInt8) : Node :=
  -- the last byte is forced to be a terminator
  ⟨(strncpy msg maxMsg).set (maxMsg - 1) 0⟩

/-- The semaphores of the queue among those of the program. -/
def elemAvaiable : Nat := 0
def spaceAvaiable : Nat := 1

inductive Call where
  | put (msg : List UInt8)
  | get
  deriving DecidableEq, Repr

/-- The semaphore on which the call begins with `sem_wait`. -/
def Call.waits : Call → Nat
  | .put _ => spaceAvaiable
  | .get => elemAvaiable

/-- `doing` is the call a thread is in; `sent` and `received` are history: the
messages of the nodes inserted, and the messages handed out. -/
structure QWorld where
  world : World
  head : List Node
  doing : Handle → Option Call
  sent : List (List UInt8)
  received : List (List UInt8)

/-- `queue_init`, in a program that gives its other objects the values of `c`. -/
def queueInit (maxSize : Int32) (c : Config) : QWorld :=
  { world := World.init
      { c with
        semUnits := update (update c.semUnits elemAvaiable 0) spaceAvaiable maxSize
        semLimit := update (update c.semLimit elemAvaiable maxSize) spaceAvaiable maxSize }
    head := []
    doing := fun _ => none
    sent := []
    received := [] }

/-- A fault of the library, or `remove_list_first` applied to an empty list. -/
inductive QFault where
  | library (f : Fault)
  | emptyList
  deriving DecidableEq, Repr

def ofLibrary {α : Type} (x : Except Fault α) : Except QFault α := x.mapError .library

/-- What the program does next. A call of `queue_put` or `queue_get` is two steps:
`enter`, its `sem_wait`, and `finish`, the rest, when `sem_wait` has returned. -/
inductive QOp where
  | lib (op : Op)
  | enter (c : Call)
  | finish
  deriving DecidableEq, Repr

/-- The first statement of `queue_put` and `queue_get`. -/
def Call.enter (c : Call) (t : Handle) (q : QWorld) : Except QFault QWorld := do
  let w ← ofLibrary (exec (.semWait c.waits 1) q.world)
  return { q with world := w, doing := update q.doing t (some c) }

/-- `queue_put` after its `sem_wait`. -/
def queuePut (msg : List UInt8) (q : QWorld) : Except QFault QWorld := do
  let node := nodeCreate msg
  let head := insertListLast q.head node
  let w ← ofLibrary (exec (.semPost elemAvaiable 1) q.world)
  return { q with world := w, head := head, sent := q.sent ++ [msg] }

/-- `queue_get` after its `sem_wait`. -/
def queueGet (q : QWorld) : Except QFault QWorld :=
  match q.head with
  | [] => .error .emptyList
  | node :: head => do
    let w ← ofLibrary (exec (.semPost spaceAvaiable 1) q.world)
    return { q with
      world := w
      head := head
      received := q.received ++ [strncpy node.msg maxMsg] }

/-- The rest of the call that thread `t` is in. -/
def callRest (t : Handle) (q : QWorld) : Except QFault QWorld :=
  match q.doing t with
  | some (.put msg) => queuePut msg q
  | some .get => queueGet q
  | none => .ok q

def qexec (op : QOp) (q : QWorld) : Except QFault QWorld :=
  match op, q.world.sched.current with
  | .lib op, _ => do return { q with world := ← ofLibrary (exec op q.world) }
  | .enter c, some t => c.enter t q
  | .finish, some t => do
    let q' ← callRest t q
    return { q' with doing := update q'.doing t none }
  | _, none => .error (.library .badThread)

/-- The call whose `sem_wait` returned to the running thread, if it is in one. -/
def QWorld.ending (q : QWorld) : Option Call :=
  if q.world.midCall then none else q.world.sched.current.bind q.doing

/-- A thread ends its call of the queue before it makes another call, and only the
calls of the queue use its semaphores. -/
def QAllowed (q : QWorld) : QOp → Prop
  | .lib op => q.ending = none ∧ Allowed q.world op ∧
      op.touches ≠ some (.sem elemAvaiable) ∧ op.touches ≠ some (.sem spaceAvaiable)
  | .enter _ => q.ending = none ∧ q.world.midCall = false ∧ q.world.sched.current.isSome
  | .finish => q.ending.isSome

instance (q : QWorld) (op : QOp) : Decidable (QAllowed q op) :=
  match op with
  | .lib _ => inferInstanceAs (Decidable (_ ∧ _ ∧ _ ∧ _))
  | .enter _ => inferInstanceAs (Decidable (_ ∧ _ ∧ _))
  | .finish => inferInstanceAs (Decidable (_ = true))

def QStep (q : QWorld) (op : QOp) (q' : QWorld) : Prop :=
  QAllowed q op ∧ qexec op q = .ok q'

theorem ofLibrary_ok {α : Type} {x : Except Fault α} {a : α} (h : ofLibrary x = .ok a) :
    x = .ok a := by
  cases x with
  | error f => cases h
  | ok y => cases h; rfl

/-- What a step does, in terms of the one call of the library it makes. -/
inductive QEffect (q q' : QWorld) : Prop where
  | lib (op : Op) (hend : q.ending = none) (hs : Step q.world op q'.world)
      (helem : op.touches ≠ some (.sem elemAvaiable))
      (hspace : op.touches ≠ some (.sem spaceAvaiable))
      (h : q' = { q with world := q'.world })
  | enter (t : Handle) (c : Call) (hcur : q.world.sched.current = some t)
      (hfree : q.doing t = none) (hs : Step q.world (.semWait c.waits 1) q'.world)
      (h : q' = { q with world := q'.world, doing := update q.doing t (some c) })
  | put (t : Handle) (msg : List UInt8) (hcur : q.world.sched.current = some t)
      (hdo : q.doing t = some (.put msg))
      (hs : Step q.world (.semPost elemAvaiable 1) q'.world)
      (h : q' = { q with
        world := q'.world
        head := q.head ++ [nodeCreate msg]
        doing := update q.doing t none
        sent := q.sent ++ [msg] })
  | get (t : Handle) (node : Node) (head : List Node) (hcur : q.world.sched.current = some t)
      (hdo : q.doing t = some .get) (hhead : q.head = node :: head)
      (hs : Step q.world (.semPost spaceAvaiable 1) q'.world)
      (h : q' = { q with
        world := q'.world
        head := head
        doing := update q.doing t none
        received := q.received ++ [strncpy node.msg maxMsg] })

theorem qstep_effect {q q' : QWorld} {op : QOp} (h : QStep q op q') : QEffect q q' := by
  obtain ⟨hall, h⟩ := h
  cases op with
  | lib op =>
    obtain ⟨w, hw, h⟩ := bind_ok h
    cases h
    exact QEffect.lib op hall.1 ⟨hall.2.1, ofLibrary_ok hw⟩ hall.2.2.1 hall.2.2.2 rfl
  | enter c =>
    obtain ⟨hend, hmid, hsome⟩ := hall
    obtain ⟨t, hcur⟩ := Option.isSome_iff_exists.1 hsome
    simp only [qexec, hcur] at h
    obtain ⟨w, hw, h⟩ := bind_ok h
    cases h
    have hfree : q.doing t = none := by simpa [QWorld.ending, hmid, hcur] using hend
    exact QEffect.enter t c hcur hfree ⟨⟨by simp [hmid], rfl⟩, ofLibrary_ok hw⟩ rfl
  | finish =>
    have hmid : q.world.midCall = false := by
      cases hm : q.world.midCall with
      | false => rfl
      | true => simp [QAllowed, QWorld.ending, hm] at hall
    have hpost : ∀ i, Allowed q.world (.semPost i 1) := fun i => ⟨by simp [hmid], rfl⟩
    cases hcur : q.world.sched.current with
    | none => simp [QAllowed, QWorld.ending, hcur] at hall
    | some t =>
      simp only [qexec, hcur] at h
      obtain ⟨q1, hq1, h⟩ := bind_ok h
      cases h
      cases hdo : q.doing t with
      | none => simp [QAllowed, QWorld.ending, hcur, hdo] at hall
      | some c =>
        simp only [callRest, hdo] at hq1
        cases c with
        | put msg =>
          obtain ⟨w, hw, hq1⟩ := bind_ok hq1
          cases hq1
          exact QEffect.put t msg hcur hdo ⟨hpost _, ofLibrary_ok hw⟩ rfl
        | get =>
          simp only [queueGet] at hq1
          split at hq1
          · cases hq1
          · rename_i node head hhead
            obtain ⟨w, hw, hq1⟩ := bind_ok hq1
            cases hq1
            exact QEffect.get t node head hcur hdo hhead ⟨hpost _, ofLibrary_ok hw⟩ rfl

end OsCourse.Queue
