import Mathlib.Logic.Function.Basic

/-! The callback loop (loop.c of echo_ip_epoll_cb): the handles on the heap and the epoll set,
whose entries point to them. -/
namespace OsCourse.Servers.Loop
open Function
variable {Cb : Type*}

def epollin : UInt32 := 1
def epollerr : UInt32 := 8

/-- `struct async_handle_impl`. The callback `none` is NULL. `id` is history: it tells the
allocations apart, which may get the same address one after another. -/
structure AsyncHandle (Cb : Type*) where
  fd : Nat
  cb : Option Cb
  ctx : Nat
  id : Nat

/-- An entry of the epoll set: the descriptor, and the handle in `data.ptr`. -/
structure Entry where
  fd : Nat
  ptr : Nat
  id : Nat
  deriving DecidableEq

structure Event where
  entry : Entry
  events : UInt32
  deriving DecidableEq

/-- The test of `process`. -/
def Event.Ready (evd : Event) : Prop := evd.events &&& (epollin ||| epollerr) ≠ 0

instance (evd : Event) : Decidable evd.Ready := inferInstanceAs (Decidable (_ ≠ _))

/-- The handles, and the globals `nclients` and `epoll_fd`. -/
structure AsyncLoop (Cb : Type*) where
  heap : Nat → Option (AsyncHandle Cb)
  allocs : Nat
  epoll : List Entry
  nclients : Nat

section Operations
variable (loop : AsyncLoop Cb)

def ahInit : AsyncLoop Cb := ⟨fun _ => none, 0, [], 0⟩

/-- `EPOLL_CTL_ADD` succeeds or not. -/
def addClient (added : Bool) (evd : Entry) : AsyncLoop Cb :=
  if added then { loop with epoll := loop.epoll ++ [evd], nclients := loop.nclients + 1 }
  else loop

/-- `EPOLL_CTL_DEL` fails when the descriptor is not in the set. -/
def remClient (cfd : Nat) : AsyncLoop Cb :=
  if cfd ∈ loop.epoll.map Entry.fd then
    { loop with
      epoll := loop.epoll.filter fun e => e.fd ≠ cfd
      nclients := loop.nclients - 1 }
  else loop

/-- `malloc` gives the address `ah`. What `add_client` returns is not looked at. -/
def ahRegistFd (ah fd : Nat) (added : Bool) : AsyncLoop Cb :=
  addClient
    { loop with
      heap := update loop.heap ah (some ⟨fd, none, 0, loop.allocs⟩)
      allocs := loop.allocs + 1 }
    added ⟨fd, ah, loop.allocs⟩

def ahDoAsync (ah : Nat) (cb : Cb) (ctx : Nat) : AsyncLoop Cb :=
  { loop with
    heap := update loop.heap ah ((loop.heap ah).map fun h => { h with cb := some cb, ctx := ctx }) }

def ahAcceptAsync (ah : Nat) (cb : Cb) (ctx : Nat) : AsyncLoop Cb := ahDoAsync loop ah cb ctx

def ahReadAsync (ah : Nat) (cb : Cb) (ctx : Nat) : AsyncLoop Cb := ahDoAsync loop ah cb ctx

/-- The handle is taken out of the set, and freed. -/
def ahClose (ah : Nat) : AsyncLoop Cb :=
  match loop.heap ah with
  | some h => { remClient loop h.fd with heap := update loop.heap ah none }
  | none => loop

def ahGetfd (ah : Nat) : Option Nat := (loop.heap ah).map AsyncHandle.fd

end Operations

/-- What `epoll_wait` may return: events of entries of the set, each descriptor once. -/
structure Batch (loop : AsyncLoop Cb) (batch : List Event) : Prop where
  mem : ∀ evd ∈ batch, evd.entry ∈ loop.epoll
  nodup : (batch.map fun evd => evd.entry.fd).Nodup

section Lemmas
variable {loop : AsyncLoop Cb} {ah fd p cfd : Nat} {added : Bool} {e : Entry} {h : AsyncHandle Cb}

theorem addClient_heap : (addClient loop added e).heap = loop.heap := by
  unfold addClient
  split <;> rfl

theorem ahRegistFd_heap : (ahRegistFd loop ah fd added).heap =
    update loop.heap ah (some ⟨fd, none, 0, loop.allocs⟩) := addClient_heap

theorem ahRegistFd_heap_some (hfree : loop.heap ah = none) (hp : loop.heap p = some h) :
    (ahRegistFd loop ah fd added).heap p = some h := by
  have hne : p ≠ ah := by
    rintro rfl
    cases hfree.symm.trans hp
  rw [ahRegistFd_heap, update_of_ne hne, hp]

theorem mem_ahRegistFd (he : e ∈ (ahRegistFd loop ah fd added).epoll) :
    e ∈ loop.epoll ∨ e = ⟨fd, ah, loop.allocs⟩ := by
  unfold ahRegistFd addClient at he
  split at he
  · cases List.mem_append.mp he with
    | inl hold => exact Or.inl hold
    | inr hnew => exact Or.inr (List.mem_singleton.mp hnew)
  · exact Or.inl he

theorem ahDoAsync_heap_self {cb : Cb} {ctx : Nat} (hp : loop.heap ah = some h) :
    (ahDoAsync loop ah cb ctx).heap ah = some { h with cb := some cb, ctx := ctx } := by
  unfold ahDoAsync
  rw [hp]
  exact update_self _ _ _

theorem ahDoAsync_heap_ne {cb : Cb} {ctx : Nat} (hne : p ≠ ah) :
    (ahDoAsync loop ah cb ctx).heap p = loop.heap p := update_of_ne hne _ _

theorem mem_remClient : e ∈ (remClient loop cfd).epoll ↔ e ∈ loop.epoll ∧ e.fd ≠ cfd := by
  unfold remClient
  split
  · rw [List.mem_filter, decide_eq_true_eq]
  · rename_i hnone
    constructor
    · intro he
      refine ⟨he, ?_⟩
      rintro rfl
      exact hnone (List.mem_map_of_mem he)
    · exact And.left

theorem ahClose_heap (hp : loop.heap ah = some h) :
    (ahClose loop ah).heap = update loop.heap ah none := by
  unfold ahClose
  rw [hp]

theorem ahClose_epoll (hp : loop.heap ah = some h) :
    (ahClose loop ah).epoll = (remClient loop h.fd).epoll := by
  unfold ahClose
  rw [hp]

end Lemmas

end OsCourse.Servers.Loop
