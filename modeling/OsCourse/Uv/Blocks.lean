import OsCourse.Lib.Ledger
import OsCourse.Lib.Transition
import OsCourse.Uv.Model

/-! What the callbacks of the server of the thread pool allocate and free. The steps are those
of the model, with the pointers that the callbacks pass on. -/
namespace OsCourse.Uv.Blocks
open Function Transition Alloc

inductive Kind where
  /-- a `uv_tcp_t` -/
  | client
  | buffer
  /-- a `uv_echo_work_t` -/
  | echoWork
  /-- a `uv_write_t` -/
  | writeReq
  deriving DecidableEq

/-- A block on the heap. `id` is history: it tells the allocations apart. -/
structure Block where
  kind : Kind
  id : Nat
  deriving DecidableEq

structure Handle where
  ptr : Nat
  block : Block

/-- A queued `uv_echo_work_t`, with its `client` and its `buf.base`. -/
structure Work where
  req : Block
  client : Nat
  buf : Block

/-- A `uv_write_t` whose write has not been completed. -/
structure WriteReq where
  req : Block
  data : Block

/-- `answered` and `refused` are history: the `uv_echo_work_t` that `send_resp` was given, and
what was passed to a `uv_write` that failed, which calls no callback. -/
structure State where
  base : Uv.State
  mallocs : Nat
  ledger : Ledger Block
  clients : List Handle
  works : List Work
  writes : List WriteReq
  answered : List Block
  refused : List Block

def init : State := ⟨Uv.init, 0, Ledger.empty, [], [], [], [], []⟩

/-- `uv_write` takes the request: the handle is not closed. -/
def accepts (client : Option Client) : Bool := client.any fun c => !c.closed

section Callbacks
variable (s : State)

/-- What the next `malloc` returns. -/
def State.newBlock (kind : Kind) : Block := ⟨kind, s.mallocs⟩

def State.malloc (kind : Kind) : State :=
  { s with mallocs := s.mallocs + 1, ledger := s.ledger.malloc (s.newBlock kind) }

def State.free (b : Block) : State := { s with ledger := s.ledger.free b }

def onNewConnection (p : Nat) : State :=
  { s.malloc .client with clients := s.clients ++ [⟨p, s.newBlock .client⟩] }

def allocBuffer : State := s.malloc .buffer

def dispatchWork (client : Nat) (data : Block) : State :=
  { s.malloc .echoWork with works := s.works ++ [⟨s.newBlock .echoWork, client, data⟩] }

/-- The `uv_close` of an end of stream is a matter of the model. -/
def echoRead (client : Nat) (nread : Int) (buf : Block) : State :=
  if nread > 0 then dispatchWork s client buf else s.free buf

/-- The `uv_echo_work_t` is looked at, and that is all; the result of `uv_write` is not. -/
def sendResp (wreq : Work) : State :=
  if accepts (s.base.heap wreq.client) then
    { s.malloc .writeReq with
      writes := s.writes ++ [⟨s.newBlock .writeReq, wreq.buf⟩]
      answered := s.answered ++ [wreq.req] }
  else
    { s.malloc .writeReq with
      answered := s.answered ++ [wreq.req]
      refused := s.refused ++ [s.newBlock .writeReq, wreq.buf] }

def freeWriteReq (req : WriteReq) : State := (s.free req.data).free req.req

def echoWriteCompleted (req : WriteReq) : State := freeWriteReq s req

def onClose (handle : Block) : State := s.free handle

end Callbacks

inductive Label where
  | loop (l : Uv.Label)
  | echoWriteCompleted (i : Nat)
  deriving DecidableEq

/-- `alloc_buffer` is called right before each `echo_read`. Every `uv_write` that did not fail is
completed, in any order. -/
inductive Step : State → Label → State → Prop
  | onNewConnection {s : State} {base : Uv.State} {p : Nat} :
      Uv.Step s.base (.onNewConnection p) base →
      Step s (.loop (.onNewConnection p)) { onNewConnection s p with base := base }
  | onNewConnectionError {s : State} {base : Uv.State} :
      Uv.Step s.base .onNewConnectionError base →
      Step s (.loop .onNewConnectionError) { s with base := base }
  | echoRead {s : State} {base : Uv.State} {p nread : Nat} :
      Uv.Step s.base (.echoRead p nread) base →
      Step s (.loop (.echoRead p nread))
        { echoRead (allocBuffer s) p nread (s.newBlock .buffer) with base := base }
  | echoReadEnd {s : State} {base : Uv.State} {p : Nat} : Uv.Step s.base (.echoReadEnd p) base →
      Step s (.loop (.echoReadEnd p))
        { echoRead (allocBuffer s) p (-1) (s.newBlock .buffer) with base := base }
  | sendResp {s : State} {base : Uv.State} {before after : List Work} {wreq : Work} :
      s.works = before ++ wreq :: after → Uv.Step s.base (.sendResp before.length) base →
      Step s (.loop (.sendResp before.length))
        { sendResp { s with works := before ++ after } wreq with base := base }
  | onClose {s : State} {base : Uv.State} {before after : List Handle} {p : Nat}
      {handle : Block} : s.clients = before ++ ⟨p, handle⟩ :: after →
      Uv.Step s.base (.onClose p) base →
      Step s (.loop (.onClose p))
        { onClose { s with clients := before ++ after } handle with base := base }
  | echoWriteCompleted {s : State} {before after : List WriteReq} {req : WriteReq} :
      s.writes = before ++ req :: after →
      Step s (.echoWriteCompleted before.length)
        (echoWriteCompleted { s with writes := before ++ after } req)

variable {s s' : State} {l : Label} {b : Block}

theorem echoRead_data {nread : Nat} (h : 0 < nread) (p : Nat) (buf : Block) :
    echoRead s p nread buf = dispatchWork s p buf := if_pos (Int.natCast_pos.mpr h)

theorem sendResp_answered (wreq : Work) :
    (sendResp s wreq).answered = s.answered ++ [wreq.req] := by
  unfold sendResp
  split <;> rfl

theorem sendResp_works (wreq : Work) : (sendResp s wreq).works = s.works := by
  unfold sendResp
  split <;> rfl

theorem sendResp_clients (wreq : Work) : (sendResp s wreq).clients = s.clients := by
  unfold sendResp
  split <;> rfl

theorem echoRead_nothing {nread : Int} (h : ¬nread > 0) (p : Nat) (buf : Block) :
    echoRead s p nread buf = s.free buf := if_neg h

section Held

/-- The blocks that are not freed yet: what the clients, the queued requests and the writes
consist of, and what `send_resp` has left behind. -/
def held (s : State) : List Block :=
  s.clients.map Handle.block ++ s.works.flatMap (fun w => [w.req, w.buf]) ++
    s.writes.flatMap (fun w => [w.req, w.data]) ++ (s.answered ++ s.refused)

theorem count_held (s : State) (b : Block) : (held s).count b =
    (s.clients.map Handle.block).count b + (s.works.flatMap fun w => [w.req, w.buf]).count b +
      (s.writes.flatMap fun w => [w.req, w.data]).count b +
        (s.answered.count b + s.refused.count b) := by
  unfold held
  rw [List.count_append, List.count_append, List.count_append, List.count_append]

/-- The ledger is balanced, when the callback that runs has the blocks `loose` in its variables.
Numbers are given once. -/
structure Booked (s : State) (loose : List Block) : Prop where
  balanced : s.ledger.Balanced (loose ++ held s)
  fresh : ∀ b ∈ s.ledger.allocated, b.id < s.mallocs

variable {loose : List Block}

theorem Booked.init : Booked init [] := ⟨Ledger.Balanced.empty, nofun⟩

theorem Booked.malloc (h : Booked s loose) (kind : Kind) :
    Booked (s.malloc kind) (s.newBlock kind :: loose) where
  balanced := h.balanced.malloc fun hin => Nat.lt_irrefl s.mallocs (h.fresh _ hin)
  fresh := by
    intro b hb
    cases List.mem_append.mp hb with
    | inl hold => exact Nat.lt_succ_of_lt (h.fresh b hold)
    | inr hnew =>
      rw [List.mem_singleton.mp hnew]
      exact Nat.lt_succ_self s.mallocs

theorem Booked.free (h : Booked s (b :: loose)) : Booked (s.free b) loose :=
  ⟨h.balanced.free, h.fresh⟩

theorem Booked.pass {loose' : List Block} (h : Booked s loose) (hledger : s'.ledger = s.ledger)
    (hmallocs : s'.mallocs = s.mallocs)
    (hcount : ∀ b, loose'.count b + (held s').count b = loose.count b + (held s).count b) :
    Booked s' loose' where
  balanced := by
    rw [hledger]
    apply h.balanced.perm
    intro b
    rw [List.count_append, List.count_append]
    exact hcount b
  fresh := by
    rw [hledger, hmallocs]
    exact h.fresh

theorem Booked.onNewConnection (h : Booked s []) (p : Nat) : Booked (onNewConnection s p) [] := by
  refine (h.malloc .client).pass rfl rfl ?_
  intro b
  rw [count_held, count_held]
  dsimp only [Blocks.onNewConnection, State.malloc]
  simp only [List.map_append, List.map_cons, List.map_nil, List.count_append, List.count_cons,
    List.count_nil]
  omega

theorem Booked.dispatchWork {data : Block} (h : Booked s [data]) (p : Nat) :
    Booked (dispatchWork s p data) [] := by
  refine (h.malloc .echoWork).pass rfl rfl ?_
  intro b
  rw [count_held, count_held]
  dsimp only [Blocks.dispatchWork, State.malloc]
  simp only [List.flatMap_append, List.flatMap_cons, List.flatMap_nil, List.count_append,
    List.count_cons, List.count_nil]
  omega

theorem Booked.echoRead {buf : Block} (h : Booked s [buf]) (p : Nat) (nread : Int) :
    Booked (echoRead s p nread buf) [] := by
  unfold Blocks.echoRead
  split
  · exact h.dispatchWork p
  · exact h.free

theorem Booked.sendResp {wreq : Work} (h : Booked s [wreq.req, wreq.buf]) :
    Booked (sendResp s wreq) [] := by
  unfold Blocks.sendResp
  split <;>
  · refine (h.malloc .writeReq).pass rfl rfl ?_
    intro b
    rw [count_held, count_held]
    dsimp only [State.malloc]
    simp only [List.flatMap_append, List.flatMap_cons, List.flatMap_nil, List.count_append,
      List.count_cons, List.count_nil]
    omega

theorem Booked.freeWriteReq {req : WriteReq} (h : Booked s [req.data, req.req]) :
    Booked (freeWriteReq s req) [] := h.free.free

theorem Booked.takeWork {before after : List Work} {wreq : Work} (h : Booked s [])
    (hworks : s.works = before ++ wreq :: after) :
    Booked { s with works := before ++ after } [wreq.req, wreq.buf] := by
  refine h.pass rfl rfl ?_
  intro b
  rw [count_held, count_held, hworks]
  simp only [List.flatMap_append, List.flatMap_cons, List.count_append, List.count_cons,
    List.count_nil]
  omega

theorem Booked.takeWrite {before after : List WriteReq} {req : WriteReq} (h : Booked s [])
    (hwrites : s.writes = before ++ req :: after) :
    Booked { s with writes := before ++ after } [req.data, req.req] := by
  refine h.pass rfl rfl ?_
  intro b
  rw [count_held, count_held, hwrites]
  simp only [List.flatMap_append, List.flatMap_cons, List.count_append, List.count_cons,
    List.count_nil]
  omega

theorem Booked.takeClient {before after : List Handle} {handle : Handle} (h : Booked s [])
    (hclients : s.clients = before ++ handle :: after) :
    Booked { s with clients := before ++ after } [handle.block] := by
  refine h.pass rfl rfl ?_
  intro b
  rw [count_held, count_held, hclients]
  simp only [List.map_append, List.map_cons, List.count_append, List.count_cons, List.count_nil]
  omega

theorem Booked.goto (h : Booked s loose) (base : Uv.State) :
    Booked { s with base := base } loose := ⟨h.balanced, h.fresh⟩

theorem Step.booked (hstep : Step s l s') (h : Booked s []) : Booked s' [] := by
  cases hstep with
  | @onNewConnection base p => exact (h.onNewConnection p).goto base
  | @onNewConnectionError base => exact h.goto base
  | @echoRead base p nread => exact ((h.malloc .buffer).echoRead p nread).goto base
  | @echoReadEnd base p => exact ((h.malloc .buffer).echoRead p (-1)).goto base
  | @sendResp base before after wreq hworks => exact (h.takeWork hworks).sendResp.goto base
  | @onClose base before after p handle hclients => exact (h.takeClient hclients).free.goto base
  | echoWriteCompleted hwrites => exact (h.takeWrite hwrites).freeWriteReq

end Held

section Linked

structure Linked (s : State) : Prop where
  works : s.works.map Work.client = s.base.work.map EchoWork.client
  nodup : (s.clients.map Handle.ptr).Nodup
  clients : ∀ p, p ∈ s.clients.map Handle.ptr ↔ s.base.heap p ≠ none

theorem Linked.init : Linked init := by
  refine ⟨rfl, List.nodup_nil, ?_⟩
  intro p
  constructor
  · intro hp
    cases hp
  · intro hp
    exact absurd rfl hp

theorem Linked.onNewConnection (h : Linked s) {p : Nat} {c : Client} (hfree : s.base.heap p = none)
    {base : Uv.State} (hheap : base.heap = update s.base.heap p (some c))
    (hwork : base.work = s.base.work) :
    Linked { onNewConnection s p with base := base } where
  works := by
    rw [hwork]
    exact h.works
  nodup := by
    have hnew : p ∉ s.clients.map Handle.ptr := fun hin => (h.clients p).mp hin hfree
    dsimp only [Blocks.onNewConnection]
    rw [List.map_append, List.nodup_append]
    refine ⟨h.nodup, List.nodup_singleton p, ?_⟩
    intro q hq r hr
    rw [List.mem_singleton.mp hr]
    rintro rfl
    exact hnew hq
  clients := by
    intro q
    dsimp only [Blocks.onNewConnection]
    rw [List.map_append, List.mem_append, List.map_singleton, List.mem_singleton, h.clients, hheap]
    by_cases hq : q = p
    · simp [hq]
    · simp [hq]

theorem Linked.keep (h : Linked s) (hworks : s'.works = s.works) (hclients : s'.clients = s.clients)
    (hwork : s'.base.work = s.base.work)
    (hheap : ∀ p, s'.base.heap p ≠ none ↔ s.base.heap p ≠ none) : Linked s' where
  works := by
    rw [hworks, hwork]
    exact h.works
  nodup := by
    rw [hclients]
    exact h.nodup
  clients := by
    intro p
    rw [hclients, hheap]
    exact h.clients p

theorem Linked.allocBuffer (h : Linked s) : Linked (allocBuffer s) :=
  ⟨h.works, h.nodup, h.clients⟩

theorem Linked.read (h : Linked s) {nread : Nat} (hpos : 0 < nread) (buf : Block)
    {base : Uv.State} {p : Nat} {data : Buf} (hwork : base.work = s.base.work ++ [⟨p, data⟩])
    (hheap : base.heap = s.base.heap) :
    Linked { echoRead s p nread buf with base := base } := by
  rw [echoRead_data hpos]
  refine ⟨?_, h.nodup, ?_⟩
  · dsimp only [dispatchWork]
    rw [hwork, List.map_append, List.map_append, h.works]
    rfl
  · intro p
    dsimp only
    rw [hheap]
    exact h.clients p

theorem Linked.readNothing (h : Linked s) {nread : Int} (hnone : ¬nread > 0) (p : Nat) (buf : Block)
    {base : Uv.State} (hwork : base.work = s.base.work)
    (hheap : ∀ p, base.heap p ≠ none ↔ s.base.heap p ≠ none) :
    Linked { echoRead s p nread buf with base := base } := by
  rw [echoRead_nothing hnone]
  exact h.keep rfl rfl hwork hheap

theorem Linked.split (h : Linked s) {before after : List Work} {wreq : Work}
    (hworks : s.works = before ++ wreq :: after) {before' after' : List EchoWork} {w : EchoWork}
    (hwork : s.base.work = before' ++ w :: after') (hlen : before.length = before'.length) :
    wreq.client = w.client ∧
      (before ++ after).map Work.client = (before' ++ after').map EchoWork.client := by
  have hsame := h.works
  rw [hworks, hwork, List.map_append, List.map_append, List.map_cons, List.map_cons] at hsame
  obtain ⟨hbefore, hrest⟩ := List.append_inj hsame (by simpa using hlen)
  obtain ⟨hclient, hafter⟩ := List.cons.inj hrest
  refine ⟨hclient, ?_⟩
  rw [List.map_append, List.map_append, hbefore, hafter]

theorem Linked.sendResp (h : Linked s) {before after : List Work} (wreq : Work)
    {base : Uv.State} (hwork : (before ++ after).map Work.client = base.work.map EchoWork.client)
    (hheap : base.heap = s.base.heap) :
    Linked { sendResp { s with works := before ++ after } wreq with base := base } where
  works := by
    dsimp only
    rw [sendResp_works]
    exact hwork
  nodup := by
    dsimp only
    rw [sendResp_clients]
    exact h.nodup
  clients := by
    intro p
    dsimp only
    rw [sendResp_clients, hheap]
    exact h.clients p

theorem Linked.onClose (h : Linked s) {before after : List Handle} {handle : Handle}
    (hclients : s.clients = before ++ handle :: after) {base : Uv.State}
    (hheap : base.heap = update s.base.heap handle.ptr none) (hwork : base.work = s.base.work) :
    Linked { onClose { s with clients := before ++ after } handle.block with base := base } := by
  have hnodup := h.nodup
  rw [hclients, List.map_append, List.map_cons] at hnodup
  have hsplit := List.nodup_middle.mp hnodup
  rw [List.nodup_cons, ← List.map_append] at hsplit
  refine ⟨?_, hsplit.2, ?_⟩
  · dsimp only [Blocks.onClose, State.free]
    rw [hwork]
    exact h.works
  · intro p
    have hp := h.clients p
    rw [hclients, List.map_append, List.map_cons, List.mem_append, List.mem_cons] at hp
    dsimp only [Blocks.onClose, State.free]
    rw [hheap]
    by_cases he : p = handle.ptr
    · rw [he, update_self]
      exact ⟨fun hin => absurd hin hsplit.1, fun hne => absurd rfl hne⟩
    · rw [update_of_ne he, ← hp, List.map_append, List.mem_append]
      simp [he]

theorem Step.linked (hstep : Step s l s') (h : Linked s) : Linked s' := by
  cases hstep with
  | onNewConnection hbase =>
    cases hbase with
    | accept hfree | acceptFails hfree => exact h.onNewConnection hfree rfl rfl
  | onNewConnectionError hbase =>
    cases hbase with
    | connectionError => exact h
  | echoRead hbase =>
    cases hbase with
    | read _ _ hpos => exact h.allocBuffer.read hpos _ rfl rfl
    | readNothing => exact h.allocBuffer.readNothing (by decide) _ _ rfl fun _ => Iff.rfl
  | @echoReadEnd base p hbase =>
    cases hbase with
    | readEnd hp =>
      refine h.allocBuffer.readNothing (by decide) _ _ rfl ?_
      intro q
      by_cases hq : q = p
      · simp [hq, hp, allocBuffer, State.malloc]
      · simp [hq, allocBuffer, State.malloc]
  | sendResp hworks hbase =>
    generalize hi : List.length _ = i at hbase
    cases hbase with
    | sendResp hwork => exact h.sendResp _ (h.split hworks hwork hi).2 rfl
  | onClose hclients hbase =>
    cases hbase with
    | onClose => exact h.onClose hclients rfl rfl
  | echoWriteCompleted => exact h.keep rfl rfl rfl fun _ => Iff.rfl

end Linked

section Model

def Label.loop? : Label → Option Uv.Label
  | .loop l => some l
  | .echoWriteCompleted _ => none

/-- Every run is one of the model, with the completions of writes between its callbacks. -/
theorem base_run {ls : List Label} (h : Runs Step init ls s) :
    Runs Uv.Step Uv.init (ls.filterMap Label.loop?) s.base := by
  induction h with
  | nil => exact Runs.nil _
  | snoc _ hstep ih =>
    rw [List.filterMap_append]
    cases hstep with
    | onNewConnection hbase | onNewConnectionError hbase | echoRead hbase | echoReadEnd hbase
    | sendResp _ hbase | onClose _ hbase => exact ih.snoc hbase
    | echoWriteCompleted =>
      rw [List.filterMap_cons_none rfl, List.filterMap_nil, List.append_nil]
      exact ih

theorem Linked.step (h : Linked s) {l : Uv.Label} {base : Uv.State}
    (hbase : Uv.Step s.base l base) : ∃ s', Step s (.loop l) s' ∧ s'.base = base := by
  cases l with
  | onNewConnection p => exact ⟨_, Step.onNewConnection hbase, rfl⟩
  | onNewConnectionError => exact ⟨_, Step.onNewConnectionError hbase, rfl⟩
  | echoRead p nread => exact ⟨_, Step.echoRead hbase, rfl⟩
  | echoReadEnd p => exact ⟨_, Step.echoReadEnd hbase, rfl⟩
  | sendResp i =>
    have hlt : i < s.works.length := by
      have hlen := congrArg List.length h.works
      rw [List.length_map, List.length_map] at hlen
      cases hbase with
      | sendResp hwork =>
        rw [hlen, hwork, List.length_append, List.length_cons]
        omega
    have hworks : s.works = s.works.take i ++ s.works[i] :: s.works.drop (i + 1) := by
      rw [← List.drop_eq_getElem_cons hlt, List.take_append_drop]
    have hlen : (s.works.take i).length = i := List.length_take_of_le (Nat.le_of_lt hlt)
    rw [← hlen] at hbase ⊢
    exact ⟨_, Step.sendResp hworks hbase, rfl⟩
  | onClose p =>
    have hsome : s.base.heap p ≠ none := by
      cases hbase with
      | onClose hp =>
        rw [hp]
        exact nofun
    obtain ⟨handle, hmem, rfl⟩ := List.mem_map.mp ((h.clients p).mpr hsome)
    obtain ⟨before, after, hclients⟩ := List.append_of_mem hmem
    exact ⟨_, Step.onClose hclients hbase, rfl⟩

theorem of_base_run {ls : List Uv.Label} {base : Uv.State} (h : Runs Uv.Step Uv.init ls base) :
    ∃ s, Runs Step init (ls.map Label.loop) s ∧ s.base = base := by
  obtain ⟨s, hrun, hbase, _⟩ := h.simulation (R := fun a s => s.base = a ∧ Linked s)
    (Q := fun _ => True) (f := Label.loop) (fun _ _ => trivial) ⟨rfl, Linked.init⟩ (by
      rintro a b l a' _ ⟨rfl, hl⟩ hstep
      obtain ⟨b', hb', hbase⟩ := hl.step hstep
      exact ⟨b', hb', hbase, hb'.linked hl⟩)
  exact ⟨s, hrun, hbase⟩

end Model

section Answered

def Label.isData : Label → Bool
  | .loop (.echoRead _ nread) => decide (0 < nread)
  | _ => false

theorem Step.answered (hstep : Step s l s') : s'.answered.length + s'.works.length =
    s.answered.length + s.works.length + if l.isData then 1 else 0 := by
  cases hstep with
  | onNewConnection | onNewConnectionError | echoReadEnd | onClose | echoWriteCompleted => rfl
  | @echoRead base p nread =>
    by_cases hpos : 0 < nread
    · have hdata : (Label.loop (.echoRead p nread)).isData = true := decide_eq_true hpos
      rw [hdata, echoRead_data hpos]
      dsimp only [dispatchWork, allocBuffer, State.malloc]
      rw [List.length_append, if_pos rfl]
      rfl
    · have hdata : (Label.loop (.echoRead p nread)).isData = false := decide_eq_false hpos
      rw [hdata, echoRead_nothing (by omega)]
      rfl
  | sendResp hworks =>
    dsimp only [Label.isData]
    rw [hworks, sendResp_answered, sendResp_works]
    simp only [List.length_append, List.length_cons, List.length_nil, Bool.false_eq_true, if_false]
    omega

theorem answered_add_works {ls : List Label} (h : Runs Step init ls s) :
    s.answered.length + s.works.length = ls.countP Label.isData := by
  induction h with
  | nil => rfl
  | snoc _ hstep ih =>
    rw [List.countP_append, List.countP_singleton, ← ih]
    exact hstep.answered

/-- What is queued, and was answered, is a `uv_echo_work_t`. -/
structure Sorted (s : State) : Prop where
  works : ∀ w ∈ s.works, w.req.kind = .echoWork
  answered : ∀ b ∈ s.answered, b.kind = .echoWork

theorem Step.sorted (hstep : Step s l s') (h : Sorted s) : Sorted s' := by
  cases hstep with
  | onNewConnection | onNewConnectionError | onClose | echoWriteCompleted | echoReadEnd =>
    exact ⟨h.works, h.answered⟩
  | @echoRead base p nread =>
    unfold Blocks.echoRead
    split
    · refine ⟨?_, h.answered⟩
      intro w hw
      cases List.mem_append.mp hw with
      | inl hold => exact h.works w hold
      | inr hnew =>
        rw [List.mem_singleton.mp hnew]
        rfl
    · exact ⟨h.works, h.answered⟩
  | @sendResp base before after wreq hworks =>
    constructor
    · intro w hw
      dsimp only at hw
      rw [sendResp_works] at hw
      apply h.works w
      rw [hworks]
      cases List.mem_append.mp hw with
      | inl hbefore => exact List.mem_append_left _ hbefore
      | inr hafter => exact List.mem_append_right _ (List.mem_cons_of_mem _ hafter)
    · intro b hb
      dsimp only at hb
      rw [sendResp_answered] at hb
      cases List.mem_append.mp hb with
      | inl hold => exact h.answered b hold
      | inr hnew =>
        rw [List.mem_singleton.mp hnew]
        apply h.works wreq
        rw [hworks]
        exact List.mem_append_right _ List.mem_cons_self

theorem Step.refused (hstep : Step s l s') (h : s.answered = [] → s.refused = []) :
    s'.answered = [] → s'.refused = [] := by
  cases hstep with
  | onNewConnection | onNewConnectionError | onClose | echoWriteCompleted | echoReadEnd => exact h
  | echoRead =>
    unfold Blocks.echoRead
    split <;> exact h
  | sendResp =>
    intro hnone
    dsimp only at hnone
    rw [sendResp_answered] at hnone
    exact absurd hnone (List.append_ne_nil_of_right_ne_nil _ (List.cons_ne_nil _ _))

end Answered

section Quiescent

/-- No request is queued, no write is under way, and every client that was closed is gone. -/
structure Quiescent (s : State) : Prop where
  works : s.works = []
  writes : s.writes = []
  closes : ∀ p c, s.base.heap p = some c → c.closed = false

/-- The block is a client that was not closed. -/
def Open (s : State) (b : Block) : Prop :=
  ∃ h ∈ s.clients, h.block = b ∧ ∃ c, s.base.heap h.ptr = some c ∧ c.closed = false

/-- Every block but for the open clients was freed once. -/
def FreedOnce (s : State) : Prop :=
  ∀ b ∈ s.ledger.allocated, ¬Open s b → s.ledger.freed.count b = 1

theorem Quiescent.left (h : Quiescent s) :
    held s = s.clients.map Handle.block ++ (s.answered ++ s.refused) := by
  unfold Blocks.held
  rw [h.works, h.writes, List.flatMap_nil, List.flatMap_nil, List.append_nil, List.append_nil]

theorem Quiescent.open (h : Quiescent s) (hl : Linked s) (hb : b ∈ s.clients.map Handle.block) :
    Open s b := by
  obtain ⟨handle, hmem, rfl⟩ := List.mem_map.mp hb
  have hsome := (hl.clients handle.ptr).mp (List.mem_map_of_mem hmem)
  obtain ⟨c, hc⟩ := Option.ne_none_iff_exists'.mp hsome
  exact ⟨handle, hmem, rfl, c, hc, h.closes handle.ptr c hc⟩

theorem Quiescent.freed (h : Quiescent s) (hl : Linked s) (hbook : Booked s [])
    (hb : b ∈ s.ledger.allocated) (hopen : ¬Open s b) (hnot : b ∉ s.answered ++ s.refused) :
    s.ledger.freed.count b = 1 := by
  apply hbook.balanced.freed_once hb
  rw [List.nil_append, h.left, List.mem_append, not_or]
  exact ⟨fun hin => hopen (h.open hl hin), hnot⟩

theorem Quiescent.not_freed (h : Quiescent s) (hbook : Booked s [])
    (hb : b ∈ s.answered ++ s.refused) :
    b ∈ s.ledger.allocated ∧ ¬Open s b ∧ s.ledger.freed.count b = 0 := by
  have hmem : b ∈ [] ++ held s := by
    rw [List.nil_append, h.left]
    exact List.mem_append_right _ hb
  obtain ⟨halloc, hfreed, hone⟩ := hbook.balanced.of_held hmem
  refine ⟨halloc, ?_, hfreed⟩
  rintro ⟨handle, hin, rfl, _⟩
  have hclient : 0 < (s.clients.map Handle.block).count handle.block :=
    List.count_pos_iff.mpr (List.mem_map_of_mem hin)
  have hleft : 0 < (s.answered ++ s.refused).count handle.block := List.count_pos_iff.mpr hb
  rw [List.nil_append, h.left, List.count_append] at hone
  omega

end Quiescent

section Runs

/-- In every run, once no request, write or close is pending: every block but for the open
clients was freed once if and only if no read returned data; and in any case every buffer,
`uv_write_t` and closed client was, but for those passed to a `uv_write` that failed. -/
theorem blocks_freed_iff (ls : List Label) (s : State) (hrun : Runs Step init ls s)
    (hquiet : Quiescent s) : (FreedOnce s ↔ ∀ l ∈ ls, l.isData = false) ∧
      ∀ b ∈ s.ledger.allocated, b.kind ≠ .echoWork → ¬Open s b →
        (s.ledger.freed.count b = 1 ↔ b ∉ s.refused) := by
  have hlinked := hrun.invariant (P := Linked) Linked.init fun _ _ _ h hstep => hstep.linked h
  have hbooked := hrun.invariant (P := fun a => Booked a []) Booked.init
    fun _ _ _ h hstep => hstep.booked h
  have hsorted := hrun.invariant (P := Sorted) ⟨nofun, nofun⟩ fun _ _ _ h hstep => hstep.sorted h
  have hrefused := hrun.invariant (P := fun a => a.answered = [] → a.refused = []) (fun _ => rfl)
    fun _ _ _ h hstep => hstep.refused h
  have hcount := answered_add_works hrun
  rw [hquiet.works, List.length_nil, Nat.add_zero] at hcount
  refine ⟨⟨?_, ?_⟩, ?_⟩
  · intro hfreed l hl
    by_contra hdata
    have hpos : 0 < ls.countP Label.isData :=
      List.countP_pos_iff.mpr ⟨l, hl, by simpa using hdata⟩
    obtain ⟨b, hb⟩ := List.exists_mem_of_length_pos (hcount ▸ hpos)
    obtain ⟨halloc, hopen, hzero⟩ := hquiet.not_freed hbooked (List.mem_append_left _ hb)
    have hone := hfreed b halloc hopen
    omega
  · intro hnone b hb hopen
    apply hquiet.freed hlinked hbooked hb hopen
    have hzero : ls.countP Label.isData = 0 := by
      rw [List.countP_eq_zero]
      intro l hl
      rw [hnone l hl]
      exact Bool.false_ne_true
    have hanswered := List.length_eq_zero_iff.mp (hcount.trans hzero)
    rw [hanswered, hrefused hanswered]
    exact List.not_mem_nil
  · intro b hb hkind hopen
    constructor
    · intro hone hin
      obtain ⟨_, _, hzero⟩ := hquiet.not_freed hbooked (List.mem_append_right _ hin)
      omega
    · intro hnot
      apply hquiet.freed hlinked hbooked hb hopen
      rw [List.mem_append, not_or]
      exact ⟨fun hin => hkind (hsorted.answered b hin), hnot⟩

/-- A client connects and leaves. -/
theorem blocks_freed_none : ∃ s, Runs Step init [.loop (.onNewConnection 0), .loop (.echoReadEnd 0),
    .loop (.onClose 0)] s ∧ FreedOnce s := by
  have haccept := Runs.single (s := init) (l := Label.loop (.onNewConnection 0))
    (Step.onNewConnection (Uv.Step.accept rfl))
  have hend := haccept.snoc (l := Label.loop (.echoReadEnd 0))
    (Step.echoReadEnd (Uv.Step.readEnd rfl rfl))
  have hclosed := hend.snoc (l := Label.loop (.onClose 0))
    (@Step.onClose _ _ [] [] 0 ⟨.client, 0⟩ rfl (Uv.Step.onClose rfl rfl))
  have hlinked := hclosed.invariant (P := Linked) Linked.init fun _ _ _ h hstep => hstep.linked h
  refine ⟨_, hclosed, (blocks_freed_iff _ _ hclosed ⟨rfl, rfl, ?_⟩).1.mpr (by decide)⟩
  intro p c hc
  have hsome := (hlinked.clients p).mpr (Option.ne_none_iff_exists'.mpr ⟨c, hc⟩)
  cases hsome

/-- A client sends a byte, which is answered. The `uv_echo_work_t` is left. -/
theorem echo_work_leaked : ¬∀ ls s, Runs Step init ls s → Quiescent s → FreedOnce s := by
  intro hall
  have haccept := Runs.single (s := init) (l := Label.loop (.onNewConnection 0))
    (Step.onNewConnection (Uv.Step.accept rfl))
  have hread := haccept.snoc (l := Label.loop (.echoRead 0 1))
    (Step.echoRead (Uv.Step.read rfl rfl Nat.one_pos))
  have hanswer := hread.snoc (l := Label.loop (.sendResp 0))
    (@Step.sendResp _ _ [] [] ⟨⟨.echoWork, 2⟩, 0, ⟨.buffer, 1⟩⟩ rfl
      (@Uv.Step.sendResp _ [] [] ⟨0, ⟨0, 0, 1⟩⟩ rfl))
  have hwritten := hanswer.snoc (l := Label.echoWriteCompleted 0)
    (@Step.echoWriteCompleted _ [] [] ⟨⟨.writeReq, 3⟩, ⟨.buffer, 1⟩⟩ rfl)
  have hfreed := hall _ _ hwritten ⟨rfl, rfl, ?_⟩ ⟨.echoWork, 2⟩ (by decide) ?_
  · revert hfreed
    decide
  · intro p c hc
    by_cases hp : p = 0
    · rw [hp] at hc
      cases hc
      rfl
    · have hnone := update_of_ne hp (some (⟨0, false⟩ : Client)) fun _ => none
      cases hnone.symm.trans hc
  · rintro ⟨handle, hmem, hblock, _⟩
    have hclient : handle = ⟨0, ⟨.client, 0⟩⟩ := List.mem_singleton.mp hmem
    rw [hclient] at hblock
    cases hblock

end Runs

end OsCourse.Uv.Blocks
