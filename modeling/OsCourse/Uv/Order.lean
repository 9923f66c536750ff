import Mathlib.Algebra.Order.Ring.Nat
import Mathlib.Data.List.Infix
import OsCourse.Lib.Transition
import OsCourse.Uv.Model

/-! The order of the bytes written to a client: it is that of the bytes read as long as the
work items of the client complete in the order in which they were queued. -/
namespace OsCourse.Uv
open Function Transition

section Bytes
variable {k p n m : Nat} {b : Buf} {xs ys : List (Nat × Nat)}

/-- Where the bytes of a buffer come from: a connection, and a place in its stream. -/
def Buf.origins (b : Buf) : List (Nat × Nat) := (List.range b.len).map fun i => (b.conn, b.start + i)

/-- The contents of a buffer, when the clients send the streams `stream`. -/
def Buf.bytes (stream : Nat → Nat → UInt8) (b : Buf) : List UInt8 :=
  b.origins.map fun o => stream o.1 o.2

def State.readSoFar (s : State) (k : Nat) : Buf := ⟨k, 0, s.read k⟩

def State.bytesWritten (stream : Nat → Nat → UInt8) (s : State) (k : Nat) : List UInt8 :=
  (s.written k).flatMap (Buf.bytes stream)

/-- Whatever the clients send, what is written to one is a prefix of what was read from it. -/
def InOrder (s : State) : Prop :=
  ∀ stream k, s.bytesWritten stream k <+: (s.readSoFar k).bytes stream

theorem Buf.length_origins (b : Buf) : b.origins.length = b.len := by
  unfold Buf.origins
  rw [List.length_map, List.length_range]

theorem Buf.origins_add : Buf.origins ⟨k, p, m + n⟩ =
    Buf.origins ⟨k, p, m⟩ ++ Buf.origins ⟨k, p + m, n⟩ := by
  unfold Buf.origins
  rw [List.range_add, List.map_append, List.map_map]
  congr 1
  apply List.map_congr_left
  intro i _
  rw [Function.comp_apply, Nat.add_assoc]

theorem Buf.origins_getElem? (h : n < b.len) : b.origins[n]? = some (b.conn, b.start + n) := by
  unfold Buf.origins
  rw [List.getElem?_map, List.getElem?_range h]
  rfl

theorem Buf.origin_after (xs : List (Nat × Nat)) (hb : 0 < b.len) :
    (xs ++ b.origins)[xs.length]? = some (b.conn, b.start) := by
  rw [List.getElem?_append_right (le_refl _), Nat.sub_self, Buf.origins_getElem? hb]
  rfl

theorem Buf.start_of_origins (hb : 0 < b.len)
    (h : xs ++ b.origins ++ ys = Buf.origins ⟨k, 0, n⟩) : b.conn = k ∧ b.start = xs.length := by
  have hlen := congrArg List.length h
  rw [List.length_append, List.length_append, Buf.length_origins, Buf.length_origins] at hlen
  have hat : xs.length < (xs ++ b.origins).length := by
    rw [List.length_append, Buf.length_origins]
    omega
  have hget := congrArg (fun l => l[xs.length]?) h
  dsimp only at hget hlen
  rw [List.getElem?_append_left hat, Buf.origin_after xs hb,
    Buf.origins_getElem? (by dsimp only; omega)] at hget
  simp only [Option.some.injEq, Prod.mk.injEq] at hget
  omega

/-- The streams tell the buffers apart: one of them has a byte of its own at the place where
the next buffer must begin. -/
theorem Buf.start_of_prefix (hb : 0 < b.len)
    (h : ∀ stream : Nat → Nat → UInt8, (xs ++ b.origins).map (fun o => stream o.1 o.2) <+:
      Buf.bytes stream ⟨k, 0, n⟩) : b.conn = k ∧ b.start = xs.length := by
  obtain ⟨ys, hmark⟩ := h fun c i => if c = k ∧ i = xs.length then 1 else 0
  have hlen := congrArg List.length hmark
  unfold Buf.bytes at hmark hlen
  rw [List.length_append, List.length_map, List.length_map, List.length_append,
    Buf.length_origins, Buf.length_origins] at hlen
  have hat : xs.length < (xs ++ b.origins).length := by
    rw [List.length_append, Buf.length_origins]
    omega
  have hget := congrArg (fun l => l[xs.length]?) hmark
  dsimp only at hget hlen
  rw [List.getElem?_append_left (by rwa [List.length_map]), List.getElem?_map,
    List.getElem?_map, Buf.origin_after xs hb,
    Buf.origins_getElem? (by dsimp only; omega)] at hget
  by_contra hne
  simp [hne] at hget

end Bytes

section Invariant
variable {s s' : State} {l : Label} {p q k nread : Nat} {c : Client} {wreq : EchoWork}
  {before after : List EchoWork}

/-- The buffers of a connection in some work items, in the order of these. -/
def pending (work : List EchoWork) (k : Nat) : List Buf :=
  (work.map EchoWork.buf).filter fun b => b.conn = k

theorem pending_append (v w : List EchoWork) : pending (v ++ w) k = pending v k ++ pending w k := by
  unfold pending
  rw [List.map_append, List.filter_append]

theorem pending_self (h : wreq.buf.conn = k) : pending [wreq] k = [wreq.buf] := by
  simp [pending, h]

theorem pending_ne (h : wreq.buf.conn ≠ k) : pending [wreq] k = [] := by
  simp [pending, h]

theorem pending_eq_nil {work : List EchoWork} (h : ∀ w ∈ work, w.buf.conn ≠ k) :
    pending work k = [] := by
  simpa [pending] using h

theorem pending_cons : pending (before ++ wreq :: after) k =
    pending before k ++ (pending [wreq] k ++ pending after k) := by
  rw [← List.singleton_append, pending_append, pending_append]

/-- Connections have one handle, buffers hold consecutive parts of their streams, and what
is written to a connection together with what is pending is, while it is open, what was
read from it. -/
structure Inv (s : State) : Prop where
  fresh : ∀ p c, s.heap p = some c → c.conn < s.conns
  unread : ∀ k, s.conns ≤ k → s.read k = 0 ∧ s.written k = []
  unique : ∀ p q c d, s.heap p = some c → s.heap q = some d → c.conn = d.conn → p = q
  items : ∀ w ∈ s.work, 0 < w.buf.len ∧ w.buf.conn < s.conns ∧
    ∀ p c, s.heap p = some c → c.conn = w.buf.conn → w.client = p
  ordered : ∀ k, (s.written k).flatMap Buf.origins <+: (s.readSoFar k).origins
  whole : ∀ p c, s.heap p = some c → c.closed = false →
    (s.written c.conn ++ pending s.work c.conn).flatMap Buf.origins =
      (s.readSoFar c.conn).origins

theorem Inv.init : Inv init where
  fresh := nofun
  unread := fun _ _ => ⟨rfl, rfl⟩
  unique := nofun
  items := nofun
  ordered := fun _ => List.nil_prefix
  whole := nofun

theorem Inv.inOrder (h : Inv s) : InOrder s := by
  intro stream k
  have hmap := (h.ordered k).map fun o : Nat × Nat => stream o.1 o.2
  rwa [List.map_flatMap] at hmap

theorem Inv.accept (h : Inv s) (closed : Bool) :
    Inv { s with heap := update s.heap p (some ⟨s.conns, closed⟩), conns := s.conns + 1 } where
  fresh := by
    intro q d hq
    cases update_cases hq with
    | inl hself =>
      cases hself.2
      exact Nat.lt_succ_self s.conns
    | inr hold => exact Nat.lt_succ_of_lt (h.fresh q d hold.2)
  unread := fun k hk => h.unread k (Nat.le_of_succ_le hk)
  unique := by
    intro q r d e hq hr he
    cases update_cases hq with
    | inl hself =>
      cases hself.2
      cases update_cases hr with
      | inl hself' => exact hself.1.trans hself'.1.symm
      | inr hold' => exact absurd he.symm (h.fresh r e hold'.2).ne
    | inr hold =>
      cases update_cases hr with
      | inl hself' =>
        cases hself'.2
        exact absurd he (h.fresh q d hold.2).ne
      | inr hold' => exact h.unique q r d e hold.2 hold'.2 he
  items := by
    intro w hw
    obtain ⟨hlen, hconn, hhandle⟩ := h.items w hw
    refine ⟨hlen, Nat.lt_succ_of_lt hconn, ?_⟩
    intro q d hq he
    cases update_cases hq with
    | inl hself =>
      cases hself.2
      exact absurd he.symm hconn.ne
    | inr hold => exact hhandle q d hold.2 he
  ordered := h.ordered
  whole := by
    intro q d hq hd
    cases update_cases hq with
    | inl hself =>
      cases hself.2
      obtain ⟨hread, hwritten⟩ := h.unread s.conns (le_refl _)
      dsimp only [State.readSoFar]
      rw [hread, hwritten, pending_eq_nil fun w hw => (h.items w hw).2.1.ne]
      rfl
    | inr hold => exact h.whole q d hold.2 hd

theorem Inv.read (h : Inv s) (hp : s.heap p = some c) (hn : 0 < nread) :
    Inv { s with
      work := s.work ++ [⟨p, ⟨c.conn, s.read c.conn, nread⟩⟩]
      read := update s.read c.conn (s.read c.conn + nread) } where
  fresh := h.fresh
  unread := by
    intro k hk
    have hne : k ≠ c.conn := by
      have hlt := h.fresh p c hp
      dsimp only at hk
      omega
    dsimp only
    rw [update_of_ne hne]
    exact h.unread k hk
  unique := h.unique
  items := by
    intro w hw
    cases List.mem_append.mp hw with
    | inl hw => exact h.items w hw
    | inr hw =>
      rw [List.mem_singleton] at hw
      subst hw
      exact ⟨hn, h.fresh p c hp, fun q d hq he => h.unique p q c d hp hq he.symm⟩
  ordered := by
    intro k
    refine (h.ordered k).trans ?_
    dsimp only [State.readSoFar]
    by_cases hk : k = c.conn
    · rw [hk, update_self, Buf.origins_add]
      exact List.prefix_append _ _
    · rw [update_of_ne hk]
  whole := by
    intro q d hq hd
    have hold := h.whole q d hq hd
    dsimp only [State.readSoFar] at hold ⊢
    rw [pending_append, ← List.append_assoc, List.flatMap_append, hold]
    by_cases hk : c.conn = d.conn
    · rw [hk, update_self, pending_self rfl, Buf.origins_add, List.flatMap_singleton,
        Nat.zero_add]
    · rw [update_of_ne (Ne.symm hk), pending_ne hk, List.flatMap_nil, List.append_nil]

theorem Inv.shrink (h : Inv s) {heap : Nat → Option Client}
    (hheap : ∀ q d, heap q = some d → ∃ e, s.heap q = some e ∧ e.conn = d.conn ∧
      (d.closed = false → e = d)) : Inv { s with heap := heap } where
  fresh := by
    intro q d hq
    obtain ⟨e, he, hconn, _⟩ := hheap q d hq
    rw [← hconn]
    exact h.fresh q e he
  unread := h.unread
  unique := by
    intro q r d d' hq hr hd
    obtain ⟨e, he, hconn, _⟩ := hheap q d hq
    obtain ⟨e', he', hconn', _⟩ := hheap r d' hr
    apply h.unique q r e e' he he'
    rw [hconn, hd, hconn']
  items := by
    intro w hw
    obtain ⟨hlen, hlt, hhandle⟩ := h.items w hw
    refine ⟨hlen, hlt, ?_⟩
    intro q d hq hd
    obtain ⟨e, he, hconn, _⟩ := hheap q d hq
    exact hhandle q e he (hconn.trans hd)
  ordered := h.ordered
  whole := by
    intro q d hq hd
    obtain ⟨e, he, _, hsame⟩ := hheap q d hq
    rw [hsame hd] at he
    exact h.whole q d he hd

/-- The item whose callback comes is, if its client can be written to, of this client, and
the first of it in the queue. -/
def First (s : State) (before : List EchoWork) (wreq : EchoWork) : Prop :=
  ∀ c, s.heap wreq.client = some c → c.closed = false →
    wreq.buf.conn = c.conn ∧ ∀ w ∈ before, w.buf.conn ≠ c.conn

theorem Inv.pending_first (h : Inv s) (hwork : s.work = before ++ wreq :: after)
    (hfirst : First s before wreq) (hp : s.heap p = some c) (hopen : c.closed = false) :
    uvWrite (s.heap wreq.client) wreq.buf s.written c.conn ++ pending (before ++ after) c.conn =
      s.written c.conn ++ pending s.work c.conn := by
  rw [hwork, pending_cons, pending_append]
  by_cases hconn : wreq.buf.conn = c.conn
  · have hclient : wreq.client = p :=
      (h.items wreq (by rw [hwork]; simp)).2.2 p c hp hconn.symm
    rw [← hclient] at hp
    have hbefore := pending_eq_nil (hfirst c hp hopen).2
    rw [hp, hbefore, pending_self hconn, uvWrite_self hopen, List.append_assoc, List.nil_append,
      List.nil_append]
  · rw [pending_ne hconn, List.nil_append, uvWrite_of_ne]
    intro d hd hdopen
    rw [← (hfirst d hd hdopen).1]
    exact hconn

theorem Inv.sendResp (h : Inv s) (hwork : s.work = before ++ wreq :: after)
    (hfirst : First s before wreq) :
    Inv { s with
      work := before ++ after
      written := uvWrite (s.heap wreq.client) wreq.buf s.written } where
  fresh := h.fresh
  unread := by
    intro k hk
    obtain ⟨hread, hwritten⟩ := h.unread k hk
    refine ⟨hread, ?_⟩
    dsimp only at hk ⊢
    rw [uvWrite_of_ne, hwritten]
    intro d hd _
    have hlt := h.fresh _ d hd
    omega
  unique := h.unique
  items := by
    intro w hw
    apply h.items w
    exact mem_work hwork hw
  ordered := by
    intro k
    by_cases hto : ∃ d, s.heap wreq.client = some d ∧ d.closed = false ∧ d.conn = k
    · obtain ⟨d, hd, hopen, rfl⟩ := hto
      have hwhole := h.whole _ d hd hopen
      rw [← h.pending_first hwork hfirst hd hopen, List.flatMap_append] at hwhole
      exact ⟨_, hwhole⟩
    · dsimp only
      rw [uvWrite_of_ne]
      · exact h.ordered k
      · intro d hd hopen hconn
        exact hto ⟨d, hd, hopen, hconn⟩
  whole := by
    intro q d hq hopen
    dsimp only
    rw [h.pending_first hwork hfirst hq hopen]
    exact h.whole q d hq hopen

def Oldest (s : State) : Label → Prop
  | .sendResp i => ∀ wreq, s.work[i]? = some wreq → First s (s.work.take i) wreq
  | .onNewConnection _ | .onNewConnectionError | .echoRead _ _ | .echoReadEnd _ | .onClose _ =>
    True

theorem oldest_iff (hwork : s.work = before ++ wreq :: after) :
    Oldest s (.sendResp before.length) ↔ First s before wreq := by
  dsimp only [Oldest]
  rw [getElem?_work hwork, hwork, List.take_left]
  exact ⟨fun h => h wreq rfl, fun h w hw => Option.some_inj.mp hw ▸ h⟩

theorem Step.inv (h : Step s l s') (ho : Oldest s l) (hi : Inv s) : Inv s' := by
  cases h with
  | accept => exact hi.accept false
  | acceptFails => exact hi.accept true
  | connectionError | readNothing => exact hi
  | read hp _ hn => exact hi.read hp hn
  | @readEnd p c hp hopen =>
    apply hi.shrink
    intro q d hq
    cases update_cases hq with
    | inl hself =>
      obtain ⟨rfl, hd⟩ := hself
      cases hd
      exact ⟨c, hp, rfl, nofun⟩
    | inr hold => exact ⟨d, hold.2, rfl, fun _ => rfl⟩
  | sendResp hwork => exact hi.sendResp hwork ((oldest_iff hwork).mp ho)
  | onClose hp _ =>
    apply hi.shrink
    intro q d hq
    cases update_cases hq with
    | inl hself => cases hself.2
    | inr hold => exact ⟨d, hold.2, rfl, fun _ => rfl⟩

/-- A callback that comes too early, or to a client that is not its own, writes bytes that
are not the next ones. -/
theorem oldest_of_inOrder (h : Step s l s') (hi : Inv s) (ho : InOrder s') : Oldest s l := by
  cases h with
  | accept | acceptFails | connectionError | read | readNothing | readEnd | onClose => trivial
  | @sendResp before after wreq hwork =>
    rw [oldest_iff hwork]
    intro c hc hopen
    obtain ⟨hlen, _, _⟩ := hi.items wreq (by rw [hwork]; simp)
    have hstart : wreq.buf.conn = c.conn ∧
        wreq.buf.start = ((s.written c.conn).flatMap Buf.origins).length := by
      apply Buf.start_of_prefix (n := s.read c.conn) hlen
      intro stream
      have hbegins := ho stream c.conn
      dsimp only [State.bytesWritten] at hbegins
      rw [hc, uvWrite_self hopen, List.flatMap_append, List.flatMap_singleton] at hbegins
      rw [List.map_append, List.map_flatMap]
      exact hbegins
    refine ⟨hstart.1, ?_⟩
    intro v hv hconn
    have hwhole := hi.whole _ c hc hopen
    rw [hwork, pending_cons, pending_self hstart.1, ← List.append_assoc, ← List.append_assoc,
      List.flatMap_append, List.flatMap_append, List.flatMap_singleton] at hwhole
    have hplace := (Buf.start_of_origins hlen hwhole).2
    rw [List.flatMap_append, List.length_append, hstart.2] at hplace
    obtain ⟨hvlen, _⟩ := hi.items v (by rw [hwork]; exact List.mem_append_left _ hv)
    have hmem : v.buf ∈ pending before c.conn :=
      List.mem_filter.mpr ⟨List.mem_map_of_mem hv, decide_eq_true hconn⟩
    have hnone : (pending before c.conn).flatMap Buf.origins = [] := by
      apply List.eq_nil_of_length_eq_zero
      omega
    have hvnone := congrArg List.length (List.flatMap_eq_nil_iff.mp hnone v.buf hmem)
    rw [Buf.length_origins] at hvnone
    exact absurd hvnone hvlen.ne'

end Invariant

/-- The runs in which the work items of each client complete in the order in which they were
queued are those in which, whatever the clients send, what is written to each of them is at
all times a prefix of what was read from it. -/
theorem echo_in_order_iff (ls : List Label) (s : State) :
    Runs (fun a l b => Step a l b ∧ Oldest a l) init ls s ↔
      Runs (fun a l b => Step a l b ∧ InOrder b) init ls s := by
  apply Runs.iff_of (P := Inv) (Q := Inv)
  · exact Inv.init
  · exact Inv.init
  · rintro a l b hi ⟨hstep, ho⟩
    have hi' := hstep.inv ho hi
    exact ⟨⟨hstep, hi'.inOrder⟩, hi'⟩
  · rintro a l b hi ⟨hstep, hb⟩
    have ho := oldest_of_inOrder hstep hi hb
    exact ⟨⟨hstep, ho⟩, hstep.inv ho hi⟩

/-- A client's bytes are read one by one, and the second is written back first. -/
theorem second_byte_first : ¬∀ (ls : List Label) (s : State), Runs Step init ls s → InOrder s := by
  intro hall
  have haccept := Runs.single (s := init) (l := Label.onNewConnection 0) (Step.accept rfl)
  have hread1 := haccept.snoc (l := Label.echoRead 0 1) (Step.read rfl rfl Nat.one_pos)
  have hread2 := hread1.snoc (l := Label.echoRead 0 1) (Step.read rfl rfl Nat.one_pos)
  have hsecond := hread2.snoc (l := Label.sendResp 1)
    (@Step.sendResp _ [⟨0, ⟨0, 0, 1⟩⟩] [] ⟨0, ⟨0, 1, 1⟩⟩ rfl)
  have hbegins := hall _ _ hsecond (fun _ i => if i = 0 then 65 else 66) 0
  revert hbegins
  decide

end OsCourse.Uv
