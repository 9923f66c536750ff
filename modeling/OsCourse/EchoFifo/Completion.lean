import OsCourse.EchoFifo.Asking
import OsCourse.Lib.Exchange

/-! Finitely many clients of a server that is up: all of them print their own texts and come to
their ends. -/
namespace OsCourse.EchoFifo
open Bytes Calls Exchange Fifos Function Transition

def ClientPc.isDone : ClientPc → Bool
  | .done => true
  | _ => false

/-- The server is at its `read`, and there is nothing to read. -/
def State.idle (s : State) : Bool :=
  match s.server with
  | .reading fd => (s.files.fifos fd).bytes.isEmpty
  | _ => false

def State.Ended (clients : Finset Int32) (s : State) : Prop :=
  (∀ p ∈ clients, (s.client p).isDone = true) ∧ s.idle = true

instance (clients : Finset Int32) (s : State) : Decidable (s.Ended clients) :=
  inferInstanceAs (Decidable (_ ∧ _))

def State.result (clients : Finset Int32) (s : State) : Option (Int32 → List (List UInt8)) :=
  if s.Ended clients then some s.printed else none

inductive CStep (room : Nat → Nat → Bool) (niters : Nat) (clients : Finset Int32) :
    State → Proc → State → Prop
  | server {s s' : State} : Step room niters s .server s' →
      CStep room niters clients s .server s'
  | client {s s' : State} {p : Int32} : p ∈ clients → Step room niters s (.client p) s' →
      CStep room niters clients s (.client p) s'

section Weights

def ServerPc.weight : ServerPc → Nat
  | .opening _ _ => 3
  | .writing _ _ _ => 2
  | .closing _ _ | .failing _ => 1
  | _ => 0

/-- The steps before a client of `n` iterations, and the bytes that it sends. -/
def ClientPc.weight (n : Nat) : ClientPc → Nat
  | .start => 262 * n + 6
  | .making _ => 262 * n + 5
  | .creating _ => 262 * n + 4
  | .writing _ _ i => 262 * (n + 1 - i) + 3
  | .reading _ _ i => 262 * (n - i) + 4
  | .closing _ _ => 3
  | .closingOwn _ => 2
  | .unlinking => 1
  | .done | .failed | .killed => 0

def State.load (s : State) : Nat :=
  match s.server.fd with
  | some fd => (s.files.fifos fd).bytes.length
  | none => 0

def State.ahead (niters : Nat) (clients : Finset Int32) (s : State) : Nat :=
  s.server.weight + s.load + clients.sum fun p => (s.client p).weight niters

theorem weight_loopHead {n sfd cfd i : Nat} :
    (loopHead n sfd cfd i).weight n ≤ 262 * (n + 1 - i) + 3 := by
  unfold loopHead
  split
  · exact le_rfl
  · exact Nat.le_add_left 3 _

variable {s s' : State} {k : Nat}

theorem load_of (h : s.server.fd = some k) : s.load = (s.files.fifos k).bytes.length := by
  unfold State.load
  rw [h]

theorem load_le {n : Nat} (hserver : s'.server = s.server)
    (h : ∀ k, (s'.files.fifos k).bytes.length ≤ (s.files.fifos k).bytes.length + n) :
    s'.load ≤ s.load + n := by
  unfold State.load
  rw [hserver]
  split
  · exact h _
  · exact Nat.zero_le _

end Weights

section Clients
variable {room : Nat → Nat → Bool} {niters : Nat} {clients : Finset Int32} {s s' : State} {l : Proc}

theorem CStep.step (h : CStep room niters clients s l s') : Step room niters s l s' := by
  cases h with
  | server hs | client _ hs => exact hs

structure Going (niters : Nat) (clients : Finset Int32) (s : State) : Prop where
  inv : ∃ frames, Inv niters frames s
  up : ∃ fd, s.server.fd = some fd
  outside : ∀ p ∉ clients, s.client p = .start
  working : ∀ p, s.client p ≠ .failed

theorem ahead_server (hclient : s'.client = s.client)
    (h : s'.server.weight + s'.load + 1 ≤ s.server.weight + s.load) :
    s'.ahead niters clients + 1 ≤ s.ahead niters clients := by
  unfold State.ahead
  rw [hclient]
  omega

/-- A client goes on, and its weight falls by as much as the load of the server rises. -/
theorem ahead_client {p : Int32} {pc : ClientPc} {n : Nat} (hp : p ∈ clients)
    (hserver : s'.server = s.server) (hclient : s'.client = update s.client p pc)
    (hload : s'.load ≤ s.load + n)
    (hpc : pc.weight niters + n + 1 ≤ (s.client p).weight niters) :
    s'.ahead niters clients + 1 ≤ s.ahead niters clients := by
  have hmove := sum_move (f := fun q => (s.client q).weight niters)
    (g := fun q => (s'.client q).weight niters) hp fun q hq => by rw [hclient, update_of_ne hq]
  have hself : s'.client p = pc := by rw [hclient, update_self]
  rw [hself] at hmove
  unfold State.ahead
  rw [hserver]
  omega

theorem CStep.ahead (hi : Going niters clients s) (hn : niters < 2 ^ 31)
    (h : CStep room niters clients s l s') :
    s'.ahead niters clients + 1 ≤ s.ahead niters clients := by
  obtain ⟨frames, hinv⟩ := hi.inv
  obtain ⟨fd, hfd⟩ := hi.up
  cases h with
  | server h =>
    have hload := load_of hfd
    cases h with
    | srvMkfifo hpc | srvCreate hpc | srvNoFifo hpc =>
      rw [hpc] at hfd
      cases hfd
    | srvReadEnd hpc _ hnil =>
      rw [hpc] at hfd
      cases hfd
      have hw := (hinv.linked.service _ (by rw [hpc]; rfl)).2.2
      rw [hnil] at hw
      cases hw
    | @srvRead k msg hpc hne hmsg =>
      rw [hpc] at hfd
      cases hfd
      refine ahead_server rfl ?_
      have hpos := List.length_pos_iff.mpr hne
      have hself : (s.files.take fd msgSize).fifos fd = { s.files.fifos fd with
          bytes := (s.files.fifos fd).bytes.drop msgSize } := set_self
      have hlen : msg.length = min msgSize (s.files.fifos fd).bytes.length := by
        rw [hmsg, List.length_take]
      rw [hload, hpc, load_of (k := fd) (by dsimp only; split <;> rfl)]
      dsimp only
      rw [hself, List.length_drop]
      split
      · simp only [ServerPc.weight]
        unfold msgSize at *
        omega
      · simp only [ServerPc.weight]
        unfold msgSize at *
        omega
    | @srvOpen k cfd msg hpc =>
      rw [hpc] at hfd
      cases hfd
      refine ahead_server rfl ?_
      rw [hload, hpc, load_of (k := fd) rfl]
      dsimp only
      rw [openWrite_bytes]
      simp only [ServerPc.weight]
      omega
    | @srvNoClient k msg hpc =>
      rw [hpc] at hfd
      cases hfd
      refine ahead_server rfl ?_
      rw [hload, hpc, load_of (k := fd) rfl]
      simp only [ServerPc.weight]
      omega
    | @srvWrite k cfd msg hpc =>
      rw [hpc] at hfd
      cases hfd
      refine ahead_server rfl ?_
      have hne : cfd ≠ fd :=
        hinv.linked.ne_service (by rw [hpc]; rfl) (hinv.linked.answering _ _ _ hpc)
      have hsame : (s.files.put cfd msg).fifos fd = s.files.fifos fd := set_ne hne.symm
      rw [hload, hpc, load_of (k := fd) rfl]
      dsimp only
      rw [hsame]
      simp only [ServerPc.weight]
      omega
    | @srvPipe k cfd msg hpc =>
      refine ahead_server rfl ?_
      have hnone : State.load { s with
          files := (s.files.close cfd .server).close k .server, server := .killed } = 0 := rfl
      rw [hnone, hpc]
      simp only [ServerPc.weight]
      omega
    | @srvClose k cfd hpc =>
      rw [hpc] at hfd
      cases hfd
      refine ahead_server rfl ?_
      have hle : ((s.files.close cfd .server).fifos fd).bytes.length ≤
          (s.files.fifos fd).bytes.length := close_length_le fd
      rw [hload, hpc, load_of (k := fd) rfl]
      simp only [ServerPc.weight]
      omega
    | @srvExit k hpc =>
      refine ahead_server rfl ?_
      have hnone : State.load { s with
          files := s.files.close k .server, server := .done } = 0 := rfl
      rw [hnone, hpc]
      simp only [ServerPc.weight]
      omega
  | @client s' p hp h =>
    cases h with
    | @cliOpen _ sfd hpc =>
      refine ahead_client (n := 0) hp rfl rfl (load_le rfl fun k => ?_) ?_
      · dsimp only
        rw [openWrite_bytes]
        exact Nat.le_add_right _ _
      · rw [hpc]
        simp only [ClientPc.weight]
        omega
    | cliNoService hpc =>
      refine ahead_client (n := 0) hp rfl rfl (Nat.le_add_right _ _) ?_
      rw [hpc]
      simp only [ClientPc.weight]
      omega
    | @cliMkfifo _ sfd hpc =>
      refine ahead_client (n := 0) hp rfl rfl (load_le rfl fun k => ?_) ?_
      · dsimp only
        rw [hinv.linked.ok.mkfifo_fifos]
        exact Nat.le_add_right _ _
      · rw [hpc]
        simp only [ClientPc.weight]
        omega
    | @cliCreate _ sfd cfd hpc =>
      refine ahead_client (n := 0) hp rfl rfl (load_le rfl fun k => ?_) ?_
      · dsimp only
        rw [openBoth_bytes]
        exact Nat.le_add_right _ _
      · have hloop := @weight_loopHead niters sfd cfd 1
        rw [hpc]
        simp only [ClientPc.weight] at hloop ⊢
        omega
    | @cliNoFifo _ sfd hpc =>
      refine ahead_client (n := 0) hp rfl rfl (load_le rfl fun k => close_length_le k) ?_
      rw [hpc]
      simp only [ClientPc.weight]
      omega
    | @cliWrite _ sfd cfd i msg hpc hmsg =>
      have hi' : i ≤ niters := (hinv.told_at hpc).2.1
      have hlen : msg.length = 260 := hmsg ▸ length_setMsg (hinv.msg p) (by omega)
      refine ahead_client (n := 260) hp rfl rfl (load_le rfl fun k => ?_) ?_
      · rw [← hlen]
        exact put_length_le k
      · rw [hpc]
        simp only [ClientPc.weight]
        omega
    | @cliPipe _ sfd cfd i hpc =>
      refine ahead_client (n := 0) hp rfl rfl (load_le rfl fun k => ?_) ?_
      · exact (close_length_le k).trans (close_length_le k)
      · rw [hpc]
        simp only [ClientPc.weight]
        omega
    | @cliRead _ sfd cfd i resp hpc =>
      have hi' : i ≤ niters := (hinv.told_at hpc).2.1
      refine ahead_client (n := 0) hp rfl rfl (load_le rfl fun k => take_length_le k) ?_
      have hloop := @weight_loopHead niters sfd cfd (i + 1)
      rw [hpc]
      simp only [ClientPc.weight] at hloop ⊢
      omega
    | @cliReadEnd _ sfd cfd i hpc =>
      have hi' : i ≤ niters := (hinv.told_at hpc).2.1
      refine ahead_client (n := 0) hp rfl rfl (Nat.le_add_right _ _) ?_
      have hloop := @weight_loopHead niters sfd cfd (i + 1)
      rw [hpc]
      simp only [ClientPc.weight] at hloop ⊢
      omega
    | @cliClose _ sfd cfd hpc =>
      refine ahead_client (n := 0) hp rfl rfl (load_le rfl fun k => close_length_le k) ?_
      rw [hpc]
      exact le_rfl
    | cliCloseOwn hpc =>
      refine ahead_client (n := 0) hp rfl rfl (load_le rfl fun k => close_length_le k) ?_
      rw [hpc]
      exact le_rfl
    | cliUnlink hpc =>
      refine ahead_client (n := 0) hp rfl rfl (load_le rfl fun k => Nat.le_add_right _ _) ?_
      rw [hpc]
      exact le_rfl

theorem Step.fd_kept (h : Step room niters s l s') (hi : s'.server.runs = true) {fd : Nat}
    (hfd : s.server.fd = some fd) : s'.server.fd = some fd := by
  cases h with
  | srvMkfifo hpc | srvCreate hpc | srvNoFifo hpc =>
    rw [hpc] at hfd
    cases hfd
  | srvRead hpc =>
    rw [hpc] at hfd
    dsimp only
    split <;> exact hfd
  | srvReadEnd => exact hfd
  | srvOpen hpc | srvWrite hpc | srvClose hpc =>
    rw [hpc] at hfd
    exact hfd
  | srvNoClient | srvPipe | srvExit => cases hi
  | _ => exact hfd

theorem Step.works (h : Step room niters s l s') (hi : Linked s.files s.server s.client) {fd : Nat}
    (hfd : s.server.fd = some fd) (hw : ∀ p, s.client p ≠ .failed) (p : Int32) :
    s'.client p ≠ .failed := by
  have hmove : ∀ {q : Int32} {pc : ClientPc}, pc ≠ .failed → update s.client q pc p ≠ .failed := by
    intro q pc hpc
    by_cases hq : p = q
    · rw [hq, update_self]
      exact hpc
    · rw [update_of_ne hq]
      exact hw p
  have hloop : ∀ sfd cfd i, loopHead niters sfd cfd i ≠ .failed := by
    intro sfd cfd i
    unfold loopHead
    split <;> simp
  cases h with
  | cliNoService _ hnone => cases hnone.symm.trans (hi.service fd hfd).1
  | cliNoFifo hpc hnone =>
    obtain ⟨k, hk⟩ := hi.made _ _ hpc
    cases hnone.symm.trans hk
  | cliCreate | cliRead | cliReadEnd => exact hmove (hloop _ _ _)
  | cliOpen | cliMkfifo | cliWrite | cliPipe | cliClose | cliCloseOwn | cliUnlink =>
    exact hmove (by simp)
  | _ => exact hw p

theorem CStep.outside (h : CStep room niters clients s l s')
    (hi : ∀ p ∉ clients, s.client p = .start) (p : Int32) (hp : p ∉ clients) : s'.client p = .start := by
  cases h with
  | server h => cases h <;> exact hi p hp
  | @client _ q hq h =>
    have hne : p ≠ q := fun he => hp (he ▸ hq)
    cases h <;> exact (update_of_ne hne _ s.client).trans (hi p hp)

theorem CStep.going (h : CStep room niters clients s l s') (hn : niters < 2 ^ 31)
    (hi : Going niters clients s) : Going niters clients s' := by
  obtain ⟨frames, hinv⟩ := hi.inv
  obtain ⟨fd, hfd⟩ := hi.up
  obtain ⟨frames', hinv'⟩ := hinv.step hn h.step
  exact ⟨⟨frames', hinv'⟩, ⟨fd, h.step.fd_kept hinv'.linked.runs hfd⟩, h.outside hi.outside,
    h.step.works hinv.linked hfd hi.working⟩

theorem Going.goes_on (hi : Going niters clients s) (hn : niters < 2 ^ 31)
    (hroom : room 0 msgSize = true) (hnot : ¬ s.Ended clients) :
    ∃ l s', CStep room niters clients s l s' := by
  obtain ⟨frames, hinv⟩ := hi.inv
  obtain ⟨fd, hfd⟩ := hi.up
  have hserver : (∃ s', Step room niters s .server s') → ∃ l s', CStep room niters clients s l s' :=
    fun ⟨s', h⟩ => ⟨_, s', CStep.server h⟩
  cases hpc : s.server with
  | start | creating | done | failed | killed =>
    rw [hpc] at hfd
    cases hfd
  | failing =>
    have hruns := hinv.linked.runs
    rw [hpc] at hruns
    cases hruns
  | opening k msg =>
    obtain ⟨_, j, _, hcli, _⟩ := hinv.asker (m := msg) (by rw [hpc]; exact List.mem_cons_self)
    obtain ⟨hname, hr, _⟩ := hinv.linked.own _ j (by rw [hcli]; rfl)
    exact hserver ⟨_, Step.srvOpen hpc hname (List.ne_nil_of_mem hr)⟩
  | writing k msg cfd =>
    obtain ⟨_, _, _, _, hnil, hr, _⟩ := hinv.answering hpc
    have hlen := hinv.length_frame (m := msg) (by rw [hpc]; exact List.mem_cons_self)
    refine hserver ⟨_, Step.srvWrite hpc (List.ne_nil_of_mem hr) ?_⟩
    rw [hnil, hlen]
    exact hroom
  | closing k cfd => exact hserver ⟨_, Step.srvClose hpc⟩
  | reading k =>
    rw [hpc] at hfd
    cases hfd
    by_cases hbytes : (s.files.fifos fd).bytes = []
    · -- no request waits: some client that has not ended goes on
      have hclient : ∃ p ∈ clients, (s.client p).isDone ≠ true := by
        by_contra hnone
        push Not at hnone
        apply hnot
        refine ⟨hnone, ?_⟩
        unfold State.idle
        rw [hpc]
        simpa using hbytes
      obtain ⟨p, hp, hlive⟩ := hclient
      have hgo : (∃ s', Step room niters s (.client p) s') →
          ∃ l s', CStep room niters clients s l s' := fun ⟨s', h⟩ => ⟨_, s', CStep.client hp h⟩
      have hfd : s.server.fd = some fd := by rw [hpc]; rfl
      obtain ⟨hname, hr, _⟩ := hinv.linked.service fd hfd
      cases hcpc : s.client p with
      | start => exact hgo ⟨_, Step.cliOpen hcpc hname (List.ne_nil_of_mem hr)⟩
      | making => exact hgo ⟨_, Step.cliMkfifo hcpc⟩
      | creating sfd =>
        obtain ⟨k, hk⟩ := hinv.linked.made p sfd hcpc
        exact hgo ⟨_, Step.cliCreate hcpc hk⟩
      | writing sfd cfd i =>
        have hsame := hinv.linked.sfd p sfd (by rw [hcpc]; rfl)
        cases hfd.symm.trans hsame
        have hin : i ≤ niters := (hinv.told_at hcpc).2.1
        refine hgo ⟨_, Step.cliWrite hcpc rfl (List.ne_nil_of_mem hr) ?_⟩
        rw [hbytes, length_setMsg (hinv.msg p) (by omega)]
        exact hroom
      | reading sfd cfd i =>
        have hone := hinv.flow.once p
        have hframes : frames = [] := by
          have hframed := hinv.flow.framed fd hfd
          rw [hbytes] at hframed
          cases frames with
          | nil => rfl
          | cons m rest =>
            have hlen := hinv.length_frame (m := m)
              (List.mem_append_right _ List.mem_cons_self)
            rw [List.flatten_cons] at hframed
            rw [(List.append_eq_nil_iff.mp hframed.symm).1] at hlen
            cases hlen
        rw [hpc, hframes, hcpc] at hone
        have hne : (s.files.fifos cfd).bytes ≠ [] := by
          intro hnil
          rw [answers_of (k := cfd) (by rw [hcpc]; rfl), if_pos hnil] at hone
          cases hone
        exact hgo ⟨_, Step.cliRead hcpc hne rfl⟩
      | closing => exact hgo ⟨_, Step.cliClose hcpc⟩
      | closingOwn => exact hgo ⟨_, Step.cliCloseOwn hcpc⟩
      | unlinking => exact hgo ⟨_, Step.cliUnlink hcpc⟩
      | done =>
        rw [hcpc] at hlive
        exact absurd rfl hlive
      | failed => exact absurd hcpc (hi.working p)
      | killed =>
        cases hinv.told_at hcpc
    · exact hserver ⟨_, Step.srvRead hpc hbytes rfl⟩

theorem Going.printed_eq (hi : Going niters clients s) (hend : s.Ended clients) :
    s.printed = fun p => if p ∈ clients then hellos p niters else [] := by
  obtain ⟨frames, hinv⟩ := hi.inv
  funext p
  by_cases hp : p ∈ clients
  · rw [if_pos hp]
    have hdone := hend.1 p hp
    cases hpc : s.client p <;> rw [hpc] at hdone <;> cases hdone
    exact hinv.told_at hpc
  · rw [if_neg hp]
    exact hinv.told_at (hi.outside p hp)

theorem State.Start.going (hs : s.Start) (hn : niters < 2 ^ 31) {a u : State}
    (hmake : Step room niters s .server a) (hopen : Step room niters a .server u) :
    Going niters clients u := by
  have hinit : Inv niters [] s := hs.inv
  obtain ⟨frames, ha⟩ := hinit.step hn hmake
  obtain ⟨frames', hu⟩ := ha.step hn hopen
  have hserver := hs.server
  cases hmake with
  | srvMkfifo =>
    cases hopen with
    | @srvCreate fd =>
      refine ⟨⟨frames', hu⟩, ⟨fd, rfl⟩, fun p _ => hs.client p, ?_⟩
      intro p
      dsimp only
      rw [hs.client p]
      simp
    | srvNoFifo hpc hnone =>
      obtain ⟨k, hk⟩ : ∃ k, (s.files.mkfifo echoServiceName).names echoServiceName = some k :=
        mkfifo_self
      cases hnone.symm.trans hk
    | srvMkfifo h | srvRead h | srvReadEnd h | srvOpen h | srvNoClient h | srvWrite h | srvPipe h
    | srvClose h | srvExit h => cases h
  | srvCreate h | srvNoFifo h | srvRead h | srvReadEnd h | srvOpen h | srvNoClient h | srvWrite h
  | srvPipe h | srvClose h | srvExit h =>
    rw [hserver] at h
    cases h

end Clients

/-- Finitely many clients of a server that is up, in any order of their system calls: all of them
end, each has printed the answers to its own messages, in order and whole, and the server waits for
the next one with nothing left in its pipe. -/
theorem hellos_printed {room : Nat → Nat → Bool} {niters : Nat} {s a u : State} (hs : s.Start)
    (hroom : room 0 msgSize = true) (hn : niters < 2 ^ 31)
    (hmake : Step room niters s .server a) (hopen : Step room niters a .server u)
    (clients : Finset Int32) :
    Returns (CStep room niters clients) u (fun _ => false) (State.result clients)
      (fun p => if p ∈ clients then hellos p niters else []) := by
  have hinit : Going niters clients u := hs.going hn hmake hopen
  have hkeep : ∀ a l b, Going niters clients a → CStep room niters clients a l b →
      Going niters clients b := fun _ _ _ hi h => h.going hn hi
  refine ⟨?_, ?_, ?_⟩
  · intro ls s x hrun hx
    have hi := hrun.invariant hinit hkeep
    unfold State.result at hx
    split at hx
    · rename_i hend
      rw [← Option.some.inj hx, hi.printed_eq hend]
    · cases hx
  · intro ls s hrun hnone
    have hnot : ¬ s.Ended clients := by
      intro hend
      rw [State.result, if_pos hend] at hnone
      cases hnone
    obtain ⟨l, s', hstep⟩ := (hrun.invariant hinit hkeep).goes_on hn hroom hnot
    exact ⟨l, s', hstep, rfl⟩
  · exact bounded_of_invariant (c := 0) hinit hkeep fun a l b hi h => h.ahead hi hn

/-- Two clients, with pipes of 65536 bytes. -/
theorem hellos_printed_two :
    Returns (CStep (fun held n => decide (held + n ≤ 65536)) 10 {7, 8}) State.up (fun _ => false)
      (State.result {7, 8}) (fun p => if p ∈ ({7, 8} : Finset Int32) then hellos p 10 else []) := by
  obtain ⟨hmake, hopen⟩ := State.up_reached (fun held n => decide (held + n ≤ 65536)) 10
  exact hellos_printed State.fresh_start (by decide) (by decide) hmake hopen {7, 8}

end OsCourse.EchoFifo
