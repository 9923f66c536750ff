import OsCourse.Echo.Release
import OsCourse.Lib.Calls
import OsCourse.Lib.Exchange

/-! Finitely many clients of a server that is up: all of them get their answers and come to
their ends. -/
namespace OsCourse.Echo
open Calls Exchange Function MemChan Transition

def ClientPc.isDone : ClientPc → Bool
  | .done => true
  | _ => false

/-- The server is at its `mc_get`. -/
def ServerPc.isGetting : ServerPc → Bool
  | .getting _ => true
  | _ => false

def up (srv : Int32) : State :=
  { init with
    shm := Shm.empty.mcCreate echoServiceName srv maxMsgs
    server := .getting (Shm.empty.segFor echoServiceName) }

/-- A step of the server or of one of the clients, with no channel destroyed that the server is
still to signal. -/
inductive CStep (srv : Int32) (niters : Int32 → Nat) (clients : Finset Int32) :
    State → Label → State → Prop
  | server {s s' : State} : Step srv niters s .server s' → CStep srv niters clients s .server s'
  | client {s s' : State} {p : Int32} : p ∈ clients → Step srv niters s (.client p) s' →
      Orderly s (.client p) → CStep srv niters clients s (.client p) s'

structure State.Ended (clients : Finset Int32) (s : State) : Prop where
  clients : ∀ p ∈ clients, (s.client p).isDone = true
  server : s.server.isGetting = true
  queue : (s.shm.queue echoServiceName).isEmpty = true

instance (clients : Finset Int32) (s : State) : Decidable (s.Ended clients) :=
  decidable_of_iff ((∀ p ∈ clients, (s.client p).isDone = true) ∧ s.server.isGetting = true ∧
    (s.shm.queue echoServiceName).isEmpty = true)
    ⟨fun h => ⟨h.1, h.2.1, h.2.2⟩, fun h => ⟨h.clients, h.server, h.queue⟩⟩

def State.result (clients : Finset Int32) (s : State) : Option (Int32 → List EchoMsg) :=
  if s.Ended clients then some s.received else none

section Weights

def ServerPc.weight : ServerPc → Nat
  | .got _ _ => 6
  | .opening _ _ => 5
  | .putting _ _ _ => 4
  | .put _ _ _ => 3
  | .closing _ _ _ | .start | .failing _ => 2
  | .getting _ => 1
  | .done => 0

/-- The steps before a client of `n` iterations, with those that its requests give the server. -/
def ClientPc.weight (n : Nat) : ClientPc → Nat
  | .start => 11 * n + 6
  | .creating _ => 11 * n + 5
  | .putting _ _ i => 11 * (n + 1 - i) + 4
  | .put _ _ i => 11 * (n + 1 - i) - 3
  | .getting _ _ i => 11 * (n + 1 - i) - 4
  | .got _ _ i _ => 11 * (n + 1 - i) - 5
  | .destroying _ _ => 2
  | .closing _ => 1
  | .done => 0

def State.ahead (niters : Int32 → Nat) (clients : Finset Int32) (s : State) : Nat :=
  s.server.weight + 6 * (s.shm.queue echoServiceName).length +
    clients.sum fun p => (s.client p).weight (niters p)

theorem weight_loopHead {n svc resp i : Nat} :
    (loopHead n svc resp i).weight n ≤ 11 * (n + 1 - i) + 4 := by
  unfold loopHead
  split
  · exact le_rfl
  · exact (by omega : 2 ≤ 11 * (n + 1 - i) + 4)

end Weights

section Clients
variable {srv : Int32} {niters : Int32 → Nat} {clients : Finset Int32} {s s' : State} {l : Label}

theorem CStep.step (h : CStep srv niters clients s l s') : Step srv niters s l s' := by
  cases h with
  | server hs | client _ hs _ => exact hs

def Roomy (s : State) : Prop := ∀ svc, s.server.svc = some svc → (s.shm.segs svc).capacity = maxMsgs

structure Inv (srv : Int32) (niters : Int32 → Nat) (clients : Finset Int32) (s : State) : Prop where
  linked : Linked srv s.shm s.server s.client
  balanced : Balanced s.shm s.server s.client
  told : ∀ p, Told p (niters p) (s.sent p) (s.received p) (s.client p)
  running : s.server ≠ .start
  roomy : Roomy s
  outside : ∀ p ∉ clients, s.client p = .start
  answered : ∀ p, s.client p = .done → s.received p = requests p (niters p)

theorem inv_up (srv : Int32) (niters : Int32 → Nat) (clients : Finset Int32) :
    Inv srv niters clients (up srv) := by
  have hrun := Runs.single (@Step.srvCreate srv niters init rfl)
  obtain ⟨hl, hb, ht⟩ := invariant_of_runs hrun
  refine ⟨hl, hb, ht, nofun, ?_, fun _ _ => rfl, nofun⟩
  intro svc hsvc
  cases hsvc
  exact congrArg Chan.capacity Shm.mcCreate_segs_self

theorem Inv.exists_service (hi : Inv srv niters clients s) :
    ∃ svc, s.server.svc = some svc ∧ s.shm.names echoServiceName = some svc ∧
      (s.shm.segs svc).capacity = maxMsgs := by
  have hsome : ∃ svc, s.server.svc = some svc := by
    have hfailed := hi.linked.notFailed
    cases hpc : s.server with
    | start => exact absurd hpc hi.running
    | done =>
      rw [hpc] at hfailed
      cases hfailed
    | getting svc | got svc | opening svc | putting svc | put svc | closing svc | failing svc =>
      exact ⟨svc, rfl⟩
  obtain ⟨svc, hsvc⟩ := hsome
  exact ⟨svc, hsvc, (hi.linked.service svc hsvc).1, hi.roomy svc hsvc⟩

theorem capacity_store {m : Shm} {seg k : Nat} {c : Chan EchoMsg}
    (h : c.capacity = (m.segs seg).capacity) :
    ((m.store seg c).segs k).capacity = (m.segs k).capacity := by
  dsimp only [Shm.store]
  by_cases hk : k = seg
  · rw [hk, update_self, h]
  · rw [update_of_ne hk]

theorem Step.roomy (h : Step srv niters s l s') (hl : Linked srv s.shm s.server s.client)
    (hup : s.server ≠ .start) (hi : Roomy s) : s'.server ≠ .start ∧ Roomy s' := by
  cases h with
  | srvCreate hpc => exact absurd hpc hup
  | srvGet hpc hget =>
    refine ⟨nofun, fun k hk => ?_⟩
    cases hk
    dsimp only
    rw [capacity_store (Chan.get_fields hget).2]
    exact hi _ (by rw [hpc]; rfl)
  | srvPut hpc hput =>
    refine ⟨nofun, fun k hk => ?_⟩
    cases hk
    dsimp only
    rw [capacity_store (Chan.put_fields hput).2]
    exact hi _ (by rw [hpc]; rfl)
  | srvSignalSpace hpc | srvOpen hpc _ | srvNoChannel hpc _ | srvSignalItems hpc =>
    refine ⟨nofun, fun k hk => ?_⟩
    cases hk
    exact hi _ (by rw [hpc]; rfl)
  | srvClose hpc =>
    refine ⟨nofun, fun k hk => ?_⟩
    cases hk
    dsimp only
    rw [Shm.mcDestroy_segs]
    exact hi _ (by rw [hpc]; rfl)
  | srvExit hpc => exact absurd hpc hl.not_failing
  | cliPut _ hput =>
    refine ⟨hup, fun k hk => ?_⟩
    dsimp only
    rw [capacity_store (Chan.put_fields hput).2]
    exact hi k hk
  | cliGet _ hget =>
    refine ⟨hup, fun k hk => ?_⟩
    dsimp only
    rw [capacity_store (Chan.get_fields hget).2]
    exact hi k hk
  | @cliCreate p svc hpc =>
    refine ⟨hup, fun k hk => ?_⟩
    have hname := (hl.service k hk).1
    dsimp only
    rw [Shm.mcCreate_segs_lt (hl.free p (by rw [hpc]; rfl)) (hl.ok.lt _ _ hname)]
    exact hi k hk
  | cliDestroy | cliClose =>
    refine ⟨hup, fun k hk => ?_⟩
    dsimp only
    rw [Shm.mcDestroy_segs]
    exact hi k hk
  | cliOpen | cliNoService | cliSignalItems | cliSignalSpace => exact ⟨hup, hi⟩

theorem Step.answered (h : Step srv niters s l s')
    (hup : ∃ svc, s.shm.names echoServiceName = some svc)
    (ht : ∀ p, Told p (niters p) (s.sent p) (s.received p) (s.client p))
    (hi : ∀ p, s.client p = .done → s.received p = requests p (niters p)) :
    ∀ p, s'.client p = .done → s'.received p = requests p (niters p) := by
  have hmove : ∀ {p : Int32} {pc : ClientPc}, pc ≠ .done →
      ∀ q, update s.client p pc q = .done → s.received q = requests q (niters q) := by
    intro p pc hpc q hq
    by_cases he : q = p
    · rw [he, update_self] at hq
      exact absurd hq hpc
    · rw [update_of_ne he] at hq
      exact hi q hq
  have hloop : ∀ {n svc resp i : Nat}, loopHead n svc resp i ≠ .done := by
    intro n svc resp i
    unfold loopHead
    split <;> exact nofun
  cases h with
  | srvCreate | srvGet | srvSignalSpace | srvOpen | srvNoChannel | srvPut | srvSignalItems
  | srvClose | srvExit => exact hi
  | cliOpen | cliPut | cliSignalItems | cliDestroy => exact hmove nofun
  | cliNoService _ _ hopen =>
    obtain ⟨svc, hsvc⟩ := hup
    cases hsvc.symm.trans hopen
  | cliCreate | cliSignalSpace => exact hmove hloop
  | @cliGet p svc resp i msg c hpc hget =>
    intro q hq
    have hqp : q ≠ p := by
      rintro rfl
      dsimp only at hq
      rw [update_self] at hq
      cases hq
    dsimp only at hq ⊢
    rw [update_of_ne hqp] at hq ⊢
    exact hi q hq
  | @cliClose p svc hpc =>
    intro q hq
    by_cases he : q = p
    · have htold := ht p
      rw [hpc] at htold
      rw [he]
      exact htold.2
    · dsimp only at hq
      rw [update_of_ne he] at hq
      exact hi q hq

theorem CStep.outside (h : CStep srv niters clients s l s')
    (hi : ∀ p ∉ clients, s.client p = .start) :
    ∀ p ∉ clients, s'.client p = .start := by
  intro p hp
  cases h with
  | server hs =>
    cases hs <;> exact hi p hp
  | @client _ q hq hs _ =>
    have hne : p ≠ q := fun he => hp (he ▸ hq)
    cases hs <;> exact (update_of_ne hne _ _).trans (hi p hp)

theorem CStep.inv (h : CStep srv niters clients s l s') (hi : Inv srv niters clients s) :
    Inv srv niters clients s' := by
  obtain ⟨svc, _, hname, _⟩ := hi.exists_service
  obtain ⟨hup, hroomy⟩ := h.step.roomy hi.linked hi.running hi.roomy
  exact ⟨h.step.linked hi.linked hi.balanced, h.step.balanced hi.linked hi.balanced,
    h.step.told hi.linked hi.balanced hi.told, hup, hroomy, h.outside hi.outside,
    h.step.answered ⟨svc, hname⟩ hi.told hi.answered⟩

theorem Inv.opens (hi : Inv srv niters clients s) {svc : Nat} {msg : EchoMsg}
    (hpc : s.server = .opening svc msg) :
    ∃ resp, s.shm.mcOpen (respName msg.sender) = some resp := by
  have hhand : s.server.hand = [msg] := by
    rw [hpc]
    rfl
  obtain ⟨resp, hname, _⟩ := hi.linked.answerable hi.balanced hhand
  exact ⟨resp, hname⟩

theorem Inv.puts (hi : Inv srv niters clients s) {svc resp : Nat} {msg : EchoMsg}
    (hpc : s.server = .putting svc msg resp) : ∃ c, (s.shm.segs resp).put msg = some c := by
  have hhand : s.server.hand = [msg] := by
    rw [hpc]
    rfl
  obtain ⟨r, hname, _, hcap, hempty, _⟩ := hi.linked.answerable hi.balanced hhand
  have hr : r = resp := Option.some_inj.mp (hname.symm.trans (hi.linked.target _ _ _ hpc))
  refine ⟨_, Chan.put_eq_some.mpr ⟨?_, rfl⟩⟩
  rw [← hr, hempty, hcap]
  exact Nat.zero_ne_one

theorem CStep.ahead (h : CStep srv niters clients s l s') (hi : Inv srv niters clients s) :
    s'.ahead niters clients + 1 ≤ s.ahead niters clients := by
  obtain ⟨svc, hsvc, hname, _⟩ := hi.exists_service
  have hok := hi.linked.ok
  unfold State.ahead
  cases h with
  | server hs =>
    cases hs with
    | srvCreate hpc => exact absurd hpc hi.running
    | srvExit hpc => exact absurd hpc hi.linked.not_failing
    | srvNoChannel hpc hopen =>
      obtain ⟨resp, hresp⟩ := hi.opens hpc
      cases hresp.symm.trans hopen
    | @srvGet k msg c hpc hget =>
      rw [hpc] at hsvc
      cases hsvc
      obtain ⟨hq, _⟩ := Chan.get_eq_some.mp hget
      dsimp only
      rw [hpc, Shm.queue_store_self hname, Shm.queue_some hname, hq, List.length_cons]
      simp only [ServerPc.weight]
      omega
    | srvSignalSpace hpc | srvOpen hpc _ | srvSignalItems hpc =>
      rw [hpc]
      simp only [ServerPc.weight]
      omega
    | srvPut hpc hput =>
      have hresp := hi.linked.target _ _ _ hpc
      dsimp only
      rw [hpc, Shm.queue_store_ne hok hresp (respName_ne_service _).symm]
      simp only [ServerPc.weight]
      omega
    | srvClose hpc =>
      dsimp only
      rw [hi.linked.srvClose (by rw [hpc]; rfl), hpc]
      simp only [ServerPc.weight]
      omega
  | @client _ p hp hs _ =>
    have hsum : ∀ (pc : ClientPc) (k : Nat),
        pc.weight (niters p) + k + 1 ≤ (s.client p).weight (niters p) →
          (clients.sum fun q => (update s.client p pc q).weight (niters q)) + k + 1 ≤
            clients.sum fun q => (s.client q).weight (niters q) := by
      intro pc k hk
      have hmove := sum_move hp (f := fun q => (s.client q).weight (niters q))
        (g := fun q => (update s.client p pc q).weight (niters q))
        fun q hq => by rw [update_of_ne hq]
      rw [update_self] at hmove
      omega
    have htold := hi.told p
    cases hs with
    | @cliOpen _ k _ hpc _ =>
      have hmove := hsum (.creating k) 0 (by rw [hpc]; exact le_rfl)
      dsimp only
      omega
    | cliNoService _ hpc _ =>
      have hmove := hsum .done 0 (by rw [hpc]; exact Nat.le_add_left 1 _)
      dsimp only
      omega
    | @cliCreate _ k hpc =>
      have hmove := hsum (loopHead (niters p) k (s.shm.segFor (respName p)) 1) 0
        (by rw [hpc]; exact Nat.succ_le_succ weight_loopHead)
      dsimp only
      rw [Shm.queue_mcCreate_ne hok (hi.linked.free p (by rw [hpc]; rfl))
        (respName_ne_service p).symm]
      omega
    | @cliPut _ k resp i c hpc hput =>
      rw [hpc] at htold
      obtain ⟨j, hj, rfl, _⟩ := htold
      have hmove := hsum (.put k resp (j + 1)) 6 (by
        rw [hpc]
        simp only [ClientPc.weight]
        omega)
      have hk : k = svc := by
        have hclient := hi.linked.clientSvc p k (by rw [hpc]; rfl)
        rw [hsvc] at hclient
        exact (Option.some.inj hclient).symm
      subst hk
      obtain ⟨_, hq⟩ := Chan.put_eq_some.mp hput
      have hlen : c.queue.length = (s.shm.queue echoServiceName).length + 1 := by
        rw [Shm.queue_some hname, ← hq]
        simp
      dsimp only
      rw [Shm.queue_store_self hname]
      omega
    | @cliSignalItems _ k resp i hpc =>
      rw [hpc] at htold
      obtain ⟨j, hj, rfl, _⟩ := htold
      have hmove := hsum (.getting k resp (j + 1)) 0 (by
        rw [hpc]
        simp only [ClientPc.weight]
        omega)
      dsimp only
      omega
    | @cliGet _ k resp i msg c hpc hget =>
      rw [hpc] at htold
      obtain ⟨j, hj, rfl, _⟩ := htold
      have hmove := hsum (.got k resp (j + 1) msg) 0 (by
        rw [hpc]
        simp only [ClientPc.weight]
        omega)
      have hresp := (hi.linked.clientResp p resp (by rw [hpc]; rfl)).1
      dsimp only
      rw [Shm.queue_store_ne hok hresp (respName_ne_service p).symm]
      omega
    | @cliSignalSpace _ k resp i msg hpc =>
      rw [hpc] at htold
      have hle := htold.2.1
      have hloop := @weight_loopHead (niters p) k resp (i + 1)
      have hmove := hsum (loopHead (niters p) k resp (i + 1)) 0 (by
        rw [hpc]
        simp only [ClientPc.weight] at hloop ⊢
        omega)
      dsimp only
      omega
    | @cliDestroy _ k resp hpc =>
      have hmove := hsum (.closing k) 0 (by rw [hpc]; exact le_rfl)
      dsimp only
      rw [Shm.queue_mcDestroy_ne (respName_ne_service p).symm]
      omega
    | cliClose hpc =>
      have hmove := hsum .done 0 (by rw [hpc]; exact le_rfl)
      dsimp only
      rw [hi.linked.cliClose hpc]
      omega

theorem Inv.goes_on (hi : Inv srv niters clients s) (hsrv : srv ∉ clients)
    (hnot : ¬ s.Ended clients) : ∃ l s', CStep srv niters clients s l s' := by
  have hserver : (∃ s', Step srv niters s .server s') → ∃ l s', CStep srv niters clients s l s' :=
    fun ⟨s', h⟩ => ⟨_, s', CStep.server h⟩
  obtain ⟨svc, hsvc, hname, hcap⟩ := hi.exists_service
  cases hpc : s.server with
  | start => exact absurd hpc hi.running
  | done =>
    rw [hpc] at hsvc
    cases hsvc
  | failing => exact absurd hpc hi.linked.not_failing
  | got => exact hserver ⟨_, Step.srvSignalSpace hpc⟩
  | opening k msg =>
    obtain ⟨resp, hresp⟩ := hi.opens hpc
    exact hserver ⟨_, Step.srvOpen hpc hresp⟩
  | putting k msg resp =>
    obtain ⟨c, hput⟩ := hi.puts hpc
    exact hserver ⟨_, Step.srvPut hpc hput⟩
  | put => exact hserver ⟨_, Step.srvSignalItems hpc⟩
  | closing => exact hserver ⟨_, Step.srvClose hpc⟩
  | getting k =>
    rw [hpc] at hsvc
    cases hsvc
    cases hq : (s.shm.segs svc).queue with
    | cons msg rest =>
      have hget : (s.shm.segs svc).get = some (msg, { s.shm.segs svc with queue := rest }) :=
        Chan.get_eq_some.mpr ⟨hq, rfl⟩
      exact hserver ⟨_, Step.srvGet hpc hget⟩
    | nil =>
      -- no request waits: some client that has not ended goes on
      have hempty : s.shm.queue echoServiceName = [] := (Shm.queue_some hname).trans hq
      have hclient : ∃ p ∈ clients, (s.client p).isDone ≠ true := by
        by_contra hnone
        refine hnot ⟨fun p hp => ?_, by rw [hpc]; rfl, by rw [hempty]; rfl⟩
        by_contra hp'
        exact hnone ⟨p, hp, hp'⟩
      obtain ⟨p, hp, hlive⟩ := hclient
      have hpid : p ≠ srv := fun he => hsrv (he ▸ hp)
      have hgo : (∃ s', Step srv niters s (.client p) s') →
          ∃ l s', CStep srv niters clients s l s' := by
        rintro ⟨s', h⟩
        refine ⟨_, s', CStep.client hp h ?_⟩
        intro svc' resp' _ svc'' msg' hput
        rw [hpc] at hput
        cases hput
      cases hcpc : s.client p with
      | start => exact hgo ⟨_, Step.cliOpen hpid hcpc hname⟩
      | creating => exact hgo ⟨_, Step.cliCreate hcpc⟩
      | putting k resp i =>
        have hk : svc = k := by
          have hsame := hi.linked.clientSvc p k (by rw [hcpc]; rfl)
          rw [hpc] at hsame
          exact Option.some.inj hsame
        subst hk
        refine hgo ⟨_, Step.cliPut hcpc (Chan.put_eq_some.mpr ⟨?_, rfl⟩)⟩
        rw [hq, hcap]
        exact (by decide : (0 : Nat) ≠ maxMsgs)
      | put => exact hgo ⟨_, Step.cliSignalItems hcpc⟩
      | getting k resp i =>
        have hresp := (hi.linked.clientResp p resp (by rw [hcpc]; rfl)).1
        have hflight := hi.balanced p
        unfold inFlight at hflight
        rw [hempty, hpc, hcpc, Shm.queue_some hresp] at hflight
        simp only [ServerPc.hand, List.filter_nil, List.append_nil] at hflight
        have hget : (s.shm.segs resp).get = some (_, { s.shm.segs resp with queue := [] }) :=
          Chan.get_eq_some.mpr ⟨hflight, rfl⟩
        exact hgo ⟨_, Step.cliGet hcpc hget⟩
      | got => exact hgo ⟨_, Step.cliSignalSpace hcpc⟩
      | destroying => exact hgo ⟨_, Step.cliDestroy hcpc⟩
      | closing => exact hgo ⟨_, Step.cliClose hcpc⟩
      | done =>
        rw [hcpc] at hlive
        exact absurd rfl hlive

theorem Inv.received_eq (hi : Inv srv niters clients s) (hend : s.Ended clients) :
    s.received = fun p => if p ∈ clients then requests p (niters p) else [] := by
  funext p
  by_cases hp : p ∈ clients
  · rw [if_pos hp]
    apply hi.answered
    have hdone := hend.clients p hp
    cases hpc : s.client p <;> rw [hpc] at hdone <;> cases hdone
  · rw [if_neg hp]
    have htold := hi.told p
    rw [hi.outside p hp] at htold
    exact htold.2

theorem Inv.names_free (hi : Inv srv niters clients s) (hend : s.Ended clients) (p : Int32) :
    s.shm.names (respName p) = none := by
  apply hi.linked.free
  by_cases hp : p ∈ clients
  · have hdone := hend.clients p hp
    cases hpc : s.client p <;> rw [hpc] at hdone <;> cases hdone
    rfl
  · rw [hi.outside p hp]
    rfl

theorem clients_return (niters : Int32 → Nat) (hsrv : srv ∉ clients) :
    Returns (CStep srv niters clients) (up srv) (fun _ => false) (State.result clients)
      (fun p => if p ∈ clients then requests p (niters p) else []) := by
  have hinit := inv_up srv niters clients
  have hkeep : ∀ a l b, Inv srv niters clients a → CStep srv niters clients a l b →
      Inv srv niters clients b := fun _ _ _ hi h => h.inv hi
  refine ⟨?_, ?_, ?_⟩
  · intro ls s x hrun hx
    have hi := hrun.invariant hinit hkeep
    unfold State.result at hx
    split at hx
    · rename_i hend
      rw [← Option.some.inj hx, hi.received_eq hend]
    · cases hx
  · intro ls s hrun hnone
    have hnot : ¬ s.Ended clients := by
      intro hend
      rw [State.result, if_pos hend] at hnone
      cases hnone
    obtain ⟨l, s', hstep⟩ := (hrun.invariant hinit hkeep).goes_on hsrv hnot
    exact ⟨l, s', hstep, rfl⟩
  · exact bounded_of_invariant (c := 0) hinit hkeep fun a l b hi h => h.ahead hi

/-- In every run, a client that has read an answer in its iteration `i` has read its request
of that iteration; its requests are those it has had answered and at most one in flight, and
all of them are answered when it destroys its channel. The server finds the channel of the
sender, and space in it. The answers come: finitely many clients get them all, in any order of
the steps in which none destroys a channel that the server is still to signal. -/
theorem own_answers (srv : Int32) (niters : Int32 → Nat) (ls : List Label) (s : State)
    (hrun : Runs (Step srv niters) init ls s) :
    (∀ p svc resp i msg, s.client p = .got svc resp i msg → msg = request p i) ∧
      (∀ p, (∃ k ≤ niters p, s.sent p = requests p k) ∧
        s.sent p = s.received p ++ inFlight s.shm s.server p ∧
        (inFlight s.shm s.server p).length ≤ 1) ∧
      (∀ p svc resp, s.client p = .destroying svc resp → s.received p = requests p (niters p)) ∧
      (∀ svc msg resp, s.server = .putting svc msg resp →
        (s.shm.segs resp).capacity = 1 ∧ (s.shm.segs resp).put msg ≠ none) ∧
      (∀ svc msg, s.server = .opening svc msg → s.shm.mcOpen (respName msg.sender) ≠ none) ∧
      (∀ svc, s.server ≠ .failing svc) ∧
      ∀ clients : Finset Int32, srv ∉ clients →
        Returns (CStep srv niters clients) (up srv) (fun _ => false) (State.result clients)
          fun p => if p ∈ clients then requests p (niters p) else [] := by
  obtain ⟨hl, hb, ht⟩ := invariant_of_runs hrun
  refine ⟨?_, ?_, ?_, ?_, ?_, fun svc => hl.not_failing,
    fun clients hsrv => clients_return niters hsrv⟩
  · intro p svc resp i msg hpc
    have htold := ht p
    rw [hpc] at htold
    exact htold.2.2.1
  · intro p
    obtain ⟨hsent, hanswered⟩ := (ht p).answered
    rw [hb p]
    exact ⟨hsent, hanswered, length_pending _⟩
  · intro p svc resp hpc
    have htold := ht p
    rw [hpc] at htold
    exact htold.2
  · intro svc msg resp hpc
    have hhand : s.server.hand = [msg] := by rw [hpc]; rfl
    obtain ⟨r, hname, _, hcap, hempty, _⟩ := hl.answerable hb hhand
    have hr : r = resp := Option.some_inj.mp (hname.symm.trans (hl.target svc msg resp hpc))
    rw [← hr]
    refine ⟨hcap, ?_⟩
    unfold Chan.put
    rw [if_neg (by rw [hempty, hcap]; exact Nat.zero_ne_one)]
    exact nofun
  · intro svc msg hpc
    have hhand : s.server.hand = [msg] := by rw [hpc]; rfl
    obtain ⟨r, hname, _⟩ := hl.answerable hb hhand
    unfold Shm.mcOpen
    rw [hname]
    exact nofun

/-- The client reads the answer before the server has signalled it. -/
theorem own_answers_one : ∃ ls s, Runs (Step 1 fun _ => 1) init ls s ∧
    s.client 7 = .got 0 1 1 (request 7 1) ∧ s.server = .put 0 (request 7 1) 1 ∧
    s.sent 7 = s.received 7 ++ inFlight s.shm s.server 7 ∧
    Returns (CStep 1 (fun _ => 1) {7}) (up 1) (fun _ => false) (State.result {7})
      fun p => if p ∈ ({7} : Finset Int32) then requests p 1 else [] := by
  obtain ⟨ls, s, hrun, hpc, hserver⟩ := reads_before_signal
  have hown := own_answers _ _ _ _ hrun
  exact ⟨ls, s, hrun, hpc, hserver, (hown.2.1 7).2.1, hown.2.2.2.2.2.2 {7} (by decide)⟩

/-- Finitely many clients of a server that is up, in any order of their steps in which no client
destroys a channel that the server is still to signal: all of them end with the answers to all
their requests, with the server waiting for the next one; then no response channel has a name. -/
theorem clients_answered (niters : Int32 → Nat) (hsrv : srv ∉ clients) :
    Returns (CStep srv niters clients) (up srv) (fun _ => false) (State.result clients)
        (fun p => if p ∈ clients then requests p (niters p) else []) ∧
      ∀ ls s, Runs (CStep srv niters clients) (up srv) ls s → s.Ended clients →
        ∀ p, s.shm.names (respName p) = none := by
  refine ⟨clients_return niters hsrv, ?_⟩
  intro ls s hrun hend
  exact (hrun.invariant (inv_up srv niters clients) fun _ _ _ hi h => h.inv hi).names_free hend

/-- Two clients, of one iteration and of two. -/
theorem clients_answered_two :
    Returns (CStep 1 (fun p => if p = 7 then 1 else 2) {7, 8}) (up 1) (fun _ => false)
      (State.result {7, 8})
      (fun p => if p ∈ ({7, 8} : Finset Int32) then requests p (if p = 7 then 1 else 2) else []) :=
  (clients_answered (fun p => if p = 7 then 1 else 2) (by decide)).1

end Clients

end OsCourse.Echo
