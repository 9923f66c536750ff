import OsCourse.Echo.Shm

/-! What server and clients hold of the channels, and what is in flight of a client: just
the request that it awaits the answer of. -/
namespace OsCourse.Echo
open Function MemChan

section Phases

def ServerPc.svc : ServerPc → Option Nat
  | .getting svc | .got svc _ | .opening svc _ | .putting svc _ _ | .put svc _ _
  | .closing svc _ _ | .failing svc => some svc
  | .start | .done => none

def ServerPc.hand : ServerPc → List EchoMsg
  | .got _ msg | .opening _ msg | .putting _ msg _ => [msg]
  | _ => []

def ServerPc.resp : ServerPc → Option Nat
  | .putting _ _ resp | .put _ _ resp | .closing _ _ resp => some resp
  | _ => none

def ServerPc.failed : ServerPc → Bool
  | .failing _ | .done => true
  | _ => false

def ClientPc.svc : ClientPc → Option Nat
  | .creating svc | .putting svc _ _ | .put svc _ _ | .getting svc _ _ | .got svc _ _ _
  | .destroying svc _ | .closing svc => some svc
  | .start | .done => none

def ClientPc.resp : ClientPc → Option Nat
  | .putting _ resp _ | .put _ resp _ | .getting _ resp _ | .got _ resp _ _
  | .destroying _ resp => some resp
  | _ => none

def ClientPc.pending (p : Int32) : ClientPc → List EchoMsg
  | .put _ _ i | .getting _ _ i => [request p i]
  | _ => []

variable {niters svc resp i : Nat} {p : Int32}

theorem loopHead_svc : (loopHead niters svc resp i).svc = some svc := by
  unfold loopHead
  split <;> rfl

theorem loopHead_resp : (loopHead niters svc resp i).resp = some resp := by
  unfold loopHead
  split <;> rfl

theorem loopHead_pending : (loopHead niters svc resp i).pending p = [] := by
  unfold loopHead
  split <;> rfl

theorem ClientPc.resp_of_pending {pc : ClientPc} (h : pc.pending p ≠ []) :
    ∃ resp, pc.resp = some resp := by
  cases pc with
  | put svc resp i | getting svc resp i => exact ⟨resp, rfl⟩
  | start | creating | putting | got | destroying | closing | done => exact absurd rfl h

end Phases

section Links
variable {srv : Int32} {m m' : Shm} {server pc : ServerPc} {client : Int32 → ClientPc}
  {p : Int32} {cpc : ClientPc} {svc resp seg : Nat} {c : Chan EchoMsg}

/-- The channels that server and clients hold: the one of the service is the server's, a
response channel its client's, and has its name until the client destroys it. -/
structure Linked (srv : Int32) (m : Shm) (server : ServerPc) (client : Int32 → ClientPc) :
    Prop where
  ok : m.Ok
  service : ∀ svc, server.svc = some svc →
    m.names echoServiceName = some svc ∧ (m.segs svc).owner = srv
  noService : server = .start → m.names echoServiceName = none
  notFailed : server.failed = false
  pid : ∀ p, client p ≠ .start → client p ≠ .done → p ≠ srv
  clientSvc : ∀ p svc, (client p).svc = some svc → server.svc = some svc
  clientResp : ∀ p resp, (client p).resp = some resp →
    m.names (respName p) = some resp ∧ (m.segs resp).owner = p ∧ (m.segs resp).capacity = 1
  free : ∀ p, (client p).resp = none → m.names (respName p) = none
  target : ∀ svc msg resp, server = .putting svc msg resp →
    m.names (respName msg.sender) = some resp
  served : ∀ resp, server.resp = some resp →
    resp < m.segCount ∧ (m.segs resp).owner ≠ srv

theorem Linked.init : Linked srv Shm.empty .start fun _ => .start where
  ok := Shm.empty_ok
  service := nofun
  noService := fun _ => rfl
  notFailed := rfl
  pid := fun _ h => absurd rfl h
  clientSvc := nofun
  clientResp := nofun
  free := fun _ _ => rfl
  target := nofun
  served := nofun

theorem Linked.serverMove (h : Linked srv m server client) (hsvc : pc.svc = server.svc)
    (hstart : pc ≠ .start) (hfailed : pc.failed = false)
    (htarget : ∀ svc msg resp, pc = .putting svc msg resp →
      m.names (respName msg.sender) = some resp)
    (hserved : ∀ resp, pc.resp = some resp → resp < m.segCount ∧ (m.segs resp).owner ≠ srv) :
    Linked srv m pc client where
  ok := h.ok
  service := by
    rw [hsvc]
    exact h.service
  noService := fun he => absurd he hstart
  notFailed := hfailed
  pid := h.pid
  clientSvc := by
    rw [hsvc]
    exact h.clientSvc
  clientResp := h.clientResp
  free := h.free
  target := htarget
  served := hserved

theorem Linked.clientStep (h : Linked srv m server client) (hok : m'.Ok) (hpid : p ≠ srv)
    (hnames : ∀ name ≠ respName p, m'.names name = m.names name)
    (hcount : m.segCount ≤ m'.segCount) (hsegs : ∀ k < m.segCount, m'.segs k = m.segs k)
    (hsvc : ∀ svc, cpc.svc = some svc → server.svc = some svc)
    (hresp : ∀ resp, cpc.resp = some resp → m'.names (respName p) = some resp ∧
      (m'.segs resp).owner = p ∧ (m'.segs resp).capacity = 1)
    (hfree : cpc.resp = none → m'.names (respName p) = none)
    (htarget : ∀ svc msg resp, server = .putting svc msg resp → msg.sender = p →
      m'.names (respName p) = some resp) :
    Linked srv m' server (update client p cpc) where
  ok := hok
  service := by
    intro k hs
    obtain ⟨hname, hown⟩ := h.service k hs
    rw [hnames _ (respName_ne_service p).symm, hsegs k (h.ok.lt _ _ hname)]
    exact ⟨hname, hown⟩
  noService := by
    intro hs
    rw [hnames _ (respName_ne_service p).symm]
    exact h.noService hs
  notFailed := h.notFailed
  pid := by
    intro q hs hd
    by_cases hq : q = p
    · rwa [hq]
    · rw [update_of_ne hq] at hs hd
      exact h.pid q hs hd
  clientSvc := by
    intro q k hs
    by_cases hq : q = p
    · rw [hq, update_self] at hs
      exact hsvc k hs
    · rw [update_of_ne hq] at hs
      exact h.clientSvc q k hs
  clientResp := by
    intro q resp hr
    by_cases hq : q = p
    · rw [hq, update_self] at hr
      rw [hq]
      exact hresp resp hr
    · rw [update_of_ne hq] at hr
      have hold := h.clientResp q resp hr
      rw [hnames _ fun he => hq (respName_inj he), hsegs resp (h.ok.lt _ _ hold.1)]
      exact hold
  free := by
    intro q hr
    by_cases hq : q = p
    · rw [hq, update_self] at hr
      rw [hq]
      exact hfree hr
    · rw [update_of_ne hq] at hr
      rw [hnames _ fun he => hq (respName_inj he)]
      exact h.free q hr
  target := by
    intro k msg resp hs
    by_cases hq : msg.sender = p
    · rw [hq]
      exact htarget k msg resp hs hq
    · rw [hnames _ fun he => hq (respName_inj he)]
      exact h.target k msg resp hs
  served := by
    intro resp hr
    obtain ⟨hlt, hown⟩ := h.served resp hr
    rw [hsegs resp hlt]
    exact ⟨Nat.lt_of_lt_of_le hlt hcount, hown⟩

theorem Linked.clientMove (h : Linked srv m server client) (hpid : p ≠ srv)
    (hsvc : ∀ svc, cpc.svc = some svc → server.svc = some svc)
    (hresp : cpc.resp = (client p).resp) :
    Linked srv m server (update client p cpc) := by
  apply h.clientStep h.ok hpid (fun _ _ => rfl) le_rfl (fun _ _ => rfl) hsvc
  · rw [hresp]
    exact h.clientResp p
  · rw [hresp]
    exact h.free p
  · intro k msg resp hs hq
    rw [← hq]
    exact h.target k msg resp hs

theorem Linked.store (h : Linked srv m server client) (hown : c.owner = (m.segs seg).owner)
    (hcap : c.capacity = (m.segs seg).capacity) : Linked srv (m.store seg c) server client := by
  have howner : ∀ k, ((m.store seg c).segs k).owner = (m.segs k).owner := by
    intro k
    dsimp only [Shm.store]
    by_cases hk : k = seg
    · rw [hk, update_self, hown]
    · rw [update_of_ne hk]
  have hcapacity : ∀ k, ((m.store seg c).segs k).capacity = (m.segs k).capacity := by
    intro k
    dsimp only [Shm.store]
    by_cases hk : k = seg
    · rw [hk, update_self, hcap]
    · rw [update_of_ne hk]
  refine { h with ok := h.ok.store, service := ?_, clientResp := ?_, served := ?_ }
  · intro svc hs
    rw [howner]
    exact h.service svc hs
  · intro q resp hr
    rw [howner, hcapacity]
    exact h.clientResp q resp hr
  · intro resp hr
    rw [howner]
    exact h.served resp hr

theorem Linked.clientNext (h : Linked srv m server client) (hstart : client p ≠ .start)
    (hdone : client p ≠ .done) (hsvc : ∀ svc, cpc.svc = some svc → (client p).svc = some svc)
    (hresp : cpc.resp = (client p).resp) : Linked srv m server (update client p cpc) :=
  h.clientMove (h.pid p hstart hdone) (fun k hk => h.clientSvc p k (hsvc k hk)) hresp

theorem Linked.svc_of_name (h : Linked srv m server client)
    (hname : m.names echoServiceName = some svc) : server.svc = some svc := by
  cases hsvc : server.svc with
  | none =>
    cases server with
    | start =>
      cases (h.noService rfl).symm.trans hname
    | done => cases h.notFailed
    | getting | got | opening | putting | put | closing | failing => cases hsvc
  | some k =>
    rw [← (h.service k hsvc).1, hname]

theorem Linked.srvClose (h : Linked srv m server client) (hr : server.resp = some resp)
    (name : String) : m.mcDestroy resp name srv = m :=
  Shm.mcDestroy_other (h.served resp hr).2.symm

theorem Linked.cliClose (h : Linked srv m server client) (hpc : client p = .closing svc)
    (name : String) : m.mcDestroy svc name p = m := by
  have hsvc := h.clientSvc p svc (by rw [hpc]; rfl)
  have hpid := h.pid p (by rw [hpc]; exact nofun) (by rw [hpc]; exact nofun)
  apply Shm.mcDestroy_other
  rwa [(h.service svc hsvc).2]

theorem Linked.not_failing (h : Linked srv m server client) : server ≠ .failing svc := by
  intro hpc
  have hfailed := h.notFailed
  rw [hpc] at hfailed
  cases hfailed

theorem Linked.srvCreate (h : Linked srv m .start client) {cap : Nat} :
    Linked srv (m.mcCreate echoServiceName srv cap) (.getting (m.segFor echoServiceName))
      client where
  ok := h.ok.mcCreate (h.noService rfl)
  service := by
    intro svc hs
    cases hs
    rw [Shm.mcCreate_names_self, Shm.mcCreate_segs_self]
    exact ⟨rfl, rfl⟩
  noService := nofun
  notFailed := rfl
  pid := h.pid
  clientSvc := by
    intro q svc hs
    cases h.clientSvc q svc hs
  clientResp := by
    intro q resp hr
    have hold := h.clientResp q resp hr
    rw [Shm.mcCreate_names_ne (respName_ne_service q),
      Shm.mcCreate_segs_lt (h.noService rfl) (h.ok.lt _ _ hold.1)]
    exact hold
  free := by
    intro q hr
    rw [Shm.mcCreate_names_ne (respName_ne_service q)]
    exact h.free q hr
  target := nofun
  served := nofun

theorem Linked.cliCreate (h : Linked srv m server client) (hpc : client p = .creating svc)
    {n : Nat} :
    Linked srv (m.mcCreate (respName p) p 1) server
      (update client p (loopHead n svc (m.segFor (respName p)) 1)) := by
  have hfree : m.names (respName p) = none := h.free p (by rw [hpc]; rfl)
  have hpid : p ≠ srv := h.pid p (by rw [hpc]; exact nofun) (by rw [hpc]; exact nofun)
  apply h.clientStep (h.ok.mcCreate hfree) hpid (fun _ hne => Shm.mcCreate_names_ne hne)
    (Nat.le_max_left _ _) (fun _ hk => Shm.mcCreate_segs_lt hfree hk)
  · intro k hs
    rw [loopHead_svc] at hs
    cases hs
    exact h.clientSvc p svc (by rw [hpc]; rfl)
  · intro resp hr
    rw [loopHead_resp] at hr
    cases hr
    rw [Shm.mcCreate_names_self, Shm.mcCreate_segs_self]
    exact ⟨rfl, rfl, rfl⟩
  · intro hr
    rw [loopHead_resp] at hr
    cases hr
  · intro k msg resp hs hq
    have hold := h.target k msg resp hs
    rw [hq, hfree] at hold
    cases hold

theorem Linked.cliDestroy (h : Linked srv m server client)
    (hpc : client p = .destroying svc resp)
    (hidle : ∀ svc msg resp, server = .putting svc msg resp → msg.sender ≠ p) :
    Linked srv (m.mcDestroy resp (respName p) p) server (update client p (.closing svc)) := by
  obtain ⟨_, hown, _⟩ := h.clientResp p resp (by rw [hpc]; rfl)
  have hpid : p ≠ srv := h.pid p (by rw [hpc]; exact nofun) (by rw [hpc]; exact nofun)
  apply h.clientStep h.ok.mcDestroy hpid (fun _ hne => Shm.mcDestroy_names_ne hne)
  · rw [Shm.mcDestroy_segCount]
  · intro k _
    rw [Shm.mcDestroy_segs]
  · intro k hs
    cases hs
    exact h.clientSvc p svc (by rw [hpc]; rfl)
  · exact nofun
  · intro _
    exact Shm.mcDestroy_names_owner hown.symm
  · intro k msg r hs hq
    exact absurd hq (hidle k msg r hs)

end Links

section Balance
variable {srv p : Int32} {m : Shm} {server pc : ServerPc} {client : Int32 → ClientPc}
  {cpc : ClientPc} {msg : EchoMsg} {svc resp i : Nat} {c : Chan EchoMsg}

/-- The messages of a client between its `mc_put` and its `mc_get`. -/
def inFlight (m : Shm) (server : ServerPc) (p : Int32) : List EchoMsg :=
  m.queue (respName p) ++ server.hand.filter (fun msg => msg.sender = p) ++
    (m.queue echoServiceName).filter (fun msg => msg.sender = p)

def Balanced (m : Shm) (server : ServerPc) (client : Int32 → ClientPc) : Prop :=
  ∀ p, inFlight m server p = (client p).pending p

theorem length_pending (pc : ClientPc) : (pc.pending p).length ≤ 1 := by
  cases pc with
  | put | getting => exact le_rfl
  | start | creating | putting | got | destroying | closing | done => exact Nat.zero_le 1

/-- The client of a request in the server's hands awaits it, on an empty channel. -/
theorem Balanced.hand (h : Balanced m server client) (hm : server.hand = [msg]) :
    (client msg.sender).pending msg.sender = [msg] ∧ m.queue (respName msg.sender) = [] := by
  have hflight := h msg.sender
  have hlen := length_pending (p := msg.sender) (client msg.sender)
  have hself : [msg].filter (fun x => x.sender = msg.sender) = [msg] := by simp
  unfold inFlight at hflight
  rw [hm, hself] at hflight
  rw [← hflight, List.length_append, List.length_append, List.length_singleton] at hlen
  have hresp := List.eq_nil_of_length_eq_zero (l := m.queue (respName msg.sender)) (by omega)
  have hsvc := List.eq_nil_of_length_eq_zero
    (l := (m.queue echoServiceName).filter fun x => x.sender = msg.sender) (by omega)
  rw [hresp, hsvc] at hflight
  exact ⟨hflight.symm, hresp⟩

/-- The channel to answer a request in the server's hands has its name, and is empty. -/
theorem Linked.answerable (hl : Linked srv m server client) (hb : Balanced m server client)
    (hm : server.hand = [msg]) :
    ∃ resp, m.names (respName msg.sender) = some resp ∧ (m.segs resp).owner = msg.sender ∧
      (m.segs resp).capacity = 1 ∧ (m.segs resp).queue = [] ∧ msg.sender ≠ srv := by
  obtain ⟨hpend, hempty⟩ := hb.hand hm
  obtain ⟨resp, hr⟩ := ClientPc.resp_of_pending (p := msg.sender) (by rw [hpend]; exact nofun)
  obtain ⟨hname, hown, hcap⟩ := hl.clientResp _ _ hr
  rw [Shm.queue_some hname] at hempty
  refine ⟨resp, hname, hown, hcap, hempty, hl.pid _ ?_ ?_⟩
  · intro hpc
    rw [hpc] at hr
    cases hr
  · intro hpc
    rw [hpc] at hr
    cases hr

theorem Balanced.serverMove (h : Balanced m server client) (hhand : pc.hand = server.hand) :
    Balanced m pc client := by
  intro q
  unfold inFlight
  rw [hhand]
  exact h q

theorem Balanced.clientMove (h : Balanced m server client)
    (hpend : cpc.pending p = (client p).pending p) :
    Balanced m server (update client p cpc) := by
  intro q
  by_cases hq : q = p
  · rw [hq, update_self, hpend]
    exact h p
  · rw [update_of_ne hq]
    exact h q

theorem Balanced.srvCreate (h : Balanced m .start client) (hok : m.Ok)
    (hfree : m.names echoServiceName = none) {cap : Nat} :
    Balanced (m.mcCreate echoServiceName srv cap) (.getting svc) client := by
  intro q
  rw [← h q]
  unfold inFlight
  rw [Shm.queue_mcCreate_self, Shm.queue_none hfree,
    Shm.queue_mcCreate_ne hok hfree (respName_ne_service q)]
  rfl

theorem Balanced.srvGet (h : Balanced m (.getting svc) client) (hok : m.Ok)
    (hname : m.names echoServiceName = some svc) (hget : (m.segs svc).get = some (msg, c)) :
    Balanced (m.store svc c) (.got svc msg) client := by
  obtain ⟨hq, _⟩ := Chan.get_eq_some.mp hget
  intro q
  rw [← h q]
  unfold inFlight
  rw [Shm.queue_store_self hname, Shm.queue_store_ne hok hname (respName_ne_service q),
    Shm.queue_some hname, hq, ← List.singleton_append, List.filter_append]
  simp only [ServerPc.hand, List.filter_nil, List.append_nil, List.append_assoc]

theorem Balanced.srvPut (h : Balanced m (.putting svc msg resp) client) (hok : m.Ok)
    (hname : m.names (respName msg.sender) = some resp)
    (hput : (m.segs resp).put msg = some c) :
    Balanced (m.store resp c) (.put svc msg resp) client := by
  obtain ⟨_, hq⟩ := Chan.put_eq_some.mp hput
  intro q
  rw [← h q]
  unfold inFlight
  rw [Shm.queue_store_ne hok hname (respName_ne_service msg.sender).symm]
  by_cases he : q = msg.sender
  · have hself : [msg].filter (fun x => x.sender = q) = [msg] := by simp [he]
    rw [he, Shm.queue_store_self hname, Shm.queue_some hname, ← hq, ← he]
    simp only [ServerPc.hand, hself, List.filter_nil, List.append_nil]
  · have hother : [msg].filter (fun x => x.sender = q) = [] := by simp [Ne.symm he]
    rw [Shm.queue_store_ne hok hname fun hr => he (respName_inj hr)]
    simp only [ServerPc.hand, hother, List.filter_nil]

theorem Balanced.cliPut (h : Balanced m server client) (hok : m.Ok)
    (hname : m.names echoServiceName = some svc) (hpc : client p = .putting svc resp i)
    (hput : (m.segs svc).put (request p i) = some c) :
    Balanced (m.store svc c) server (update client p (.put svc resp i)) := by
  obtain ⟨_, hq⟩ := Chan.put_eq_some.mp hput
  intro q
  have hold := h q
  unfold inFlight at hold ⊢
  rw [Shm.queue_some hname] at hold
  rw [Shm.queue_store_ne hok hname (respName_ne_service q), Shm.queue_store_self hname, ← hq,
    List.filter_append, ← List.append_assoc, hold]
  by_cases he : q = p
  · rw [he, hpc, update_self]
    simp [ClientPc.pending, request]
  · rw [update_of_ne he]
    simp [request, Ne.symm he]

theorem Balanced.cliGet (h : Balanced m server client) (hok : m.Ok)
    (hname : m.names (respName p) = some resp) (hpc : client p = .getting svc resp i)
    (hget : (m.segs resp).get = some (msg, c)) :
    msg = request p i ∧
      Balanced (m.store resp c) server (update client p (.got svc resp i msg)) := by
  obtain ⟨hq, _⟩ := Chan.get_eq_some.mp hget
  have hold := h p
  unfold inFlight at hold
  rw [Shm.queue_some hname, hq, hpc, List.cons_append, List.cons_append] at hold
  obtain ⟨hmsg, hrest⟩ := List.cons_eq_cons.mp hold
  refine ⟨hmsg, ?_⟩
  intro q
  unfold inFlight
  rw [Shm.queue_store_ne hok hname (respName_ne_service p).symm]
  by_cases he : q = p
  · rw [he, Shm.queue_store_self hname, update_self]
    exact hrest
  · rw [Shm.queue_store_ne hok hname fun hr => he (respName_inj hr), update_of_ne he]
    exact h q

theorem Balanced.cliCreate (h : Balanced m server client) (hok : m.Ok)
    (hfree : m.names (respName p) = none) (hpc : (client p).pending p = [])
    (hnew : cpc.pending p = []) {cap : Nat} :
    Balanced (m.mcCreate (respName p) p cap) server (update client p cpc) := by
  have hmove := h.clientMove (hnew.trans hpc.symm)
  intro q
  rw [← hmove q]
  unfold inFlight
  rw [Shm.queue_mcCreate_ne hok hfree (respName_ne_service p).symm]
  by_cases he : q = p
  · rw [he, Shm.queue_mcCreate_self, Shm.queue_none hfree]
  · rw [Shm.queue_mcCreate_ne hok hfree fun hr => he (respName_inj hr)]

theorem Balanced.cliDestroy (h : Balanced m server client)
    (hown : (m.segs resp).owner = p) (hpc : (client p).pending p = [])
    (hnew : cpc.pending p = []) :
    Balanced (m.mcDestroy resp (respName p) p) server (update client p cpc) := by
  have hmove := h.clientMove (hnew.trans hpc.symm)
  have hold := h p
  unfold inFlight at hold
  rw [hpc, List.append_assoc] at hold
  have hempty := (List.append_eq_nil_iff.mp hold).1
  intro q
  rw [← hmove q]
  unfold inFlight
  rw [Shm.queue_mcDestroy_ne (respName_ne_service p).symm]
  by_cases he : q = p
  · rw [he, hempty, Shm.queue_none (Shm.mcDestroy_names_owner hown.symm)]
  · rw [Shm.queue_mcDestroy_ne fun hr => he (respName_inj hr)]

end Balance

end OsCourse.Echo
