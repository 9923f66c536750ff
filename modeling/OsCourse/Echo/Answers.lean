import OsCourse.Echo.Links
import OsCourse.Lib.Transition

/-! Every client reads the answers to its own requests, in the iteration it made them. -/
namespace OsCourse.Echo
open Function MemChan Transition
variable {srv p : Int32} {niters : Int32 → Nat} {s s' : State} {l : Label}

section Steps

theorem Step.linked (h : Step srv niters s l s') (hl : Linked srv s.shm s.server s.client)
    (hb : Balanced s.shm s.server s.client) : Linked srv s'.shm s'.server s'.client := by
  cases h with
  | srvCreate hpc => exact (hpc ▸ hl).srvCreate
  | srvGet hpc hget =>
    have hstore := hl.store (Chan.get_fields hget).1 (Chan.get_fields hget).2
    exact hstore.serverMove (by rw [hpc]; rfl) nofun rfl nofun nofun
  | srvSignalSpace hpc => exact hl.serverMove (by rw [hpc]; rfl) nofun rfl nofun nofun
  | @srvOpen svc resp msg hpc hopen =>
    have hhand : s.server.hand = [msg] := by rw [hpc]; rfl
    obtain ⟨r, hname, hown, _, _, hpid⟩ := hl.answerable hb hhand
    have hresp : r = resp := Option.some_inj.mp (hname.symm.trans hopen)
    refine hl.serverMove (by rw [hpc]; rfl) nofun rfl ?_ ?_
    · intro k msg' resp' he
      cases he
      exact hopen
    · intro resp' he
      cases he
      rw [← hresp, hown]
      exact ⟨hl.ok.lt _ _ hname, hpid⟩
  | @srvNoChannel svc msg hpc hopen =>
    have hhand : s.server.hand = [msg] := by rw [hpc]; rfl
    obtain ⟨r, hname, _⟩ := hl.answerable hb hhand
    cases hname.symm.trans hopen
  | srvPut hpc hput =>
    have hstore := hl.store (Chan.put_fields hput).1 (Chan.put_fields hput).2
    refine hstore.serverMove (by rw [hpc]; rfl) nofun rfl nofun ?_
    intro k he
    cases he
    exact hstore.served _ (by rw [hpc]; rfl)
  | srvSignalItems hpc =>
    refine hl.serverMove (by rw [hpc]; rfl) nofun rfl nofun ?_
    intro k he
    cases he
    exact hl.served _ (by rw [hpc]; rfl)
  | srvClose hpc =>
    dsimp only
    rw [hl.srvClose (by rw [hpc]; rfl)]
    exact hl.serverMove (by rw [hpc]; rfl) nofun rfl nofun nofun
  | srvExit hpc => exact absurd hpc hl.not_failing
  | cliOpen hpid hpc hopen =>
    refine hl.clientMove hpid ?_ (by rw [hpc]; rfl)
    intro k hk
    cases hk
    exact hl.svc_of_name hopen
  | cliNoService hpid hpc _ => exact hl.clientMove hpid nofun (by rw [hpc]; rfl)
  | cliCreate hpc => exact hl.cliCreate hpc
  | cliPut hpc hput =>
    have hstore := hl.store (Chan.put_fields hput).1 (Chan.put_fields hput).2
    apply hstore.clientNext <;> rw [hpc]
    exacts [nofun, nofun, fun _ => id, rfl]
  | cliSignalItems hpc =>
    apply hl.clientNext <;> rw [hpc]
    exacts [nofun, nofun, fun _ => id, rfl]
  | cliGet hpc hget =>
    have hstore := hl.store (Chan.get_fields hget).1 (Chan.get_fields hget).2
    apply hstore.clientNext <;> rw [hpc]
    exacts [nofun, nofun, fun _ => id, rfl]
  | cliSignalSpace hpc =>
    apply hl.clientNext <;> rw [hpc]
    · exact nofun
    · exact nofun
    · rw [loopHead_svc]
      exact fun _ => id
    · exact loopHead_resp
  | @cliDestroy p svc resp hpc =>
    apply hl.cliDestroy hpc
    intro k msg r hs hq
    have hhand : s.server.hand = [msg] := by rw [hs]; rfl
    have hpend := (hb.hand hhand).1
    rw [hq, hpc] at hpend
    cases hpend
  | cliClose hpc =>
    dsimp only
    rw [hl.cliClose hpc]
    apply hl.clientNext <;> rw [hpc]
    exacts [nofun, nofun, nofun, rfl]

theorem Step.balanced (h : Step srv niters s l s') (hl : Linked srv s.shm s.server s.client)
    (hb : Balanced s.shm s.server s.client) : Balanced s'.shm s'.server s'.client := by
  cases h with
  | srvCreate hpc => exact (hpc ▸ hb).srvCreate hl.ok (hl.noService hpc)
  | @srvGet svc msg c hpc hget =>
    exact (hpc ▸ hb).srvGet hl.ok (hl.service svc (by rw [hpc]; rfl)).1 hget
  | srvSignalSpace hpc | srvOpen hpc | srvSignalItems hpc =>
    exact hb.serverMove (by rw [hpc]; rfl)
  | @srvNoChannel svc msg hpc hopen =>
    have hhand : s.server.hand = [msg] := by rw [hpc]; rfl
    obtain ⟨r, hname, _⟩ := hl.answerable hb hhand
    cases hname.symm.trans hopen
  | @srvPut svc resp msg c hpc hput =>
    exact (hpc ▸ hb).srvPut hl.ok (hl.target svc msg resp hpc) hput
  | srvClose hpc =>
    dsimp only
    rw [hl.srvClose (by rw [hpc]; rfl)]
    exact hb.serverMove (by rw [hpc]; rfl)
  | srvExit hpc => exact absurd hpc hl.not_failing
  | cliOpen _ hpc _ | cliNoService _ hpc _ => exact hb.clientMove (by rw [hpc]; rfl)
  | @cliCreate p svc hpc =>
    exact hb.cliCreate hl.ok (hl.free p (by rw [hpc]; rfl)) (by rw [hpc]; rfl) loopHead_pending
  | @cliPut p svc resp i c hpc hput =>
    have hsvc := hl.clientSvc p svc (by rw [hpc]; rfl)
    exact hb.cliPut hl.ok (hl.service svc hsvc).1 hpc hput
  | cliSignalItems hpc => exact hb.clientMove (by rw [hpc]; rfl)
  | @cliGet p svc resp i msg c hpc hget =>
    have hname := (hl.clientResp p resp (by rw [hpc]; rfl)).1
    exact (hb.cliGet hl.ok hname hpc hget).2
  | cliSignalSpace hpc => exact hb.clientMove (loopHead_pending.trans (by rw [hpc]; rfl))
  | @cliDestroy p svc resp hpc =>
    have hown := (hl.clientResp p resp (by rw [hpc]; rfl)).2.1
    exact hb.cliDestroy hown (by rw [hpc]; rfl) rfl
  | cliClose hpc =>
    dsimp only
    rw [hl.cliClose hpc]
    exact hb.clientMove (by rw [hpc]; rfl)

end Steps

section Iterations
variable {n i k svc resp : Nat} {sent received : List EchoMsg}

theorem requests_succ : requests p (k + 1) = requests p k ++ [request p (k + 1)] := by
  unfold requests
  rw [List.range_succ, List.map_append, List.map_singleton]

/-- What a client of `n` iterations has put and got, at each place. -/
def Told (p : Int32) (n : Nat) (sent received : List EchoMsg) : ClientPc → Prop
  | .start | .creating _ => sent = [] ∧ received = []
  | .putting _ _ i => ∃ k < n, i = k + 1 ∧ sent = requests p k ∧ received = requests p k
  | .put _ _ i | .getting _ _ i =>
    ∃ k < n, i = k + 1 ∧ sent = requests p i ∧ received = requests p k
  | .got _ _ i msg =>
    1 ≤ i ∧ i ≤ n ∧ msg = request p i ∧ sent = requests p i ∧ received = requests p i
  | .destroying _ _ | .closing _ => sent = requests p n ∧ received = requests p n
  | .done => ∃ k ≤ n, sent = requests p k ∧ received = requests p k

theorem Told.loopHead (hk : k ≤ n) (hsent : sent = requests p k)
    (hreceived : received = requests p k) :
    Told p n sent received (loopHead n svc resp (k + 1)) := by
  unfold Echo.loopHead
  split
  · rename_i hle
    exact ⟨k, hle, rfl, hsent, hreceived⟩
  · have hn : k = n := by omega
    rw [hn] at hsent hreceived
    exact ⟨hsent, hreceived⟩

theorem Told.answered {pc : ClientPc} (h : Told p n sent received pc) :
    (∃ k ≤ n, sent = requests p k) ∧ sent = received ++ pc.pending p := by
  cases pc with
  | start | creating =>
    obtain ⟨rfl, rfl⟩ := h
    exact ⟨⟨0, Nat.zero_le n, rfl⟩, rfl⟩
  | putting =>
    obtain ⟨k, hk, _, rfl, rfl⟩ := h
    exact ⟨⟨k, hk.le, rfl⟩, (List.append_nil _).symm⟩
  | put | getting =>
    obtain ⟨k, hk, rfl, rfl, rfl⟩ := h
    exact ⟨⟨k + 1, hk, rfl⟩, requests_succ⟩
  | got =>
    obtain ⟨_, hi, _, rfl, rfl⟩ := h
    exact ⟨⟨_, hi, rfl⟩, (List.append_nil _).symm⟩
  | destroying | closing =>
    obtain ⟨rfl, rfl⟩ := h
    exact ⟨⟨n, le_rfl, rfl⟩, (List.append_nil _).symm⟩
  | done =>
    obtain ⟨k, hk, rfl, rfl⟩ := h
    exact ⟨⟨k, hk, rfl⟩, (List.append_nil _).symm⟩

end Iterations

section Runs

theorem told_move {sent received sent' received' : Int32 → List EchoMsg}
    {client : Int32 → ClientPc} {pc : ClientPc}
    (ht : ∀ q, Told q (niters q) (sent q) (received q) (client q))
    (hp : Told p (niters p) (sent' p) (received' p) pc)
    (hothers : ∀ q, q ≠ p → sent' q = sent q ∧ received' q = received q) (q : Int32) :
    Told q (niters q) (sent' q) (received' q) (update client p pc q) := by
  by_cases he : q = p
  · rw [he, update_self]
    exact hp
  · obtain ⟨hsent, hreceived⟩ := hothers q he
    rw [update_of_ne he, hsent, hreceived]
    exact ht q

theorem told_client {sent received : Int32 → List EchoMsg} {client : Int32 → ClientPc}
    {pc : ClientPc} (ht : ∀ q, Told q (niters q) (sent q) (received q) (client q))
    (hp : Told p (niters p) (sent p) (received p) pc) (q : Int32) :
    Told q (niters q) (sent q) (received q) (update client p pc q) :=
  told_move ht hp (fun _ _ => ⟨rfl, rfl⟩) q

theorem Step.told (h : Step srv niters s l s') (hl : Linked srv s.shm s.server s.client)
    (hb : Balanced s.shm s.server s.client)
    (ht : ∀ p, Told p (niters p) (s.sent p) (s.received p) (s.client p)) :
    ∀ p, Told p (niters p) (s'.sent p) (s'.received p) (s'.client p) := by
  cases h with
  | srvCreate | srvGet | srvSignalSpace | srvOpen | srvNoChannel | srvPut | srvSignalItems
  | srvClose | srvExit => exact ht
  | @cliOpen p svc _ hpc _ =>
    have hp := ht p
    rw [hpc] at hp
    exact told_client ht hp
  | @cliNoService p _ hpc _ =>
    have hp := ht p
    rw [hpc] at hp
    exact told_client ht ⟨0, Nat.zero_le _, hp⟩
  | @cliCreate p svc hpc =>
    have hp := ht p
    rw [hpc] at hp
    exact told_client ht (Told.loopHead (Nat.zero_le _) hp.1 hp.2)
  | @cliPut p svc resp i c hpc hput =>
    have hp := ht p
    rw [hpc] at hp
    obtain ⟨k, hk, rfl, hsent, hreceived⟩ := hp
    apply told_move ht
    · dsimp only
      rw [update_self, hsent, ← requests_succ]
      exact ⟨k, hk, rfl, rfl, hreceived⟩
    · exact fun q hq => ⟨update_of_ne hq _ _, rfl⟩
  | @cliSignalItems p svc resp i hpc =>
    have hp := ht p
    rw [hpc] at hp
    exact told_client ht hp
  | @cliGet p svc resp i msg c hpc hget =>
    have hname := (hl.clientResp p resp (by rw [hpc]; rfl)).1
    obtain ⟨hmsg, _⟩ := hb.cliGet hl.ok hname hpc hget
    have hp := ht p
    rw [hpc] at hp
    obtain ⟨k, hk, rfl, hsent, hreceived⟩ := hp
    apply told_move ht
    · dsimp only
      rw [update_self, hreceived, hmsg, ← requests_succ]
      exact ⟨Nat.le_add_left 1 k, hk, rfl, hsent, rfl⟩
    · exact fun q hq => ⟨rfl, update_of_ne hq _ _⟩
  | @cliSignalSpace p svc resp i msg hpc =>
    have hp := ht p
    rw [hpc] at hp
    obtain ⟨_, hi, _, hsent, hreceived⟩ := hp
    exact told_client ht (Told.loopHead hi hsent hreceived)
  | @cliDestroy p svc resp hpc =>
    have hp := ht p
    rw [hpc] at hp
    exact told_client ht hp
  | @cliClose p svc hpc =>
    have hp := ht p
    rw [hpc] at hp
    exact told_client ht ⟨niters p, le_rfl, hp⟩

theorem invariant_of_runs {ls : List Label} (hrun : Runs (Step srv niters) init ls s) :
    Linked srv s.shm s.server s.client ∧ Balanced s.shm s.server s.client ∧
      ∀ p, Told p (niters p) (s.sent p) (s.received p) (s.client p) := by
  apply hrun.invariant (P := fun s : State => Linked srv s.shm s.server s.client ∧
    Balanced s.shm s.server s.client ∧
      ∀ p, Told p (niters p) (s.sent p) (s.received p) (s.client p))
  · exact ⟨Linked.init, fun _ => rfl, fun _ => ⟨rfl, rfl⟩⟩
  · rintro a l b ⟨hl, hb, ht⟩ hstep
    exact ⟨hstep.linked hl hb, hstep.balanced hl hb, hstep.told hl hb ht⟩

/-- One client asks once, and reads the answer before the server has signalled it. -/
theorem reads_before_signal : ∃ ls s, Runs (Step 1 fun _ => 1) init ls s ∧
    s.client 7 = .got 0 1 1 (request 7 1) ∧ s.server = .put 0 (request 7 1) 1 := by
  have hserver := Runs.single (s := init) (l := Label.server)
    (@Step.srvCreate 1 (fun _ => 1) init rfl)
  have hopen := hserver.snoc (l := Label.client 7) (Step.cliOpen (by decide) rfl rfl)
  have hcreate := hopen.snoc (l := Label.client 7) (Step.cliCreate rfl)
  have hask := hcreate.snoc (l := Label.client 7) (Step.cliPut rfl rfl)
  have hsignal := hask.snoc (l := Label.client 7) (Step.cliSignalItems rfl)
  have htake := hsignal.snoc (l := Label.server) (Step.srvGet rfl rfl)
  have hspace := htake.snoc (l := Label.server) (Step.srvSignalSpace rfl)
  have hfind := hspace.snoc (l := Label.server) (Step.srvOpen rfl rfl)
  have hanswer := hfind.snoc (l := Label.server) (Step.srvPut rfl rfl)
  have hread := hanswer.snoc (l := Label.client 7) (Step.cliGet rfl rfl)
  exact ⟨_, _, hread, rfl, rfl⟩

end Runs

end OsCourse.Echo
