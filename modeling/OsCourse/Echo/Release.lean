import OsCourse.Echo.Answers

/-! The destruction of a response channel. `mc_put` signals after its unlock, and a client
that needs no signal to read the last answer may destroy the channel before. -/
namespace OsCourse.Echo
open Function MemChan Transition
variable {srv : Int32} {niters : Int32 → Nat} {s s' : State} {l : Label}

section Uses

/-- The response channel whose mutex or condition the next step of the server uses: the
lock and unlock of `mc_put`, and its signal. -/
def ServerPc.uses : ServerPc → Option Nat
  | .putting _ _ resp | .put _ _ resp => some resp
  | _ => none

/-- A step of the server, if this is one, finds the channel that it uses undestroyed. -/
def UsesLive (s : State) (l : Label) : Prop :=
  l = .server → ∀ resp, s.server.uses = some resp → s.shm.destroyed resp = false

/-- No step that can be taken uses a destroyed channel. -/
def Safe (srv : Int32) (niters : Int32 → Nat) (s : State) : Prop :=
  ∀ l t, Step srv niters s l t → UsesLive s l

/-- A client destroys its channel when the server has no signal on it to come. -/
def Orderly (s : State) : Label → Prop
  | .client p => ∀ svc resp, s.client p = .destroying svc resp →
      ∀ svc' msg, s.server ≠ .put svc' msg resp
  | .server => True

end Uses

section Objects
variable {m : Shm} {name : String} {pid : Int32} {seg seg' cap : Nat}

theorem Shm.mcCreate_destroyed (h : m.destroyed seg = false) :
    (m.mcCreate name pid cap).destroyed seg = false := by
  dsimp only [Shm.mcCreate]
  by_cases hs : seg = m.segFor name
  · rw [hs, update_self]
  · rw [update_of_ne hs, h]

theorem Shm.mcDestroy_destroyed_self (h : pid = (m.segs seg).owner) :
    (m.mcDestroy seg name pid).destroyed seg = true := by
  unfold Shm.mcDestroy
  rw [if_pos h]
  exact update_self _ _ _

theorem Shm.mcDestroy_destroyed_ne (hne : seg' ≠ seg) :
    (m.mcDestroy seg name pid).destroyed seg' = m.destroyed seg' := by
  unfold Shm.mcDestroy
  split
  · exact update_of_ne hne _ _
  · rfl

end Objects

section Invariant
variable {m : Shm} {server pc : ServerPc} {client : Int32 → ClientPc} {p : Int32}
  {svc resp : Nat} {msg : EchoMsg}

/-- What has a name, and what the server is about to use, has not been destroyed. -/
structure Live (m : Shm) (server : ServerPc) : Prop where
  named : ∀ name seg, m.names name = some seg → m.destroyed seg = false
  used : ∀ resp, server.uses = some resp → m.destroyed resp = false

theorem Live.serverMove (h : Live m server)
    (huses : ∀ resp, pc.uses = some resp → m.destroyed resp = false) : Live m pc :=
  ⟨h.named, huses⟩

theorem Live.store (h : Live m server) {seg : Nat} {c : Chan EchoMsg} :
    Live (m.store seg c) server := ⟨h.named, h.used⟩

theorem Live.mcCreate (h : Live m server) {name : String} {pid : Int32} {cap : Nat} :
    Live (m.mcCreate name pid cap) server := by
  constructor
  · intro name' seg hn
    by_cases he : name' = name
    · rw [he, Shm.mcCreate_names_self] at hn
      cases hn
      exact update_self _ _ _
    · rw [Shm.mcCreate_names_ne he] at hn
      exact Shm.mcCreate_destroyed (h.named _ _ hn)
  · intro resp hu
    exact Shm.mcCreate_destroyed (h.used resp hu)

theorem Live.cliDestroy (h : Live m server) (hok : m.Ok) (hname : m.names (respName p) = some resp)
    (hown : p = (m.segs resp).owner) (hidle : server.uses ≠ some resp) :
    Live (m.mcDestroy resp (respName p) p) server := by
  constructor
  · intro name seg hn
    by_cases he : name = respName p
    · rw [he, Shm.mcDestroy_names_owner hown] at hn
      cases hn
    · have hold := Shm.mcDestroy_names_some hn
      have hne : seg ≠ resp := by
        intro hs
        rw [hs] at hold
        exact he (hok.inj _ _ _ hold hname)
      rw [Shm.mcDestroy_destroyed_ne hne]
      exact h.named _ _ hold
  · intro k hu
    have hne : k ≠ resp := by
      rintro rfl
      exact hidle hu
    rw [Shm.mcDestroy_destroyed_ne hne]
    exact h.used k hu

/-- While a client is destroying its channel, the server has no request of it left to put
an answer to. -/
theorem Linked.no_answer_to_put (hl : Linked srv m server client)
    (hb : Balanced m server client) (hpc : client p = .destroying svc resp) {svc' : Nat} :
    server ≠ .putting svc' msg resp := by
  intro hs
  have hname := (hl.clientResp p resp (by rw [hpc]; rfl)).1
  have hsender : msg.sender = p :=
    respName_inj (hl.ok.inj _ _ _ (hl.target svc' msg resp hs) hname)
  have hhand : server.hand = [msg] := by rw [hs]; rfl
  have hpend := (hb.hand hhand).1
  rw [hsender, hpc] at hpend
  cases hpend

theorem Step.live (h : Step srv niters s l s') (ho : Orderly s l)
    (hl : Linked srv s.shm s.server s.client) (hb : Balanced s.shm s.server s.client)
    (hlive : Live s.shm s.server) : Live s'.shm s'.server := by
  cases h with
  | srvCreate hpc => exact hlive.mcCreate.serverMove nofun
  | srvGet hpc hget => exact hlive.store.serverMove nofun
  | srvSignalSpace | srvNoChannel | srvSignalItems => exact hlive.serverMove nofun
  | srvOpen hpc hopen =>
    apply hlive.serverMove
    intro k hk
    cases hk
    exact hlive.named _ _ hopen
  | srvPut hpc hput =>
    apply hlive.store.serverMove
    intro k hk
    cases hk
    exact hlive.used _ (by rw [hpc]; rfl)
  | srvClose hpc =>
    dsimp only
    rw [hl.srvClose (by rw [hpc]; rfl)]
    exact hlive.serverMove nofun
  | srvExit hpc => exact absurd hpc hl.not_failing
  | cliOpen | cliNoService | cliSignalItems | cliSignalSpace => exact hlive
  | cliPut | cliGet => exact hlive.store
  | cliCreate => exact hlive.mcCreate
  | @cliDestroy p svc resp hpc =>
    obtain ⟨hname, hown, _⟩ := hl.clientResp p resp (by rw [hpc]; rfl)
    apply hlive.cliDestroy hl.ok hname hown.symm
    intro huses
    cases hs : s.server with
    | putting svc' msg k =>
      rw [hs] at huses
      cases huses
      exact hl.no_answer_to_put hb hpc hs
    | put svc' msg k =>
      rw [hs] at huses
      cases huses
      exact ho svc resp hpc svc' msg hs
    | start | getting | got | opening | closing | failing | done =>
      rw [hs] at huses
      cases huses
  | cliClose hpc =>
    dsimp only
    rw [hl.cliClose hpc]
    exact hlive

theorem Live.safe (h : Live s.shm s.server) : Safe srv niters s :=
  fun _ _ _ _ resp hu => h.used resp hu

/-- After a disorderly destruction, the signal on the destroyed condition can be made. -/
theorem orderly_of_safe (h : Step srv niters s l s')
    (hl : Linked srv s.shm s.server s.client) (hsafe : Safe srv niters s') : Orderly s l := by
  cases l with
  | server => trivial
  | client p =>
    intro svc resp hpc svc' msg hs
    have hown := (hl.clientResp p resp (by rw [hpc]; rfl)).2.1
    cases h with
    | cliDestroy hpc' =>
      rw [hpc] at hpc'
      cases hpc'
      have hused := hsafe .server _ (Step.srvSignalItems hs) rfl resp
        (by dsimp only; rw [hs]; rfl)
      rw [Shm.mcDestroy_destroyed_self hown.symm] at hused
      cases hused
    | cliOpen _ hpc' | cliNoService _ hpc' | cliCreate hpc' | cliPut hpc' | cliSignalItems hpc'
    | cliGet hpc' | cliSignalSpace hpc' | cliClose hpc' =>
      rw [hpc] at hpc'
      cases hpc'

end Invariant

section Runs

/-- The runs in which clients destroy their channels orderly are those in which the server
locks, unlocks and signals undestroyed channels only, and which reach no state where it
could do otherwise. -/
theorem resp_destroyed_unused_iff (srv : Int32) (niters : Int32 → Nat) (ls : List Label)
    (s : State) :
    Runs (fun a l b => Step srv niters a l b ∧ Orderly a l) init ls s ↔
      Runs (fun a l b => (Step srv niters a l b ∧ UsesLive a l) ∧ Safe srv niters b)
        init ls s := by
  have hstart : Linked srv init.shm init.server init.client ∧
      Balanced init.shm init.server init.client := ⟨Linked.init, fun _ => rfl⟩
  apply Runs.iff_of
    (P := fun a : State => (Linked srv a.shm a.server a.client ∧
      Balanced a.shm a.server a.client) ∧ Live a.shm a.server)
    (Q := fun a : State => Linked srv a.shm a.server a.client ∧
      Balanced a.shm a.server a.client)
  · exact ⟨hstart, nofun, nofun⟩
  · exact hstart
  · rintro a l b ⟨⟨hl, hb⟩, hlive⟩ ⟨hstep, ho⟩
    have hlive' := hstep.live ho hl hb hlive
    exact ⟨⟨⟨hstep, hlive.safe _ _ hstep⟩, hlive'.safe⟩,
      ⟨hstep.linked hl hb, hstep.balanced hl hb⟩, hlive'⟩
  · rintro a l b ⟨hl, hb⟩ ⟨⟨hstep, _⟩, hsafe⟩
    exact ⟨⟨hstep, orderly_of_safe hstep hl hsafe⟩, hstep.linked hl hb, hstep.balanced hl hb⟩

/-- The client finds its only answer without sleeping, and destroys the channel while the
server is between the unlock and the signal of `mc_put`. -/
theorem resp_signalled_after_destroy : ¬∀ (ls : List Label) (s : State),
    Runs (Step 1 fun _ => 1) init ls s → Safe 1 (fun _ => 1) s := by
  intro hall
  obtain ⟨ls, s, hrun, hpc, hserver⟩ := reads_before_signal
  have howner := (invariant_of_runs hrun).1.clientResp 7 1 (by rw [hpc]; rfl)
  have hleaves := hrun.snoc (Step.cliSignalSpace hpc)
  have hlast : update s.client 7 (loopHead 1 0 1 2) 7 = .destroying 0 1 := update_self _ _ _
  have hdestroys := hleaves.snoc (Step.cliDestroy (p := 7) hlast)
  have hlive := hall _ _ hdestroys .server _ (Step.srvSignalItems hserver) rfl 1
    (by rw [hserver]; rfl)
  have hdestroyed : (s.shm.mcDestroy 1 (respName 7) 7).destroyed 1 = true :=
    Shm.mcDestroy_destroyed_self howner.2.1.symm
  cases hdestroyed.symm.trans hlive

end Runs

end OsCourse.Echo
