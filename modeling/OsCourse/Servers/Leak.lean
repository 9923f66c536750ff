import OsCourse.Lib.Transition
import OsCourse.Servers.Callback

/-! Who owns a connection of the callback server: the epoll set has its descriptor, and its
handle is on the heap, until `ah_close`, which does not close the descriptor. -/
namespace OsCourse.Servers.Callback
open Function Loop Relay Transition
variable {s s' : State} {l : Label} {ah fd cfd : Nat} {added : Bool} {cb : Cb}

/-- The open connections are those of the epoll set, which are counted, and every handle that
is not freed is in the set. -/
structure NoLeak (s : State) : Prop where
  conns : ∀ fd, fd ∈ s.conns ↔ fd ∈ s.loop.epoll.map Entry.fd ∧ fd ≠ s.listenfd
  counted : s.loop.nclients = s.loop.epoll.length
  handles : ∀ p h, s.loop.heap p = some h → ∃ e ∈ s.loop.epoll, e.ptr = p

/-- Registrations succeed, no connection is accepted as 0, and none comes to an end. -/
def Label.Kept : Label → Prop
  | .start _ _ added => added = true
  | .accept cfd _ added => cfd ≠ 0 ∧ added = true
  | .read _ .done => False
  | .read _ (.data _) | .fails | .wait _ | .skip | .acceptFails | .batchDone | .leave => True

section Regist
variable {loop : AsyncLoop Cb}

theorem registAsync_heap : (ahDoAsync (ahRegistFd loop ah fd added) ah cb 0).heap =
    update loop.heap ah (some ⟨fd, some cb, 0, loop.allocs⟩) := by
  unfold ahDoAsync
  dsimp only
  rw [ahRegistFd_heap, update_self, update_idem]
  rfl

theorem registAsync_added : (ahDoAsync (ahRegistFd loop ah fd true) ah cb 0).epoll =
    loop.epoll ++ [⟨fd, ah, loop.allocs⟩] := rfl

theorem registAsync_lost : (ahDoAsync (ahRegistFd loop ah fd false) ah cb 0).epoll =
    loop.epoll := rfl

end Regist

section Invariant

/-- The callback of the handles of the listening socket and of the others. -/
def State.callback (s : State) (fd : Nat) : Cb :=
  if fd = s.listenfd then .onNewConnection else .onReadRequest

structure Inv (s : State) : Prop where
  noLeak : NoLeak s
  entries : ∀ e ∈ s.loop.epoll, ∃ h, s.loop.heap e.ptr = some h ∧ h.fd = e.fd ∧
    h.cb = some (s.callback e.fd)
  events : ∀ evd ∈ s.batch, evd.entry ∈ s.loop.epoll
  main : s.pc = .main → s.loop = ahInit ∧ s.conns = ∅ ∧ s.batch = []

theorem Inv.init : Inv init where
  noLeak := by
    refine ⟨fun fd => ?_, rfl, nofun⟩
    constructor
    · intro h
      cases h
    · rintro ⟨h, _⟩
      cases h
  entries := nofun
  events := nofun
  main := fun _ => ⟨rfl, rfl, rfl⟩

theorem NoLeak.goto (h : NoLeak s) (batch : List Event) (pc : Pc) (net : Net) :
    NoLeak { s with batch := batch, pc := pc, net := net } := ⟨h.conns, h.counted, h.handles⟩

theorem Inv.goto (h : Inv s) {batch : List Event} {pc : Pc} (net : Net)
    (hbatch : ∀ evd ∈ batch, evd.entry ∈ s.loop.epoll) (hpc : pc ≠ .main) :
    Inv { s with batch := batch, pc := pc, net := net } where
  noLeak := h.noLeak.goto batch pc net
  entries := h.entries
  events := hbatch
  main := fun hmain => absurd hmain hpc

theorem Inv.rest (h : Inv s) {evd : Event} {rest : List Event} (hbatch : s.batch = evd :: rest) :
    ∀ evd ∈ rest, evd.entry ∈ s.loop.epoll := by
  intro e he
  apply h.events
  rw [hbatch]
  exact List.mem_cons_of_mem _ he

theorem Inv.regist (h : Inv s) (hfree : s.loop.heap ah = none) {batch : List Event} {pc : Pc}
    {conns : Finset Nat} {listenfd : Nat} {net : Net}
    (hcb : cb = if fd = listenfd then .onNewConnection else .onReadRequest)
    (hlisten : ∀ e ∈ s.loop.epoll, e.fd = listenfd ↔ e.fd = s.listenfd)
    (hconns : ∀ k, k ∈ conns ↔ k ∈ s.loop.epoll.map Entry.fd ++ [fd] ∧ k ≠ listenfd)
    (hbatch : ∀ evd ∈ batch, evd.entry ∈ s.loop.epoll) (hpc : pc ≠ .main) :
    Inv { loop := ahDoAsync (ahRegistFd s.loop ah fd true) ah cb 0, batch := batch, pc := pc,
          listenfd := listenfd, conns := conns, net := net } where
  noLeak := by
    refine ⟨?_, ?_, ?_⟩
    · intro k
      dsimp only
      rw [registAsync_added, List.map_append, hconns]
      rfl
    · have hcount := h.noLeak.counted
      dsimp only
      rw [registAsync_added, List.length_append, ← hcount]
      rfl
    · intro p a hp
      dsimp only at hp ⊢
      rw [registAsync_heap] at hp
      rw [registAsync_added]
      cases update_cases hp with
      | inl hself =>
        exact ⟨_, List.mem_append_right _ (List.mem_singleton_self _), hself.1.symm⟩
      | inr hold =>
        obtain ⟨e, he, hptr⟩ := h.noLeak.handles p a hold.2
        exact ⟨e, List.mem_append_left _ he, hptr⟩
  entries := by
    intro e he
    dsimp only at he ⊢
    rw [registAsync_added] at he
    rw [registAsync_heap]
    cases List.mem_append.mp he with
    | inl hold =>
      obtain ⟨a, ha, hfd, hcall⟩ := h.entries e hold
      have hne : e.ptr ≠ ah := by
        rintro rfl
        cases hfree.symm.trans ha
      rw [update_of_ne hne]
      refine ⟨a, ha, hfd, ?_⟩
      rw [hcall]
      unfold State.callback
      simp only [hlisten e hold]
    | inr hnew =>
      rw [List.mem_singleton.mp hnew]
      refine ⟨_, update_self _ _ _, rfl, ?_⟩
      rw [hcb]
      rfl
  events := by
    intro evd hevd
    dsimp only
    rw [registAsync_added]
    exact List.mem_append_left _ (hbatch evd hevd)
  main := fun hmain => absurd hmain hpc

theorem Step.inv (h : Step s l s') (hk : l.Kept) (hi : Inv s) : Inv s' := by
  cases h with
  | @start listenfd ah added hpc hreg =>
    obtain ⟨hloop, hconns, hbatch⟩ := hi.main hpc
    cases hk
    have hepoll : s.loop.epoll = [] := by rw [hloop]; rfl
    dsimp only [serverInit]
    apply hi.regist hreg.1
    · rw [if_pos rfl]
    · rw [hepoll]
      exact nofun
    · intro k
      rw [hconns, hepoll]
      simp
    · rw [hbatch]
      exact nofun
    · exact nofun
  | fails => exact hi.goto s.net hi.events nofun
  | wait _ _ hbatch => exact hi.goto s.net hbatch.mem nofun
  | skip hpc hbatch =>
    exact hi.goto s.net (hi.rest hbatch) (by rw [hpc]; exact nofun)
  | acceptFails hcall =>
    exact hi.goto s.net (hi.rest hcall.batch) (by rw [hcall.pc]; exact nofun)
  | @accept evd rest h cfd ah added hcall hfresh hreg =>
    obtain ⟨hpos, rfl⟩ := hk
    rw [Finset.mem_insert, not_or] at hfresh
    dsimp only [onNewConnection]
    rw [if_pos (Nat.pos_of_ne_zero hpos)]
    apply hi.regist hreg.1
    · rw [if_neg hfresh.1]
    · exact fun _ _ => Iff.rfl
    · intro k
      rw [Finset.mem_insert, hi.noLeak.conns, List.mem_append, List.mem_singleton]
      constructor
      · intro hk
        obtain rfl | ⟨hmem, hne⟩ := hk
        · exact ⟨Or.inr rfl, hfresh.1⟩
        · exact ⟨Or.inl hmem, hne⟩
      · rintro ⟨hmem, hne⟩
        cases hmem with
        | inl hold => exact Or.inr ⟨hold, hne⟩
        | inr hnew => exact Or.inl hnew
    · exact hi.rest hcall.batch
    · rw [hcall.pc]
      exact nofun
  | @read evd rest h cfd request res hcall hfd =>
    cases res with
    | data c =>
      have hpc : s.pc ≠ .main := by rw [hcall.pc]; exact nofun
      exact hi.goto _ (hi.rest hcall.batch) hpc
    | done => cases hk
  | batchDone => exact hi.goto s.net hi.events nofun
  | leave => exact hi.goto s.net hi.events nofun

theorem NoLeak.registered {batch : List Event} {pc : Pc} {listenfd : Nat} {conns : Finset Nat}
    {net : Net} (hi : Inv s) (hfree : s.loop.heap ah = none)
    (h : NoLeak { loop := ahDoAsync (ahRegistFd s.loop ah fd added) ah cb 0, batch := batch,
                  pc := pc, listenfd := listenfd, conns := conns, net := net }) :
    added = true := by
  cases added with
  | true => rfl
  | false =>
    have hhandle := h.handles ah
    dsimp only at hhandle
    rw [registAsync_heap, update_self, registAsync_lost] at hhandle
    obtain ⟨e, he, hptr⟩ := hhandle _ rfl
    obtain ⟨a, ha, _⟩ := hi.entries e he
    rw [hptr, hfree] at ha
    cases ha

/-- What goes wrong shows at once. -/
theorem kept_of_noLeak (h : Step s l s') (hi : Inv s) (hn : NoLeak s') : l.Kept := by
  cases h with
  | start _ hreg => exact NoLeak.registered hi hreg.1 hn
  | fails | wait | skip | acceptFails | batchDone | leave => trivial
  | @accept evd rest h cfd ah added hcall hfresh hreg =>
    rw [Finset.mem_insert, not_or] at hfresh
    by_cases hzero : cfd = 0
    · have hopen := (hn.conns 0).mp (by rw [hzero]; exact Finset.mem_insert_self _ _)
      dsimp only [onNewConnection] at hopen
      rw [if_neg (by omega)] at hopen
      rw [hzero] at hfresh
      exact absurd ((hi.noLeak.conns 0).mpr hopen) hfresh.2
    · dsimp only [onNewConnection] at hn
      rw [if_pos (Nat.pos_of_ne_zero hzero)] at hn
      exact ⟨hzero, NoLeak.registered hi hreg.1 hn⟩
  | @read evd rest h cfd request res hcall hfd =>
    cases res with
    | data c => trivial
    | done =>
      have hentry := hi.events evd (by rw [hcall.batch]; exact List.mem_cons_self)
      obtain ⟨a, ha, hafd, hcb⟩ := hi.entries evd.entry hentry
      cases hcall.handle.symm.trans ha
      have hother : h.fd ≠ s.listenfd := by
        intro he
        rw [hcall.callback, ← hafd] at hcb
        unfold State.callback at hcb
        rw [if_pos he] at hcb
        cases hcb
      have hopen : h.fd ∈ s.conns := by
        rw [hi.noLeak.conns]
        refine ⟨?_, hother⟩
        rw [hafd]
        exact List.mem_map_of_mem hentry
      have hset := ((hn.conns h.fd).mp hopen).1
      dsimp only [onReadRequest] at hset
      rw [ahClose_epoll ha] at hset
      obtain ⟨e, he, hefd⟩ := List.mem_map.mp hset
      exact (mem_remClient.mp he).2 hefd

end Invariant

section Runs

/-- The runs in which registrations succeed, no connection is accepted as descriptor 0 and no
read returns an end of stream or an error are those in which nothing is leaked in any state
between callbacks. -/
theorem no_leak_iff (ls : List Label) (s : State) :
    Runs (fun a l b => Step a l b ∧ l.Kept) init ls s ↔
      Runs (fun a l b => Step a l b ∧ NoLeak b) init ls s := by
  apply Runs.iff_of (P := Inv) (Q := Inv)
  · exact Inv.init
  · exact Inv.init
  · rintro a l b hi ⟨hstep, hk⟩
    have hi' := hstep.inv hk hi
    exact ⟨⟨hstep, hi'.noLeak⟩, hi'⟩
  · rintro a l b hi ⟨hstep, hn⟩
    have hk := kept_of_noLeak hstep hi hn
    exact ⟨⟨hstep, hk⟩, hstep.inv hk hi⟩

/-- A client connects and leaves, and its descriptor stays open. -/
theorem connection_leaked : ¬∀ (ls : List Label) (s : State), Runs Step init ls s → NoLeak s := by
  intro hall
  have hstart := Runs.single (s := init) (l := Label.start 3 0 true)
    (Step.start rfl ⟨rfl, by decide⟩)
  have hready1 := hstart.snoc (l := Label.wait [⟨⟨3, 0, 0⟩, 1⟩])
    (Step.wait rfl (by decide) ⟨by decide, by decide⟩)
  have haccept := hready1.snoc (l := Label.accept 4 1 true)
    (Step.accept ⟨rfl, rfl, by decide, rfl, rfl⟩ (by decide) ⟨rfl, by decide⟩)
  have hback1 := haccept.snoc (l := Label.batchDone) (Step.batchDone rfl rfl)
  have hready2 := hback1.snoc (l := Label.wait [⟨⟨4, 1, 1⟩, 1⟩])
    (Step.wait rfl (by decide) ⟨by decide, by decide⟩)
  have hleaves := hready2.snoc (l := Label.read EchoMsg.zeros .done)
    (Step.read ⟨rfl, rfl, by decide, rfl, rfl⟩ rfl)
  have hopen := ((hall _ _ hleaves).conns 4).mp (by decide)
  revert hopen
  decide

end Runs

end OsCourse.Servers.Callback
