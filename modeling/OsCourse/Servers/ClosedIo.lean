import OsCourse.Lib.Transition
import OsCourse.Servers.EpollSet

/-! The descriptors that `process` of the epoll server accepts, reads and writes on. The event
of the standard input closes the listening socket, whose event may be left in the batch. -/
namespace OsCourse.Servers.Epoll
open Relay Transition
variable {s s' : State} {l : Label} {fd listenfd : Nat} {evd : EpollEvent}
  {batch rest : List EpollEvent}

def EpollEvent.Ends (evd : EpollEvent) : Prop := evd.fd = 0 ∧ evd.Ready

/-- An event of the listening socket that `process` does something for. -/
def EpollEvent.Listens (evd : EpollEvent) (listenfd : Nat) : Prop := evd.fd = listenfd ∧ evd.Ready

/-- No event that ends the server comes before one of the listening socket. -/
def Ordered (listenfd : Nat) (batch : List EpollEvent) : Prop :=
  batch.Pairwise fun evd later => evd.Ends → ¬later.Listens listenfd

/-- `epoll_wait` returns an ordered batch. -/
def Orderly (s : State) : Label → Prop
  | .wait batch => Ordered s.listenfd batch
  | _ => True

/-- The descriptor of an `accept`, of a `read`, and of the `write` that follows it, is open and
registered. -/
def IoOpen (s : State) : Label → Prop
  | .acceptFails | .refuse _ | .accept _ => s.listenfd ∈ s.opened ∧ s.listenfd ∈ s.epoll
  | .read _ _ => ∀ evd rest, s.batch = evd :: rest → evd.fd ∈ s.opened ∧ evd.fd ∈ s.epoll
  | .start _ _ | .fails | .wait _ | .terminate | .skip | .batchDone | .leave => True

theorem EpollEvent.Input.ready (h : evd.Input) : evd.Ready := by
  intro hnone
  apply h
  have hboth : epollin = (epollin ||| epollerr) &&& epollin := by decide
  rw [hboth, ← UInt32.and_assoc, hnone, UInt32.zero_and]

theorem terminateLoop_listenfd : (terminateLoop s).listenfd = s.listenfd := by
  unfold terminateLoop close
  dsimp only
  rw [remClient_listenfd, remClient_listenfd]

theorem terminateLoop_closes : s.listenfd ∉ (terminateLoop s).opened := Finset.notMem_erase _ _

/-- Once `main` has made it, the listening socket is not the standard input. -/
def Started (s : State) : Prop := s.pc = .main ∨ s.pc = .exited ∨ s.listenfd ≠ 0

theorem Step.started (h : Step s l s') (hr : Registered s) (hs : Started s) : Started s' := by
  cases h with
  | start hpc hlisten =>
    refine Or.inr (Or.inr ?_)
    rintro rfl
    exact hlisten (hr.main hpc).2.2
  | fails | leave => exact Or.inr (Or.inl rfl)
  | wait hpc | batchDone hpc =>
    have hlisten : s.listenfd ≠ 0 := by simpa [Started, hpc] using hs
    exact Or.inr (Or.inr hlisten)
  | acceptFails hc | refuse hc | accept hc =>
    have hlisten : s.listenfd ≠ 0 := by simpa [Started, hc.pc] using hs
    exact Or.inr (Or.inr hlisten)
  | skip | echo => exact hs
  | terminate =>
    unfold Started
    dsimp only
    rw [terminateLoop_pc, terminateLoop_listenfd]
    exact hs
  | close =>
    unfold Started Epoll.close
    dsimp only
    rw [remClient_pc, remClient_listenfd]
    exact hs

section Fresh

/-- The events left in the batch that matter are of descriptors of the set. -/
structure Fresh (s : State) : Prop where
  registered : Registered s
  nodup : (s.batch.map EpollEvent.fd).Nodup
  ordered : Ordered s.listenfd s.batch
  events : ∀ evd ∈ s.batch, evd.Ready → evd.fd ∈ s.epoll

theorem Fresh.init : Fresh init := ⟨Registered.init, List.nodup_nil, List.Pairwise.nil, nofun⟩

theorem Fresh.next (h : Fresh s) (hbatch : s.batch = evd :: rest) (hs' : Registered s')
    (hrest : s'.batch = rest) (hlisten : s'.listenfd = s.listenfd)
    (hkept : ∀ later ∈ rest, later.fd ≠ evd.fd → later.Ready → later.fd ∈ s.epoll →
      later.fd ∈ s'.epoll) : Fresh s' := by
  have hnodup := h.nodup
  have hordered := h.ordered
  rw [hbatch] at hordered hnodup
  rw [List.map_cons, List.nodup_cons] at hnodup
  refine ⟨hs', ?_, ?_, ?_⟩
  · rw [hrest]
    exact hnodup.2
  · rw [hrest, hlisten]
    exact (List.pairwise_cons.mp hordered).2
  · rw [hrest]
    intro later hlater hready
    have hne : later.fd ≠ evd.fd := by
      intro he
      rw [← he] at hnodup
      exact hnodup.1 (List.mem_map_of_mem hlater)
    apply hkept later hlater hne hready
    apply h.events later _ hready
    rw [hbatch]
    exact List.mem_cons_of_mem _ hlater

theorem Fresh.ends (h : Fresh s) (hbatch : s.batch = evd :: rest) (hends : evd.Ends) :
    ∀ later ∈ rest, later.Ready → later.fd ≠ s.listenfd := by
  intro later hlater hready hfd
  have hordered := h.ordered
  rw [hbatch] at hordered
  exact (List.pairwise_cons.mp hordered).1 later hlater hends ⟨hfd, hready⟩

theorem Registered.fresh (h : Registered s) (hbatch : s.batch = []) : Fresh s := by
  refine ⟨h, ?_, ?_, ?_⟩
  · rw [hbatch]
    exact List.nodup_nil
  · rw [hbatch]
    exact List.Pairwise.nil
  · rw [hbatch]
    exact nofun

theorem Step.fresh (h : Step s l s') (ho : Orderly s l) (hf : Fresh s) : Fresh s' := by
  have hr := h.registered hf.registered
  cases h with
  | start hpc => exact hr.fresh (hf.registered.main hpc).2.1
  | fails => exact ⟨hr, hf.nodup, hf.ordered, hf.events⟩
  | wait _ _ hbatch => exact ⟨hr, hbatch.nodup, ho, fun evd hevd _ => hbatch.mem evd hevd⟩
  | acceptFails | refuse => exact hr.fresh rfl
  | accept hc =>
    apply hf.next hc.batch hr rfl rfl
    intro later _ _ _ hmem
    exact List.mem_append_left _ hmem
  | skip hs | echo hs =>
    apply hf.next hs.batch hr rfl rfl
    intro later _ _ _ hmem
    exact hmem
  | terminate hs hready hzero =>
    apply hf.next hs.batch hr rfl terminateLoop_listenfd
    intro later hlater hne hready' hmem
    rw [hzero] at hne
    exact mem_terminateLoop.mpr ⟨hmem, hf.ends hs.batch ⟨hzero, hready⟩ later hlater hready', hne⟩
  | close hs =>
    apply hf.next hs.batch hr rfl
    · exact remClient_listenfd
    · intro later _ hne _ hmem
      exact mem_close.mpr ⟨mem_remClient.mpr ⟨hmem, hne⟩, hne⟩
  | batchDone | leave => exact ⟨hr, hf.nodup, hf.ordered, hf.events⟩

theorem Fresh.open (h : Fresh s) (hbatch : s.batch = evd :: rest) (hready : evd.Ready) :
    evd.fd ∈ s.opened ∧ evd.fd ∈ s.epoll := by
  have hmem : evd.fd ∈ s.epoll := by
    apply h.events evd _ hready
    rw [hbatch]
    exact List.mem_cons_self
  exact ⟨h.registered.opened evd.fd hmem, hmem⟩

theorem Fresh.ioOpen (h : Fresh s) (hstep : Step s l s') : IoOpen s l := by
  cases hstep with
  | start | fails | wait | skip | terminate | batchDone | leave => trivial
  | acceptFails hc | refuse hc | accept hc =>
    have hopen := h.open hc.batch hc.listens.2.ready
    rw [hc.listens.1] at hopen
    exact hopen
  | echo hs hready | close hs hready =>
    intro evd rest hbatch
    cases hs.batch.symm.trans hbatch
    exact h.open hs.batch hready

end Fresh

section Doomed

/-- An event that ends the server comes before one of the listening socket, or has come. -/
def Late (s : State) (batch : List EpollEvent) : Prop :=
  ¬Ordered s.listenfd batch ∨
    (s.listenfd ∉ s.opened ∧ ∃ evd ∈ batch, evd.Listens s.listenfd)

/-- In the batch under way, an event of the listening socket is going to be too late. -/
structure Doomed (s : State) : Prop where
  pc : s.pc = .process
  listens : s.listenfd ≠ 0
  nodup : (s.batch.map EpollEvent.fd).Nodup
  late : Late s s.batch

theorem not_ordered_cons (h : ¬Ordered listenfd (evd :: rest)) :
    (evd.Ends ∧ ∃ later ∈ rest, later.Listens listenfd) ∨ ¬Ordered listenfd rest := by
  by_cases hrest : Ordered listenfd rest
  · apply Or.inl
    by_contra hnone
    apply h
    apply List.pairwise_cons.mpr
    refine ⟨?_, hrest⟩
    intro later hlater hends hlistens
    exact hnone ⟨hends, later, hlater, hlistens⟩
  · exact Or.inr hrest

theorem exists_listens (h : ¬Ordered listenfd batch) : ∃ evd ∈ batch, evd.Listens listenfd := by
  induction batch with
  | nil => exact absurd List.Pairwise.nil h
  | cons evd rest ih =>
    have hlater : ∃ later ∈ rest, later.Listens listenfd := by
      cases not_ordered_cons h with
      | inl hends => exact hends.2
      | inr hrest => exact ih hrest
    obtain ⟨later, hmem, hlistens⟩ := hlater
    exact ⟨later, List.mem_cons_of_mem _ hmem, hlistens⟩

theorem Doomed.head (h : Doomed s) (hbatch : s.batch = evd :: rest)
    (hopen : s.listenfd ∈ s.opened) :
    ¬evd.Listens s.listenfd := by
  intro hlistens
  have hlate := h.late
  have hnodup := h.nodup
  rw [hbatch] at hlate hnodup
  rw [List.map_cons, List.nodup_cons] at hnodup
  cases hlate with
  | inl horder =>
    have hlater : ∃ later ∈ rest, later.Listens s.listenfd := by
      cases not_ordered_cons horder with
      | inl hends => exact hends.2
      | inr hrest => exact exists_listens hrest
    obtain ⟨later, hmem, hfd, _⟩ := hlater
    apply hnodup.1
    rw [hlistens.1, ← hfd]
    exact List.mem_map_of_mem hmem
  | inr hclosed => exact hclosed.1 hopen

/-- An event that is done with was not the one that comes too late. If it ended the server, the
socket is closed. -/
theorem Doomed.next (h : Doomed s) (hbatch : s.batch = evd :: rest)
    (hhead : ¬evd.Listens s.listenfd) (hpc : s'.pc = s.pc) (hrest : s'.batch = rest)
    (hlisten : s'.listenfd = s.listenfd) (hsub : s'.opened ⊆ s.opened)
    (hends : evd.Ends → s.listenfd ∉ s'.opened) : Doomed s' := by
  have hlate := h.late
  have hnodup := h.nodup
  rw [hbatch] at hlate hnodup
  rw [List.map_cons, List.nodup_cons] at hnodup
  refine ⟨hpc.trans h.pc, hlisten ▸ h.listens, by rw [hrest]; exact hnodup.2, ?_⟩
  unfold Late
  rw [hrest, hlisten]
  cases hlate with
  | inl horder =>
    cases not_ordered_cons horder with
    | inl hnow => exact Or.inr ⟨hends hnow.1, hnow.2⟩
    | inr hlater => exact Or.inl hlater
  | inr hclosed =>
    obtain ⟨hout, later, hmem, hlistens⟩ := hclosed
    refine Or.inr ⟨fun hin => hout (hsub hin), later, ?_, hlistens⟩
    cases List.mem_cons.mp hmem with
    | inl hself =>
      rw [hself] at hlistens
      exact absurd hlistens hhead
    | inr hin => exact hin

theorem Doomed.step (h : Doomed s) (hstep : Step s l s') (hio : IoOpen s l) : Doomed s' := by
  have hpc := h.pc
  cases hstep with
  | start hmain | fails hmain => cases hpc.symm.trans hmain
  | wait hwait | leave hwait => cases hpc.symm.trans hwait
  | acceptFails hc | refuse hc | accept hc =>
    exact absurd ⟨hc.listens.1, hc.listens.2.ready⟩ (h.head hc.batch hio.1)
  | skip hs hnot =>
    refine h.next hs.batch (fun hl => hnot hl.2) rfl rfl rfl (Finset.Subset.refl _) ?_
    intro hends
    exact absurd hends.2 hnot
  | @terminate evd rest hs hready hzero =>
    refine h.next hs.batch ?_ terminateLoop_pc rfl terminateLoop_listenfd ?_ ?_
    · intro hl
      exact h.listens (hl.1.symm.trans hzero)
    · unfold terminateLoop close
      dsimp only
      rw [remClient_opened, remClient_opened]
      exact Finset.erase_subset _ _
    · intro _
      exact terminateLoop_closes
  | @echo evd rest _ _ hs hready hne hopen hother =>
    refine h.next hs.batch (fun hl => hother hl.1) rfl rfl rfl (Finset.Subset.refl _) ?_
    intro hends
    exact absurd hends.1 hne
  | @close evd rest _ hs hready hne =>
    have hhead : ¬evd.Listens s.listenfd := by
      intro hl
      have hopen := (hio evd rest hs.batch).1
      rw [hl.1] at hopen
      exact h.head hs.batch hopen hl
    refine h.next hs.batch hhead remClient_pc rfl remClient_listenfd ?_ ?_
    · unfold close
      dsimp only
      rw [remClient_opened]
      exact Finset.erase_subset _ _
    · intro hends
      exact absurd hends.1 hne
  | batchDone _ hbatch =>
    have hlate := h.late
    rw [hbatch] at hlate
    cases hlate with
    | inl horder => exact absurd List.Pairwise.nil horder
    | inr hclosed =>
      obtain ⟨_, later, hmem, _⟩ := hclosed
      cases hmem

theorem doomed_of_wait (h : Step s l s') (hs : Started s) (hnot : ¬Orderly s l) : Doomed s' := by
  cases h with
  | wait hpc _ hbatch =>
    have hlisten : s.listenfd ≠ 0 := by simpa [Started, hpc] using hs
    exact ⟨rfl, hlisten, hbatch.nodup, Or.inl hnot⟩
  | _ => exact absurd trivial hnot

end Doomed

section Runs

theorem orderly_or_doomed {ls : List Label}
    (h : Runs (fun a l b => Step a l b ∧ IoOpen a l) init ls s) :
    Runs (fun a l b => Step a l b ∧ Orderly a l) init ls s ∨ Doomed s := by
  refine (h.mono_or (P := fun a => Registered a ∧ Started a) (Q := Doomed) ?_ ?_ ?_).1
  · exact ⟨Registered.init, Or.inl rfl⟩
  · rintro a l b ⟨hr, hs⟩ ⟨hstep, _⟩
    refine ⟨?_, hstep.registered hr, hstep.started hr hs⟩
    by_cases ho : Orderly a l
    · exact Or.inl ⟨hstep, ho⟩
    · exact Or.inr (doomed_of_wait hstep hs ho)
  · rintro a l b _ hd ⟨hstep, hio⟩
    exact hd.step hstep hio

/-- In every run in which no batch has an event that ends the server before one of the
listening socket, every accept, read and write of `process` is on an open and registered
descriptor. And where this holds of a run, at the end of a batch, no batch had. -/
theorem io_open_iff (ls : List Label) (s : State) :
    (Runs (fun a l b => Step a l b ∧ Orderly a l) init ls s →
      Runs (fun a l b => Step a l b ∧ IoOpen a l) init ls s) ∧
    (s.pc ≠ .process → Runs (fun a l b => Step a l b ∧ IoOpen a l) init ls s →
      Runs (fun a l b => Step a l b ∧ Orderly a l) init ls s) := by
  constructor
  · intro hrun
    refine (hrun.mono_of (P := Fresh) Fresh.init ?_).1
    rintro a l b hf ⟨hstep, ho⟩
    exact ⟨⟨hstep, hf.ioOpen hstep⟩, hstep.fresh ho hf⟩
  · intro hpc hrun
    exact (orderly_or_doomed hrun).resolve_right fun hdoomed => hpc hdoomed.pc

/-- A line is typed, and a client connects. -/
theorem accept_on_closed : ¬∀ (ls : List Label) (s : State), Runs Step init ls s →
    ∀ l t, Step s l t → IoOpen s l := by
  intro hall
  have hstart := Runs.single (s := init) (l := Label.start 3 4)
    (Step.start rfl (by decide) (by decide))
  have hready := hstart.snoc (l := Label.wait [⟨0, 1⟩, ⟨3, 1⟩])
    (Step.wait rfl (by decide) ⟨by decide, by decide, by decide⟩)
  have hends := hready.snoc (l := Label.terminate)
    (Step.terminate ⟨rfl, rfl, by decide⟩ (by decide) rfl)
  have hopen := (hall _ _ hends .acceptFails _ (Step.acceptFails ⟨rfl, rfl, rfl, by decide⟩)).1
  revert hopen
  decide

end Runs

end OsCourse.Servers.Epoll
