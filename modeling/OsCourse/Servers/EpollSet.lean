import OsCourse.Lib.Counted
import OsCourse.Servers.Epoll

/-! The epoll set of the epoll server, over whole runs: it has open descriptors, each once,
and `nclients` counts them. -/
namespace OsCourse.Servers.Epoll
open Relay
variable {s s' : State} {l : Label} {cfd fd : Nat} {evd : EpollEvent} {rest : List EpollEvent}

structure Registered (s : State) : Prop where
  counted : Counted s.epoll s.nclients
  opened : ∀ fd ∈ s.epoll, fd ∈ s.opened
  main : s.pc = .main → s.epoll = [] ∧ s.batch = [] ∧ 0 ∈ s.opened

theorem Registered.init : Registered init := ⟨Counted.nil, nofun, fun _ => by decide⟩

theorem Registered.goto (h : Registered s) (pc : Pc) (hpc : pc ≠ .main) (batch : List EpollEvent)
    (net : Net) : Registered { s with batch := batch, pc := pc, net := net } :=
  ⟨h.counted, h.opened, fun hmain => absurd hmain hpc⟩

theorem Registered.add (h : Registered s) (hfree : cfd ∉ s.epoll) (hopen : cfd ∈ s.opened)
    (hpc : s.pc ≠ .main) : Registered (addClient s cfd) where
  counted := h.counted.add hfree
  opened := by
    intro fd hfd
    cases List.mem_append.mp hfd with
    | inl hold => exact h.opened fd hold
    | inr hnew =>
      rw [List.mem_singleton.mp hnew]
      exact hopen
  main := fun hmain => absurd hmain hpc

theorem mem_remClient : fd ∈ (remClient s cfd).epoll ↔ fd ∈ s.epoll ∧ fd ≠ cfd := by
  unfold remClient
  split
  · rw [List.mem_filter, decide_eq_true_eq]
  · rename_i hnone
    constructor
    · intro hfd
      refine ⟨hfd, ?_⟩
      rintro rfl
      exact hnone hfd
    · exact And.left

theorem remClient_opened : (remClient s cfd).opened = s.opened := by
  unfold remClient
  split <;> rfl

theorem remClient_pc : (remClient s cfd).pc = s.pc := by
  unfold remClient
  split <;> rfl

theorem remClient_batch : (remClient s cfd).batch = s.batch := by
  unfold remClient
  split <;> rfl

theorem remClient_listenfd : (remClient s cfd).listenfd = s.listenfd := by
  unfold remClient
  split <;> rfl

theorem Registered.remove (h : Registered s) : Registered (remClient s cfd) where
  counted := by
    unfold remClient
    split
    · rename_i hmem
      exact h.counted.remove hmem
    · exact h.counted
  opened := by
    intro fd hfd
    rw [remClient_opened]
    exact h.opened fd (mem_remClient.mp hfd).1
  main := by
    rw [remClient_pc, remClient_opened, remClient_batch]
    intro hmain
    obtain ⟨hnil, hbatch⟩ := h.main hmain
    refine ⟨?_, hbatch⟩
    unfold remClient
    rw [hnil]
    exact hnil

theorem not_mem_remClient : cfd ∉ (remClient s cfd).epoll := fun h => (mem_remClient.mp h).2 rfl

theorem Registered.close (h : Registered s) (hout : cfd ∉ s.epoll) (hpc : s.pc ≠ .main) :
    Registered (close s cfd) := by
  have hsame : s.epoll.filter (· ≠ cfd) = s.epoll := by
    rw [List.filter_eq_self]
    intro fd hfd
    rw [decide_eq_true_eq]
    rintro rfl
    exact hout hfd
  unfold Epoll.close
  rw [hsame]
  refine ⟨h.counted, ?_, fun hmain => absurd hmain hpc⟩
  intro fd hfd
  rw [Finset.mem_erase]
  refine ⟨?_, h.opened fd hfd⟩
  rintro rfl
  exact hout hfd

theorem mem_close : fd ∈ (close s cfd).epoll ↔ fd ∈ s.epoll ∧ fd ≠ cfd := by
  unfold Epoll.close
  rw [List.mem_filter, decide_eq_true_eq]

theorem mem_terminateLoop : fd ∈ (terminateLoop s).epoll ↔
    fd ∈ s.epoll ∧ fd ≠ s.listenfd ∧ fd ≠ 0 := by
  unfold terminateLoop
  rw [mem_close, mem_remClient, mem_remClient]
  tauto

theorem terminateLoop_pc : (terminateLoop s).pc = s.pc := by
  unfold terminateLoop Epoll.close
  dsimp only
  rw [remClient_pc, remClient_pc]

theorem Registered.terminate (h : Registered s) (hpc : s.pc ≠ .main) :
    Registered (terminateLoop s) := by
  apply h.remove.remove.close
  · intro hmem
    exact not_mem_remClient (mem_remClient.mp hmem).1
  · rw [remClient_pc, remClient_pc]
    exact hpc

theorem Step.registered (h : Step s l s') (hr : Registered s) : Registered s' := by
  cases h with
  | @start listenfd epollFd hpc hlisten hepoll =>
    obtain ⟨hnil, _, hstdin⟩ := hr.main hpc
    have hbound : Registered { s with
        listenfd := listenfd, opened := insert epollFd (insert listenfd s.opened),
        pc := .wait } := by
      refine ⟨hr.counted, ?_, nofun⟩
      dsimp only
      rw [hnil]
      exact nofun
    have hnone : listenfd ∉ s.epoll := by
      rw [hnil]
      exact nofun
    apply (hbound.add hnone (by simp) nofun).add
    · dsimp only [addClient]
      rw [hnil, List.nil_append, List.mem_singleton]
      rintro rfl
      exact hlisten hstdin
    · simp [addClient, hstdin]
    · exact nofun
  | fails => exact hr.goto .exited nofun s.batch s.net
  | @wait batch => exact hr.goto .process nofun batch s.net
  | acceptFails | refuse => exact hr.goto .wait nofun [] s.net
  | @accept evd rest cfd hc _ hfree =>
    have hopen : Registered { s with
        opened := insert cfd s.opened, net := s.net.restart cfd, batch := rest } := by
      refine ⟨hr.counted, ?_, fun hmain => absurd (hc.pc.symm.trans hmain) nofun⟩
      intro fd hfd
      exact Finset.mem_insert_of_mem (hr.opened fd hfd)
    apply hopen.add
    · intro hmem
      exact hfree (hr.opened cfd hmem)
    · exact Finset.mem_insert_self _ _
    · dsimp only
      rw [hc.pc]
      exact nofun
  | @skip evd rest hs => exact hr.goto s.pc (by rw [hs.pc]; exact nofun) rest s.net
  | @terminate evd rest hs =>
    have hpc : s.pc ≠ .main := by
      rw [hs.pc]
      exact nofun
    have ht := hr.terminate hpc
    exact ⟨ht.counted, ht.opened, fun hmain => absurd (terminateLoop_pc.symm.trans hmain) hpc⟩
  | @echo evd rest _ _ hs => exact hr.goto s.pc (by rw [hs.pc]; exact nofun) rest _
  | @close evd rest _ hs =>
    have hpc : (remClient s evd.fd).pc ≠ .main := by
      rw [remClient_pc, hs.pc]
      exact nofun
    have hclosed := hr.remove.close not_mem_remClient hpc
    exact ⟨hclosed.counted, hclosed.opened, fun hmain => absurd hmain hpc⟩
  | batchDone => exact hr.goto .wait nofun s.batch s.net
  | leave => exact hr.goto .exited nofun s.batch s.net

end OsCourse.Servers.Epoll
