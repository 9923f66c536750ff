import Mathlib.Data.Fintype.EquivFin
import OsCourse.Lib.Transition
import OsCourse.Servers.EpollSet
import OsCourse.Servers.LoopBatch

/-! The calls of `epoll_wait` of the epoll server and of the callback loop: the kernel is
allowed `nclients` events, in an array whose length nobody compares with `nclients`. -/
namespace OsCourse.Servers
open Function Transition

section Calls

/-- A call of `epoll_wait` passes a count that the array of events has room for. -/
def Epoll.Fits (s : Epoll.State) : Epoll.Label → Prop
  | .wait _ => 1 ≤ s.nclients ∧ s.nclients ≤ Epoll.epoolMaxFds
  | _ => True

/-- A call of `epoll_wait` finds no more descriptors registered than the array has places. -/
def Epoll.Few (s : Epoll.State) : Epoll.Label → Prop
  | .wait _ => s.epoll.toFinset.card ≤ Epoll.epoolMaxFds
  | _ => True

/-- `EPOOL_MAX_FDS` of loop.h, the length of its array of events. -/
def Loop.epoolMaxFds : Nat := 1024

variable {Cb : Type*}

def Loop.Fits (s : Loop.State Cb) : Loop.Label Cb → Prop
  | .wait _ => 1 ≤ s.loop.nclients ∧ s.loop.nclients ≤ Loop.epoolMaxFds
  | _ => True

def Loop.Few (s : Loop.State Cb) : Loop.Label Cb → Prop
  | .wait _ => (s.loop.epoll.map Loop.Entry.fd).toFinset.card ≤ Loop.epoolMaxFds
  | _ => True

end Calls

section EpollServer
open Epoll
variable {s s' : Epoll.State} {l : Epoll.Label}

theorem Epoll.Registered.fits (h : Registered s) (hstep : Epoll.Step s l s') :
    Epoll.Fits s l ↔ Epoll.Few s l := by
  cases hstep with
  | wait _ hpos =>
    dsimp only [Epoll.Fits, Epoll.Few]
    rw [h.counted.card]
    omega
  | _ => exact Iff.rfl

theorem Epoll.fits_iff (ls : List Epoll.Label) (s : Epoll.State) :
    Runs (fun a l b => Epoll.Step a l b ∧ Epoll.Few a l) Epoll.init ls s ↔
      Runs (fun a l b => Epoll.Step a l b ∧ Epoll.Fits a l) Epoll.init ls s := by
  apply Runs.iff_of (P := Registered) (Q := Registered)
  · exact Registered.init
  · exact Registered.init
  · rintro a l b hr ⟨hstep, hfew⟩
    exact ⟨⟨hstep, (hr.fits hstep).mpr hfew⟩, hstep.registered hr⟩
  · rintro a l b hr ⟨hstep, hfits⟩
    exact ⟨⟨hstep, (hr.fits hstep).mp hfits⟩, hstep.registered hr⟩

theorem Epoll.many_clients (n : Nat) : ∃ ls s, Runs Epoll.Step Epoll.init ls s ∧
    s.pc = .wait ∧ s.nclients = n + 2 ∧ s.listenfd ∈ s.opened ∧ s.listenfd ∈ s.epoll := by
  induction n with
  | zero =>
    have hstart := Runs.single (s := Epoll.init) (l := Epoll.Label.start 3 4)
      (Epoll.Step.start rfl (by decide) (by decide))
    exact ⟨_, _, hstart, rfl, rfl, by decide, by decide⟩
  | succ n ih =>
    obtain ⟨ls, s, hrun, hpc, hcount, hopen, hlisten⟩ := ih
    obtain ⟨cfd, hfresh⟩ := Infinite.exists_notMem_finset s.opened
    have hready := hrun.snoc (l := Epoll.Label.wait [⟨s.listenfd, epollin⟩])
      (Epoll.Step.wait hpc (by omega) ⟨by simpa using hlisten, by simp, by simp; omega⟩)
    have hinput : epollin &&& epollin ≠ 0 := by decide
    have haccept := hready.snoc (l := Epoll.Label.accept cfd)
      (Epoll.Step.accept ⟨rfl, rfl, rfl, hinput⟩ hopen hfresh)
    have hback := haccept.snoc (l := Epoll.Label.batchDone) (Epoll.Step.batchDone rfl rfl)
    refine ⟨_, _, hback, rfl, ?_, ?_, ?_⟩
    · dsimp only [Epoll.addClient]
      omega
    · exact Finset.mem_insert_of_mem hopen
    · exact List.mem_append_left _ hlisten

theorem Epoll.overrun : ¬∀ ls s, Runs Epoll.Step Epoll.init ls s → ∀ l t, Epoll.Step s l t →
    Epoll.Fits s l := by
  intro hall
  obtain ⟨ls, s, hrun, hpc, hcount, -⟩ := Epoll.many_clients 1023
  have hwait : Epoll.Step s (.wait []) _ :=
    Epoll.Step.wait hpc (by omega) ⟨nofun, List.nodup_nil, Nat.zero_le _⟩
  have hfits := (hall ls s hrun _ _ hwait).2
  unfold epoolMaxFds at hfits
  omega

end EpollServer

section CallbackLoop
open Loop
variable {Cb : Type*} {s s' : Loop.State Cb} {l : Loop.Label Cb}

def Loop.Counts (loop : AsyncLoop Cb) : Prop := Counted (loop.epoll.map Entry.fd) loop.nclients

theorem Loop.Counts.registFd {loop : AsyncLoop Cb} (h : Counts loop) {ah fd : Nat} {added : Bool}
    (hnew : added = true → fd ∉ loop.epoll.map Entry.fd) :
    Counts (ahRegistFd loop ah fd added) := by
  cases added with
  | false => exact h
  | true =>
    have hadd := Counted.add h (hnew rfl)
    unfold Counts ahRegistFd Loop.addClient
    dsimp only
    rw [if_pos rfl, List.map_append]
    exact hadd

theorem Loop.Counts.remClient {loop : AsyncLoop Cb} (h : Counts loop) (cfd : Nat) :
    Counts (Loop.remClient loop cfd) := by
  unfold Loop.remClient
  split
  · rename_i hmem
    have hremove := Counted.remove h hmem
    rw [List.filter_map] at hremove
    exact hremove
  · exact h

theorem Loop.Counts.close {loop : AsyncLoop Cb} (h : Counts loop) (ah : Nat) :
    Counts (ahClose loop ah) := by
  unfold ahClose
  split
  · rename_i a _
    exact h.remClient a.fd
  · exact h

theorem Loop.Step.counts (h : Loop.Step s l s') (hc : Counts s.loop) : Counts s'.loop := by
  cases h with
  | registFd _ _ hnew => exact hc.registFd hnew
  | @close ah => exact hc.close ah
  | _ => exact hc

theorem Loop.Counts.fits (h : Counts s.loop) (hstep : Loop.Step s l s') :
    Loop.Fits s l ↔ Loop.Few s l := by
  cases hstep with
  | wait _ hpos =>
    dsimp only [Loop.Fits, Loop.Few]
    rw [h.card]
    omega
  | _ => exact Iff.rfl

theorem Loop.fits_iff (ls : List (Loop.Label Cb)) (s : Loop.State Cb) :
    Runs (fun a l b => Loop.Step a l b ∧ Loop.Few a l) Loop.init ls s ↔
      Runs (fun a l b => Loop.Step a l b ∧ Loop.Fits a l) Loop.init ls s := by
  apply Runs.iff_of (P := fun a => Counts a.loop) (Q := fun a => Counts a.loop)
  · exact Counted.nil
  · exact Counted.nil
  · rintro a l b hc ⟨hstep, hfew⟩
    exact ⟨⟨hstep, (hc.fits hstep).mpr hfew⟩, hstep.counts hc⟩
  · rintro a l b hc ⟨hstep, hfits⟩
    exact ⟨⟨hstep, (hc.fits hstep).mp hfits⟩, hstep.counts hc⟩

theorem Loop.many_handles (n : Nat) : ∃ ls, ∃ s : Loop.State Cb, Runs Loop.Step Loop.init ls s ∧
    s.pc = .user ∧ s.batch = [] ∧ s.loop.nclients = n ∧ (∀ p, n ≤ p → s.loop.heap p = none) ∧
    ∀ fd ∈ s.loop.epoll.map Entry.fd, fd < n := by
  induction n with
  | zero => exact ⟨[], _, Runs.nil _, rfl, rfl, rfl, fun _ _ => rfl, nofun⟩
  | succ n ih =>
    obtain ⟨ls, s, hrun, hpc, hbatch, hcount, hfree, hfds⟩ := ih
    have hregist := hrun.snoc (l := .registFd n n true) (Loop.Step.registFd hpc
      (hfree n (le_refl n)) fun _ hmem => Nat.lt_irrefl n (hfds n hmem))
    refine ⟨_, _, hregist, hpc, hbatch, ?_, ?_, ?_⟩
    · rw [← hcount]
      rfl
    · intro p hp
      dsimp only
      rw [ahRegistFd_heap, update_of_ne (by omega)]
      exact hfree p (by omega)
    · intro fd hfd
      obtain ⟨e, he, rfl⟩ := List.mem_map.mp hfd
      cases mem_ahRegistFd he with
      | inl hold =>
        have hlt := hfds e.fd (List.mem_map_of_mem hold)
        omega
      | inr hnew =>
        rw [hnew]
        exact Nat.lt_succ_self n

theorem Loop.overrun : ¬∀ ls (s : Loop.State Cb), Runs Loop.Step Loop.init ls s →
    ∀ l t, Loop.Step s l t → Loop.Fits s l := by
  intro hall
  obtain ⟨ls, s, hrun, hpc, hbatch, hcount, _⟩ := @Loop.many_handles Cb 1025
  have hback := hrun.snoc (l := .back) (Loop.Step.back hpc)
  have hhead := hback.snoc (l := .batchDone)
    (Loop.Step.batchDone (s := { s with pc := .process }) rfl hbatch)
  have hfits := (hall _ _ hhead (.wait []) _ (Loop.Step.wait rfl (by dsimp only; omega)
    ⟨nofun, List.nodup_nil⟩)).2
  dsimp only at hfits
  unfold Loop.epoolMaxFds at hfits
  omega

end CallbackLoop

section Runs

/-- For the epoll server, and for the callback loop under any callbacks: the runs in which
every `epoll_wait` finds at most `EPOOL_MAX_FDS` descriptors registered are those in which the
count passed to it is always between 1 and `EPOOL_MAX_FDS`. -/
theorem max_events_iff (Cb : Type*) :
    (∀ ls s, Runs (fun a l b => Epoll.Step a l b ∧ Epoll.Few a l) Epoll.init ls s ↔
      Runs (fun a l b => Epoll.Step a l b ∧ Epoll.Fits a l) Epoll.init ls s) ∧
    ∀ ls (s : Loop.State Cb),
      Runs (fun a l b => Loop.Step a l b ∧ Loop.Few a l) Loop.init ls s ↔
        Runs (fun a l b => Loop.Step a l b ∧ Loop.Fits a l) Loop.init ls s :=
  ⟨Epoll.fits_iff, Loop.fits_iff⟩

/-- With 1023 clients connected to the epoll server, and with 1025 handles registered in the
loop, `epoll_wait` may write 1025 events. -/
theorem max_events_overrun :
    (¬∀ ls s, Runs Epoll.Step Epoll.init ls s → ∀ l t, Epoll.Step s l t → Epoll.Fits s l) ∧
    ¬∀ ls (s : Loop.State Unit), Runs Loop.Step Loop.init ls s → ∀ l t, Loop.Step s l t →
      Loop.Fits s l :=
  ⟨Epoll.overrun, Loop.overrun⟩

end Runs

end OsCourse.Servers
