import OsCourse.Servers.Pass
import OsCourse.Servers.PollScan

/-! The passes of `process` over the slots of the poll server. The slot of the listening socket
is not scanned, and that of a new client keeps what `poll` once reported there. -/
namespace OsCourse.Servers
open Transition

namespace Poll
open OsCourse.Compact Function Relay Sweep
variable {s s' t : State} {l : Label} {cfd i : Nat} {nready : Int}

def Label.Passes : Label → Prop
  | .noAccept | .accept _ | .skip | .read _ _ | .done => True
  | .socket _ | .fails | .poll _ | .acceptFails => False

def readFd (s : State) : Label → Option Nat
  | .read _ _ =>
    match s.pc with
    | .scan i _ => some (s.clients i).fd
    | _ => none
  | _ => none

def Kept (s : State) : Label → Prop
  | .read _ .done => ∀ i nready, s.pc = .scan i nready → i + 1 < s.nclients →
      (s.clients (s.nclients - 1)).fd ∉ s.reported
  | _ => True

def State.fdCells (s : State) (j : Nat) : Nat := (s.clients j).fd

def State.fds (s : State) : List Nat := entries s.fdCells s.nclients

def State.Connects (s : State) : Prop := (s.clients 0).revents &&& pollin ≠ 0

instance : Decidable s.Connects := inferInstanceAs (Decidable (_ ≠ _))

def scanner : Scanner where
  State := State
  Label := Label
  init := init
  Step := Step
  Called s := (∃ nready, s.pc = .process nready) ∧ (s.Connects → s.nclients ≠ fopenMax)
  Returned s := s.pc = .poll
  Passes := Label.Passes
  clients s := s.fds.drop 1
  Ready s fd := fd ∈ s.reported
  readFd := readFd
  Kept := Kept

def accepts (s : State) : Nat := if s.Connects then 1 else 0

def view (a : State × List Nat) : Sweep.State Nat :=
  match a.1.pc with
  | .process nready => ⟨a.1.fds.drop 1, nready - accepts a.1, a.2⟩
  | .scan i nready => ⟨a.1.fds.drop i, nready, a.2⟩
  | .main | .poll | .exited => ⟨[], 0, a.2⟩

section Slots

theorem fdCells_add (hadd : addClient s cfd = some t) :
    t.fdCells = update s.fdCells s.nclients cfd := by
  obtain ⟨_, rfl⟩ := addClient_some hadd
  funext j
  by_cases hj : j = s.nclients
  · rw [hj]
    simp [State.fdCells]
  · simp [State.fdCells, hj]

theorem fds_add (hadd : addClient s cfd = some t) : t.fds = s.fds ++ [cfd] := by
  unfold State.fds
  rw [fdCells_add hadd]
  obtain ⟨_, rfl⟩ := addClient_some hadd
  exact entries_add

theorem drop_fds_add (hslot : 1 ≤ s.nclients) (hadd : addClient s cfd = some t) :
    t.fds.drop 1 = s.fds.drop 1 ++ [cfd] := by
  rw [fds_add hadd, List.drop_append_of_le_length]
  unfold State.fds
  rw [length_entries]
  exact hslot

theorem fdCells_remove : (remClient s i).fdCells = remove s.fdCells s.nclients i := by
  funext j
  unfold remove
  by_cases hj : j = i
  · rw [hj]
    simp [State.fdCells, remClient, remove]
  · simp [State.fdCells, remClient, remove, hj]

theorem drop_fds_remove :
    (remClient s i).fds.drop (i + 1) = (s.fds.drop (i + 1)).dropLast := by
  unfold State.fds
  rw [fdCells_remove]
  exact drop_entries_remove

theorem not_mem_fds (h : s.Fresh cfd) : cfd ∉ s.fds := by
  intro hin
  obtain ⟨j, hj, heq⟩ := mem_entries.mp hin
  exact h j hj heq

theorem fds_poll {revents : Nat → UInt16} {reported : List Nat} {pc : Pc} :
    ({ s with clients := Poll.poll s revents, reported := reported, pc := pc } : State).fds =
      s.fds := by
  apply List.map_congr_left
  intro j hj
  have hlt := List.mem_range.mp hj
  simp [State.fdCells, Poll.poll, hlt]

structure Distinct (s : State) : Prop where
  nodup : s.fds.Nodup
  main : s.pc = .main → s.nclients = 0

theorem Distinct.add (h : s.fds.Nodup) (hfresh : s.Fresh cfd) (hadd : addClient s cfd = some t) :
    t.fds.Nodup := by
  rw [fds_add hadd, List.nodup_append]
  refine ⟨h, List.nodup_singleton cfd, ?_⟩
  intro fd hfd fd' hfd'
  rw [List.mem_singleton.mp hfd']
  rintro rfl
  exact not_mem_fds hfresh hfd

theorem Distinct.remove (h : s.fds.Nodup) (hi : i < s.nclients) : (remClient s i).fds.Nodup := by
  have hperm := @entries_remove Nat s.fdCells s.nclients i hi
  have hnodup := hperm.nodup_iff.mpr h
  unfold State.fds
  rw [fdCells_remove]
  exact (List.nodup_cons.mp hnodup).2

theorem Step.distinct (h : Step s l s') (hd : Distinct s) : Distinct s' := by
  cases h with
  | @socket t fd hpc hadd =>
    have hnone : s.Fresh fd := by
      intro j hj
      rw [hd.main hpc] at hj
      cases hj
    have hnodup : t.fds.Nodup := Distinct.add hd.nodup hnone hadd
    exact ⟨hnodup, nofun⟩
  | fails => exact ⟨hd.nodup, nofun⟩
  | poll =>
    refine ⟨?_, nofun⟩
    rw [fds_poll]
    exact hd.nodup
  | noAccept | acceptFails | refuse | skip | echo | done => exact ⟨hd.nodup, nofun⟩
  | @accept t nready cfd _ _ hfresh hadd =>
    have hnodup : t.fds.Nodup := Distinct.add hd.nodup hfresh hadd
    refine ⟨hnodup, ?_⟩
    intro hmain
    dsimp only [afterAccept] at hmain
    split at hmain <;> cases hmain
  | @close i nready _ _ _ hi =>
    have hnodup : (remClient s i).fds.Nodup := Distinct.remove hd.nodup hi
    exact ⟨hnodup, nofun⟩

end Slots

section Reported

def State.readySlots (s : State) : Nat :=
  (List.range s.nclients).countP fun j => (s.clients j).revents ≠ 0

/-- What `poll` leaves behind for `process`. -/
structure Reported (s : State) (nready : Int) : Prop where
  slot : 1 ≤ s.nclients
  mem : ∀ fd ∈ s.reported, fd ∈ s.fds
  ready : ∀ j < s.nclients, s.fdCells j ∈ s.reported ↔ (s.clients j).Ready
  count : nready = s.readySlots

theorem Step.not_process (h : Step s l s') (hpass : l.Passes) (nready : Int) :
    s'.pc ≠ .process nready := by
  intro hpc
  cases h with
  | accept =>
    dsimp only [afterAccept] at hpc
    split at hpc <;> cases hpc
  | socket | fails | poll | acceptFails => cases hpass
  | _ => cases hpc

theorem fd_inj (h : s.fds.Nodup) {j k : Nat} (hj : j < s.nclients) (hk : k < s.nclients)
    (he : s.fdCells j = s.fdCells k) : j = k := by
  apply List.inj_on_of_nodup_map h (List.mem_range.mpr hj) (List.mem_range.mpr hk) he

theorem Step.reported (h : Step s l s') (hd : Distinct s) :
    ∀ nready, s'.pc = .process nready → Reported s' nready := by
  have hd' := h.distinct hd
  intro nready hpc
  cases h with
  | @poll revents _ hn =>
    cases hpc
    refine ⟨hn, ?_, ?_, ?_⟩
    · intro fd hfd
      obtain ⟨j, hj, heq⟩ := of_mem_readyFds hfd
      exact mem_entries.mpr ⟨j, hj, heq⟩
    · intro j hj
      constructor
      · intro hin
        obtain ⟨slot, hslot, heq⟩ := List.mem_map.mp hin
        rw [List.mem_filter, decide_eq_true_eq] at hslot
        obtain ⟨k, hk, rfl⟩ := mem_entries.mp hslot.1
        have hsame := fd_inj hd'.nodup hk hj heq
        rw [← hsame]
        exact hslot.2
      · exact mem_readyFds hj
    · unfold readyCount State.readySlots
      congr 1
      apply List.countP_congr
      intro j hj
      have hlt := List.mem_range.mp hj
      simp [Poll.poll, hlt]
  | accept hproc hlisten hfresh hadd =>
    exact absurd hpc ((Step.accept hproc hlisten hfresh hadd).not_process trivial nready)
  | _ => cases hpc

/-- From slot `i` on, the slots that were reported look ready, and those that look ready were
reported, but perhaps for the last. -/
def Shown (s : State) (i : Nat) : Prop := ∀ j, i ≤ j → j < s.nclients →
  (s.fdCells j ∈ s.reported → (s.clients j).Ready) ∧
    (j + 1 < s.nclients → (s.clients j).Ready → s.fdCells j ∈ s.reported)

theorem Reported.shown (h : Reported s nready) : Shown s 1 := by
  intro j _ hj
  exact ⟨(h.ready j hj).mp, fun _ => (h.ready j hj).mpr⟩

theorem Reported.not_mem (h : Reported s nready) (hfresh : s.Fresh cfd) : cfd ∉ s.reported :=
  fun hin => not_mem_fds hfresh (h.mem cfd hin)

theorem Reported.shown_add (h : Reported s nready) (hfresh : s.Fresh cfd)
    (hadd : addClient s cfd = some t) : Shown t 1 := by
  have hcells := fdCells_add hadd
  have hnew := h.not_mem hfresh
  obtain ⟨_, rfl⟩ := addClient_some hadd
  intro j _ hj
  rw [hcells]
  dsimp only at hj ⊢
  by_cases he : j = s.nclients
  · rw [he, update_self]
    exact ⟨fun hin => absurd hin hnew, fun hlt => absurd hlt (Nat.lt_irrefl _)⟩
  · have hready := h.ready j (by omega)
    rw [update_of_ne he, update_of_ne he]
    exact ⟨hready.mp, fun _ => hready.mpr⟩

theorem Shown.next (h : Shown s i) : Shown s (i + 1) := fun j hij => h j (Nat.le_of_succ_le hij)

/-- The slot that moves down lands behind the scan. -/
theorem Shown.remove (h : Shown s i) : Shown (remClient s i) (i + 1) := by
  intro j hij hj
  rw [fdCells_remove]
  dsimp only [remClient] at hj ⊢
  rw [remove_of_ne (by omega), remove_of_ne (by omega)]
  obtain ⟨hready, hback⟩ := h j (by omega) (by omega)
  exact ⟨hready, fun hlt => hback (by omega)⟩

theorem Shown.mem_reported (h : Shown s i) (hi : i < s.nclients) (hready : (s.clients i).Ready)
    (hmore : s.fds.drop (i + 1) ≠ []) : (s.clients i).fd ∈ s.reported := by
  have hlt : i + 1 < s.nclients := by
    by_contra hge
    exact hmore (drop_entries_eq_nil.mpr (not_lt.mp hge))
  exact (h i (le_refl i) hi).2 hlt hready

theorem Reported.countP_le (h : Reported s nready) :
    (((s.fds.drop 1).countP fun fd => fd ∈ s.reported : Nat) : Int) + accepts s ≤ nready := by
  have hrange : List.range s.nclients = 0 :: (List.range (s.nclients - 1)).map Nat.succ := by
    rw [← List.range_succ_eq_map, Nat.sub_add_cancel h.slot]
  have hready : ∀ j < s.nclients, s.fdCells j ∈ s.reported → (s.clients j).revents ≠ 0 := by
    intro j hj hin hzero
    have hlooks := (h.ready j hj).mp hin
    unfold Pollfd.Ready at hlooks
    rw [hzero, UInt16.zero_and] at hlooks
    exact hlooks rfl
  have hlater : (s.fds.drop 1).countP (fun fd => fd ∈ s.reported) ≤
      ((List.range (s.nclients - 1)).map Nat.succ).countP fun j => (s.clients j).revents ≠ 0 := by
    unfold State.fds entries
    rw [hrange, List.map_cons, List.drop_one, List.tail_cons, List.countP_map]
    apply List.countP_mono_left
    intro j hj hin
    obtain ⟨k, hk, rfl⟩ := List.mem_map.mp hj
    rw [List.mem_range] at hk
    exact decide_eq_true (hready _ (by omega) (of_decide_eq_true hin))
  have hfirst : accepts s ≤ if (s.clients 0).revents ≠ 0 then 1 else 0 := by
    unfold accepts
    split
    · rename_i hconnects
      have hsome : (s.clients 0).revents ≠ 0 := by
        intro hzero
        unfold State.Connects at hconnects
        rw [hzero, UInt16.zero_and] at hconnects
        exact hconnects rfl
      rw [if_pos hsome]
    · exact Nat.zero_le _
  have hcount := h.count
  unfold State.readySlots at hcount
  rw [hrange, List.countP_cons] at hcount
  simp only [decide_eq_true_eq] at hcount
  omega

end Reported

section Passing

/-- What a pass keeps, while `reported` are the descriptors that `poll` reported. -/
structure Passing (reported : List Nat) (a : State × List Nat) : Prop where
  nodup : a.1.fds.Nodup
  running : a.1.pc ≠ .main ∧ a.1.pc ≠ .exited
  same : a.1.reported = reported
  told : ∀ nready, a.1.pc = .process nready →
    Reported a.1 nready ∧ (a.1.Connects → a.1.nclients ≠ fopenMax)
  shown : ∀ i nready, a.1.pc = .scan i nready → Shown a.1 i

theorem Step.running (h : Step s l s') (hpass : l.Passes) :
    s'.pc ≠ .main ∧ s'.pc ≠ .exited := by
  cases h with
  | socket | fails | poll | acceptFails => cases hpass
  | accept =>
    dsimp only [afterAccept]
    split <;> exact ⟨nofun, nofun⟩
  | _ => exact ⟨nofun, nofun⟩

theorem Step.shown {reported rs : List Nat} (hstep : Step s l s') (hpass : l.Passes)
    (h : Passing reported (s, rs)) : ∀ i nready, s'.pc = .scan i nready → Shown s' i := by
  intro k m hk
  cases hstep with
  | socket | fails | poll | acceptFails => cases hpass
  | noAccept hpc =>
    cases hk
    have hshown := (h.told _ hpc).1.shown
    exact hshown
  | @accept t nready cfd hpc _ hfresh hadd =>
    have hshown := (h.told _ hpc).1.shown_add hfresh hadd
    dsimp only [afterAccept] at hk
    split at hk
    · cases hk
    · cases hk
      exact hshown
  | refuse | done => cases hk
  | skip hpc | echo hpc =>
    cases hk
    have hshown := (h.shown _ _ hpc).next
    exact hshown
  | close hpc =>
    cases hk
    have hshown := (h.shown _ _ hpc).remove
    exact hshown

theorem Step.passing {reported rs rs' : List Nat} (hstep : Step s l s') (hpass : l.Passes)
    (h : Passing reported (s, rs)) : Passing reported (s', rs') := by
  have hdistinct := hstep.distinct ⟨h.nodup, fun hmain => absurd hmain h.running.1⟩
  have hsame : s'.reported = s.reported := by
    cases hstep with
    | socket | fails | poll | acceptFails => cases hpass
    | accept _ _ _ hadd =>
      obtain ⟨_, rfl⟩ := addClient_some hadd
      rfl
    | _ => rfl
  exact ⟨hdistinct.nodup, hstep.running hpass, hsame.trans h.same,
    fun nready hpc => absurd hpc (hstep.not_process hpass nready), hstep.shown hpass h⟩

section View
variable {rs : List Nat}

theorem view_process (nready : Int) (hpc : s.pc = .process nready) :
    view (s, rs) = ⟨s.fds.drop 1, nready - accepts s, rs⟩ := by
  unfold view
  dsimp only
  rw [hpc]

theorem view_scan (i : Nat) (nready : Int) (hpc : s.pc = .scan i nready) :
    view (s, rs) = ⟨s.fds.drop i, nready, rs⟩ := by
  unfold view
  dsimp only
  rw [hpc]

theorem view_poll (hpc : s.pc = .poll) : view (s, rs) = ⟨[], 0, rs⟩ := by
  unfold view
  dsimp only
  rw [hpc]

theorem view_scan_cons (i : Nat) (nready : Int) (hpc : s.pc = .scan i nready)
    (hi : i < s.nclients) :
    view (s, rs) = ⟨(s.clients i).fd :: s.fds.drop (i + 1), nready, rs⟩ := by
  rw [view_scan i nready hpc]
  unfold State.fds
  rw [drop_entries hi]
  rfl

end View

theorem kept_close {request : EchoMsg} (hpc : s.pc = .scan i nready) :
    Kept s (.read request .done) ↔
      ∀ fd ∈ (s.fds.drop (i + 1)).getLast?, fd ∉ s.reported := by
  unfold State.fds
  rw [forall_getLast_drop_entries]
  constructor
  · intro h
    exact h i nready hpc
  · intro h k m hk
    cases hpc.symm.trans hk
    exact h

theorem Step.move {rs rs' : List Nat} (hstep : Step s l s') (hpass : l.Passes)
    (h : Passing s.reported (s, rs)) (hreads : rs' = rs ++ (readFd s l).toList) :
    Move (· ∈ s.reported) (view (s, rs)) (Kept s l) (view (s', rs')) := by
  cases hstep with
  | socket | fails | poll | acceptFails => cases hpass
  | @noAccept nready hpc hnone =>
    have hrs : rs' = rs := by simpa [readFd] using hreads
    have hzero : accepts s = 0 := if_neg fun hconnects => hconnects hnone
    rw [hrs, view_process nready hpc, hzero, Nat.cast_zero, Int.sub_zero]
    exact Move.stay _
  | refuse hpc hconnects _ hnone =>
    exact absurd (addClient_none hnone) ((h.told _ hpc).2 hconnects)
  | @accept t nready cfd hpc hconnects hfresh hadd =>
    have hrs : rs' = rs := by simpa [readFd] using hreads
    have hone : accepts s = 1 := if_pos hconnects
    have hreported := (h.told nready hpc).1
    have hfds := drop_fds_add hreported.slot hadd
    rw [hrs, view_process nready hpc, hone, Nat.cast_one]
    by_cases hlast : nready - 1 = 0
    · rw [view_poll (by simp [afterAccept, hlast])]
      exact Move.finish (Or.inr (le_of_eq hlast))
    · have hview : view ({ t with net := s.net.restart cfd, pc := afterAccept nready }, rs) =
          ⟨s.fds.drop 1 ++ [cfd], nready - 1, rs⟩ := by
        rw [← hfds]
        exact view_scan 1 (nready - 1) (by simp [afterAccept, hlast])
      rw [hview]
      exact Move.extend (hreported.not_mem hfresh)
  | @skip i nready hpc _ hi hnot =>
    have hrs : rs' = rs := by simpa [readFd] using hreads
    have hunwanted : (s.clients i).fd ∉ s.reported := fun hin =>
      hnot ((h.shown i nready hpc i (le_refl i) hi).1 hin)
    rw [hrs, view_scan_cons i nready hpc hi]
    exact Move.skip hunwanted
  | @echo i nready request c hpc _ hi =>
    have hrs : rs' = rs ++ [(s.clients i).fd] := by simpa [readFd, hpc] using hreads
    rw [hrs, view_scan_cons i nready hpc hi]
    exact Move.keep
  | @close i nready request hpc hpos hi hready =>
    have hrs : rs' = rs ++ [(s.clients i).fd] := by simpa [readFd, hpc] using hreads
    have hwanted := (h.shown i nready hpc).mem_reported hi hready
    have hview : view (remClient { s with pc := .scan (i + 1) (nready - 1) } i,
        rs ++ [(s.clients i).fd]) =
          ⟨(s.fds.drop (i + 1)).dropLast, nready - 1, rs ++ [(s.clients i).fd]⟩ := by
      rw [← drop_fds_remove]
      exact view_scan (i + 1) (nready - 1) rfl
    rw [hrs, view_scan_cons i nready hpc hi, hview]
    exact (Move.drop hpos hwanted).congr (kept_close hpc)
  | @done i nready hpc hend =>
    have hrs : rs' = rs := by simpa [readFd] using hreads
    rw [hrs, view_scan i nready hpc, view_poll rfl]
    apply Move.finish
    by_cases hi : i < s.nclients
    · exact Or.inr (not_lt.mp fun hpos => hend ⟨hpos, hi⟩)
    · exact Or.inl (drop_entries_eq_nil.mpr (not_lt.mp hi))

end Passing

section Ends

theorem Passing.turn {reported : List Nat} {a b : State × List Nat} (h : Passing reported a)
    (hturn : scanner.Turn a l b) :
    Passing reported b ∧ Move (· ∈ reported) (view a) (Kept a.1 l) (view b) := by
  obtain ⟨s, rs⟩ := a
  obtain ⟨s', rs'⟩ := b
  obtain ⟨hstep, hpass, hreads⟩ := hturn
  have hsame := h.same
  dsimp only at hsame
  rw [← hsame] at h ⊢
  exact ⟨Step.passing hstep hpass h, Step.move hstep hpass h hreads⟩

def turnsLeft (s : State) : Nat :=
  match s.pc with
  | .process _ => s.nclients + 2
  | .scan i _ => s.nclients - i + 1
  | .main | .poll | .exited => 0

theorem Step.turnsLeft (h : Step s l s') (hpass : l.Passes) :
    turnsLeft s' + 1 ≤ turnsLeft s := by
  unfold Poll.turnsLeft
  cases h with
  | socket | fails | poll | acceptFails => cases hpass
  | noAccept hpc | refuse hpc =>
    rw [hpc]
    dsimp only
    omega
  | @accept t nready cfd hpc _ _ hadd =>
    obtain ⟨_, rfl⟩ := addClient_some hadd
    rw [hpc]
    dsimp only [afterAccept]
    by_cases hlast : nready - 1 = 0
    · rw [if_pos hlast]
      dsimp only
      omega
    · rw [if_neg hlast]
      dsimp only
      omega
  | skip hpc _ hi | echo hpc _ hi =>
    rw [hpc]
    dsimp only
    omega
  | close hpc _ hi =>
    rw [hpc]
    dsimp only [remClient]
    omega
  | done hpc =>
    rw [hpc]
    dsimp only
    omega

theorem exists_fresh (s : State) : ∃ cfd, s.Fresh cfd := by
  obtain ⟨cfd, hfree⟩ := Infinite.exists_notMem_finset s.fds.toFinset
  refine ⟨cfd, ?_⟩
  intro j hj heq
  apply hfree
  rw [List.mem_toFinset]
  exact mem_entries.mpr ⟨j, hj, heq⟩

theorem Passing.goesOn {reported rs : List Nat} (h : Passing reported (s, rs))
    (hpc : s.pc ≠ .poll) : ∃ l b, scanner.Turn (s, rs) l b := by
  have hgoes : ∃ l s', Step s l s' ∧ l.Passes := by
    cases hat : s.pc with
    | main => exact absurd hat h.running.1
    | exited => exact absurd hat h.running.2
    | poll => exact absurd hat hpc
    | process nready =>
      by_cases hconnects : s.Connects
      · obtain ⟨cfd, hfresh⟩ := exists_fresh s
        have hadd : addClient s cfd = some _ := if_neg ((h.told nready hat).2 hconnects)
        exact ⟨_, _, Step.accept hat hconnects hfresh hadd, trivial⟩
      · exact ⟨_, _, Step.noAccept hat (not_not.mp hconnects), trivial⟩
    | scan i nready =>
      by_cases hmore : nready > 0 ∧ i < s.nclients
      · by_cases hready : (s.clients i).Ready
        · exact ⟨.read EchoMsg.zeros .done, _, Step.close hat hmore.1 hmore.2 hready, trivial⟩
        · exact ⟨_, _, Step.skip hat hmore.1 hmore.2 hready, trivial⟩
      · exact ⟨_, _, Step.done hat hmore, trivial⟩
  obtain ⟨l, s', hstep, hpass⟩ := hgoes
  exact ⟨l, (s', _), hstep, hpass, rfl⟩

theorem called_passing {ls : List Label} (hrun : Runs Step init ls s) (hcall : scanner.Called s) :
    Passing s.reported (s, []) := by
  obtain ⟨⟨nready, hpc⟩, hroom⟩ := hcall
  have hdistinct : Distinct init := ⟨List.nodup_nil, fun _ => rfl⟩
  have hboth := hrun.invariant (P := fun a => Distinct a ∧
      ∀ nready, a.pc = .process nready → Reported a nready) ⟨hdistinct, nofun⟩
    fun _ _ _ h hstep => ⟨hstep.distinct h.1, hstep.reported h.1⟩
  refine ⟨hboth.1.nodup, ?_, rfl, fun k hk => ⟨hboth.2 k hk, hroom⟩, ?_⟩
  · rw [hpc]
    exact ⟨nofun, nofun⟩
  · intro i k hk
    cases hpc.symm.trans hk

end Ends

end Poll

end OsCourse.Servers
