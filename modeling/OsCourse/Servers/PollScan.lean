import OsCourse.Servers.Poll

/-! The reads of the poll server. `add_client` takes the slot that `rem_client` moved down
without clearing its `revents`, and the scan that follows goes up to that slot. -/
namespace OsCourse.Servers.Poll
open OsCourse.Compact Function Transition
variable {s s' t : State} {l : Label} {cfd i n : Nat} {nready : Int}

/-- A read of the scan is on a descriptor that the last call of `poll` reported. -/
def ReadsReported (s : State) : Label → Prop
  | .read _ _ => ∀ i nready, s.pc = .scan i nready → (s.clients i).fd ∈ s.reported
  | .socket _ | .fails | .poll _ | .noAccept | .acceptFails | .accept _ | .skip | .done => True

def Label.Scans : Label → Prop
  | .skip | .read _ _ => True
  | .socket _ | .fails | .poll _ | .noAccept | .acceptFails | .accept _ | .done => False

/-- However the scan under way goes on, it reads reported descriptors only. -/
def Safe (s : State) : Prop :=
  ∀ ms t, (∀ m ∈ ms, m.Scans) → Runs Step s ms t → ∀ l u, Step t l u → ReadsReported t l

/-- A client is accepted into a slot without old input or errors, unless it is the only event
or there is no slot for it. -/
def Orderly (s : State) : Label → Prop
  | .accept _ => s.pc = .process 1 ∨ s.nclients = fopenMax ∨ ¬(s.clients s.nclients).Ready
  | .socket _ | .fails | .poll _ | .noAccept | .acceptFails | .skip | .read _ _ | .done => True

section Covered

/-- The slots from `i` on that look ready were reported. -/
def CoveredFrom (s : State) (i : Nat) : Prop :=
  ∀ j, i ≤ j → j < s.nclients → (s.clients j).Ready → (s.clients j).fd ∈ s.reported

/-- The slots that are still to be scanned and look ready were reported. -/
def Covered (s : State) : Prop :=
  match s.pc with
  | .process _ => CoveredFrom s 0
  | .scan i _ => CoveredFrom s i
  | .main | .poll | .exited => True

theorem mem_readyFds {clients : Nat → Pollfd} {j : Nat} (hj : j < n) (hr : (clients j).Ready) :
    (clients j).fd ∈ readyFds clients n := by
  apply List.mem_map_of_mem
  rw [List.mem_filter, decide_eq_true_eq]
  exact ⟨mem_entries.mpr ⟨j, hj, rfl⟩, hr⟩

theorem of_mem_readyFds {clients : Nat → Pollfd} {fd : Nat} (h : fd ∈ readyFds clients n) :
    ∃ j < n, (clients j).fd = fd := by
  obtain ⟨slot, hslot, rfl⟩ := List.mem_map.mp h
  obtain ⟨j, hj, rfl⟩ := mem_entries.mp (List.mem_of_mem_filter hslot)
  exact ⟨j, hj, rfl⟩

theorem addClient_some (h : addClient s cfd = some t) : s.nclients ≠ fopenMax ∧
    t = { s with
      clients := update s.clients s.nclients
        { s.clients s.nclients with fd := cfd, events := pollin ||| pollerr }
      nclients := s.nclients + 1 } := by
  unfold addClient at h
  split at h
  · cases h
  · rename_i hn
    exact ⟨hn, (Option.some_inj.mp h).symm⟩

theorem addClient_none (h : addClient s cfd = none) : s.nclients = fopenMax := by
  unfold addClient at h
  split at h
  · assumption
  · cases h

theorem afterAccept_one : afterAccept 1 = .poll := rfl

theorem afterAccept_more (h : nready ≠ 1) : afterAccept nready = .scan 1 (nready - 1) := by
  unfold afterAccept
  rw [if_neg (by omega)]

theorem CoveredFrom.mono {k : Nat} (h : CoveredFrom s i) (hik : i ≤ k) : CoveredFrom s k :=
  fun j hj => h j (hik.trans hj)

theorem CoveredFrom.add (h : CoveredFrom s 0) (hstale : ¬(s.clients s.nclients).Ready)
    (hadd : addClient s cfd = some t) : CoveredFrom t 1 := by
  obtain ⟨_, rfl⟩ := addClient_some hadd
  intro j _ hj hr
  dsimp only at hj hr ⊢
  by_cases he : j = s.nclients
  · rw [he, update_self] at hr
    exact absurd hr hstale
  · rw [update_of_ne he] at hr ⊢
    exact h j (Nat.zero_le j) (by omega) hr

theorem CoveredFrom.remove (h : CoveredFrom s i) (pc : Pc) :
    CoveredFrom (remClient { s with pc := pc } i) (i + 1) := by
  intro j hij hj hr
  dsimp only [remClient] at hj hr ⊢
  rw [remove_of_ne (by omega)] at hr ⊢
  exact h j (by omega) (by omega) hr

theorem Covered.scan (h : Covered s) (hpc : s.pc = .scan i nready) : CoveredFrom s i := by
  unfold Covered at h
  rwa [hpc] at h

theorem Covered.process (h : Covered s) (hpc : s.pc = .process nready) : CoveredFrom s 0 := by
  unfold Covered at h
  rwa [hpc] at h

theorem Step.covered (h : Step s l s') (ho : Orderly s l) (hc : Covered s) : Covered s' := by
  cases h with
  | socket | fails | acceptFails | refuse | done => trivial
  | poll => exact fun j _ hj hr => mem_readyFds hj hr
  | noAccept hpc => exact (hc.process hpc).mono (Nat.zero_le 1)
  | @accept t nready cfd hpc _ _ hadd =>
    unfold Covered
    by_cases hlast : nready = 1
    · rw [hlast, afterAccept_one]
      trivial
    · rw [afterAccept_more hlast]
      have hstale : ¬(s.clients s.nclients).Ready := by
        obtain hone | hfull | hstale := ho
        · rw [hpc] at hone
          cases hone
          exact absurd rfl hlast
        · exact absurd hfull (addClient_some hadd).1
        · exact hstale
      have hnew : CoveredFrom t 1 := (hc.process hpc).add hstale hadd
      exact hnew
  | skip hpc | echo hpc => exact (hc.scan hpc).mono (Nat.le_succ _)
  | close hpc => exact (hc.scan hpc).remove _

theorem Covered.reads (h : Covered s) (hstep : Step s l t) : ReadsReported s l := by
  cases hstep with
  | socket | fails | poll | noAccept | acceptFails | refuse | accept | skip | done => trivial
  | echo hpc _ hi hr | close hpc _ hi hr =>
    intro k m hk
    cases hpc.symm.trans hk
    exact h.scan hpc _ (le_refl _) hi hr

theorem orderly_of_scans (h : l.Scans) : Orderly s l := by
  cases l with
  | skip | read => trivial
  | socket | fails | poll | noAccept | acceptFails | accept | done => cases h

theorem Covered.safe (h : Covered s) : Safe s := by
  intro ms t hms hrun l u hstep
  have ht : Covered t := hrun.invariant_of hms h fun _ _ _ hscan hc hab =>
    hab.covered (orderly_of_scans hscan) hc
  exact ht.reads hstep

end Covered

section Stale

/-- Up to the accept: what was reported is in the table, and the count counts the slot of the
listening socket. -/
def Told (s : State) : Prop :=
  match s.pc with
  | .poll => 1 ≤ s.nclients
  | .process nready => 1 ≤ s.nclients ∧
    (∀ fd ∈ s.reported, ∃ j < s.nclients, (s.clients j).fd = fd) ∧
    ((s.clients 0).revents &&& pollin ≠ 0 → 1 ≤ nready)
  | .scan i _ => 1 ≤ i ∧ 1 ≤ s.nclients
  | .main | .exited => True

theorem Told.process (h : Told s) (hpc : s.pc = .process nready) : 1 ≤ s.nclients ∧
    (∀ fd ∈ s.reported, ∃ j < s.nclients, (s.clients j).fd = fd) ∧
    ((s.clients 0).revents &&& pollin ≠ 0 → 1 ≤ nready) := by
  unfold Told at h
  rwa [hpc] at h

theorem Told.scan (h : Told s) (hpc : s.pc = .scan i nready) : 1 ≤ i ∧ 1 ≤ s.nclients := by
  unfold Told at h
  rwa [hpc] at h

theorem one_le_readyCount {revents : Nat → UInt16} (hn : 1 ≤ s.nclients)
    (h : revents 0 &&& pollin ≠ 0) : 1 ≤ readyCount s revents := by
  apply List.countP_pos_iff.mpr
  refine ⟨0, List.mem_range.mpr hn, ?_⟩
  rw [decide_eq_true_eq]
  intro hzero
  rw [hzero, UInt16.zero_and] at h
  exact h rfl

theorem Step.told (h : Step s l s') (ht : Told s) : Told s' := by
  cases h with
  | socket _ hadd =>
    obtain ⟨_, rfl⟩ := addClient_some hadd
    exact Nat.le_add_left 1 s.nclients
  | fails => trivial
  | @poll revents hpc hn =>
    refine ⟨hn, fun fd hfd => of_mem_readyFds hfd, ?_⟩
    intro hlisten
    have hzero : (Poll.poll s revents 0).revents = revents 0 := by
      unfold Poll.poll
      rw [if_pos hn]
    dsimp only at hlisten
    rw [hzero] at hlisten
    exact Int.toNat_le.mp (one_le_readyCount hn hlisten)
  | noAccept hpc => exact ⟨le_refl 1, (ht.process hpc).1⟩
  | acceptFails hpc | refuse hpc => exact (ht.process hpc).1
  | @accept t nready cfd hpc _ _ hadd =>
    obtain ⟨_, rfl⟩ := addClient_some hadd
    unfold Told
    by_cases hlast : nready = 1
    · rw [hlast, afterAccept_one]
      exact Nat.le_add_left 1 s.nclients
    · rw [afterAccept_more hlast]
      exact ⟨le_refl 1, Nat.le_add_left 1 s.nclients⟩
  | skip hpc | echo hpc =>
    obtain ⟨hi, hn⟩ := ht.scan hpc
    exact ⟨by omega, hn⟩
  | close hpc _ hlt =>
    obtain ⟨hi, hn⟩ := ht.scan hpc
    dsimp only [remClient, Told]
    exact ⟨by omega, by omega⟩
  | done hpc => exact (ht.scan hpc).2

theorem scan_reaches (hpc : s.pc = .scan i nready) (hmore : nready > 0) (hin : i ≤ n)
    (hn : n < s.nclients) : ∃ ms t, (∀ m ∈ ms, Label.Scans m) ∧ Runs Step s ms t ∧
      t.pc = .scan n nready ∧ t.clients = s.clients ∧ t.nclients = s.nclients ∧
      t.reported = s.reported := by
  induction n, hin using Nat.le_induction with
  | base => exact ⟨[], s, nofun, Runs.nil s, hpc, rfl, rfl, rfl⟩
  | succ n _ ih =>
    obtain ⟨ms, t, hms, hrun, htpc, hclients, hcount, hreported⟩ := ih (by omega)
    have hscans : ∀ l : Label, l.Scans → ∀ m ∈ ms ++ [l], m.Scans := by
      intro l hl
      exact List.forall_mem_append.mpr ⟨hms, List.forall_mem_singleton.mpr hl⟩
    by_cases hr : (t.clients n).Ready
    · have hread := hrun.snoc
        (l := .read EchoMsg.zeros (.data (Chunk.zeros 1 (by decide) (by decide))))
        (Step.echo htpc hmore (by omega) hr)
      refine ⟨_, _, hscans _ ?_, hread, ?_⟩
      · trivial
      · exact ⟨rfl, hclients, hcount, hreported⟩
    · have hskip := hrun.snoc (l := .skip) (Step.skip htpc hmore (by omega) hr)
      refine ⟨_, _, hscans _ ?_, hskip, ?_⟩
      · trivial
      · exact ⟨rfl, hclients, hcount, hreported⟩

/-- After a disorderly accept, the scan can get to the new client and read from it. -/
theorem orderly_of_safe (h : Step s l s') (ht : Told s) (hsafe : Safe s') : Orderly s l := by
  cases h with
  | socket | fails | poll | noAccept | acceptFails | skip | echo | close | done => trivial
  | refuse _ _ _ hadd => exact Or.inr (Or.inl (addClient_none hadd))
  | @accept t nready cfd hpc hlisten hfresh hadd =>
    obtain ⟨hn, hreported, hcount⟩ := ht.process hpc
    have hone := hcount hlisten
    by_cases hlast : nready = 1
    · rw [hlast] at hpc
      exact Or.inl hpc
    · refine Or.inr (Or.inr ?_)
      intro hstale
      obtain ⟨_, rfl⟩ := addClient_some hadd
      rw [afterAccept_more hlast] at hsafe
      obtain ⟨ms, u, hms, hrun, hupc, hclients, hnclients, hsame⟩ := scan_reaches
        (s := { s with
          clients := update s.clients s.nclients
            { s.clients s.nclients with fd := cfd, events := pollin ||| pollerr }
          nclients := s.nclients + 1
          net := s.net.restart cfd
          pc := .scan 1 (nready - 1) })
        (n := s.nclients) rfl (by omega) hn (Nat.lt_succ_self s.nclients)
      have hslot : u.clients s.nclients =
          { s.clients s.nclients with fd := cfd, events := pollin ||| pollerr } := by
        rw [hclients]
        exact update_self _ _ _
      have hread : Step u (.read EchoMsg.zeros .done) _ :=
        Step.close hupc (by omega) (by rw [hnclients]; exact Nat.lt_succ_self s.nclients)
          (by rw [hslot]; exact hstale)
      have hfd := hsafe ms u hms hrun _ _ hread s.nclients _ hupc
      rw [hslot, hsame] at hfd
      obtain ⟨j, hj, heq⟩ := hreported cfd hfd
      exact hfresh j hj heq

end Stale

section Runs

/-- The runs in which every client is accepted into a slot without old input or errors, or as
the only event, are those in which `process` reads only from connections that `poll` reported
in the same iteration, and which reach no state from which the scan could do otherwise. -/
theorem reads_reported_iff (ls : List Label) (s : State) :
    Runs (fun a l b => Step a l b ∧ Orderly a l) init ls s ↔
      Runs (fun a l b => (Step a l b ∧ ReadsReported a l) ∧ Safe b) init ls s := by
  apply Runs.iff_of (P := Covered) (Q := Told)
  · trivial
  · trivial
  · rintro a l b hc ⟨hstep, ho⟩
    have hc' := hstep.covered ho hc
    exact ⟨⟨⟨hstep, hc.reads hstep⟩, hc'.safe⟩, hc'⟩
  · rintro a l b ht ⟨⟨hstep, _⟩, hsafe⟩
    exact ⟨⟨hstep, orderly_of_safe hstep ht hsafe⟩, hstep.told ht⟩

/-- Two clients have input, the first leaves, and the slot of the second, which moves down,
keeps its `POLLIN`. The third client takes that slot while the second has input again, and is
read although it was not passed to `poll`. -/
theorem reads_idle_client : ¬∀ (ls : List Label) (s : State), Runs Step init ls s →
    ∀ l t, Step s l t → ReadsReported s l := by
  intro hall
  have hsocket := Runs.single (s := init) (l := Label.socket 3) (Step.socket rfl rfl)
  have hpoll1 := hsocket.snoc (l := Label.poll fun j => if j = 0 then 1 else 0)
    (Step.poll rfl (by decide))
  have haccept1 := hpoll1.snoc (l := Label.accept 4) (Step.accept rfl (by decide) (by decide) rfl)
  have hpoll2 := haccept1.snoc (l := Label.poll fun j => if j = 0 then 1 else 0)
    (Step.poll rfl (by decide))
  have haccept2 := hpoll2.snoc (l := Label.accept 5) (Step.accept rfl (by decide) (by decide) rfl)
  have hpoll3 := haccept2.snoc (l := Label.poll fun j => if j = 0 then 0 else 1)
    (Step.poll rfl (by decide))
  have hnone := hpoll3.snoc (l := Label.noAccept) (Step.noAccept rfl (by decide))
  have hleaves := hnone.snoc (l := Label.read EchoMsg.zeros .done)
    (Step.close rfl (by decide) (by decide) (by decide))
  have hback := hleaves.snoc (l := Label.done) (Step.done rfl (by decide))
  have hpoll4 := hback.snoc (l := Label.poll fun _ => 1) (Step.poll rfl (by decide))
  have haccept3 := hpoll4.snoc (l := Label.accept 6) (Step.accept rfl (by decide) (by decide) rfl)
  have hdata := haccept3.snoc
    (l := Label.read EchoMsg.zeros (.data (Chunk.zeros 1 (by decide) (by decide))))
    (Step.echo rfl (by decide) (by decide) (by decide))
  have hread := hall _ _ hdata (.read EchoMsg.zeros .done) _
    (Step.close rfl (by decide) (by decide) (by decide)) 2 1 rfl
  revert hread
  decide

end Runs

end OsCourse.Servers.Poll
