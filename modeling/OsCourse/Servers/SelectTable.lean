import Mathlib.Data.Finset.Card
import OsCourse.Servers.Select

/-! The table, the bitmap, the maximum and the count of the select server, over whole runs. -/
namespace OsCourse.Servers.Select
open OsCourse.Compact Function Relay Transition
variable {s s' t : State} {l : Label} {cfd i : Nat}

section Descriptors
variable {opened : Finset Nat} {fd : Nat}

/-- The lowest free descriptor is at most the number of those that are open. -/
theorem LowestFree.le_card (h : LowestFree opened fd) : fd ≤ opened.card := by
  have hsub : Finset.range fd ⊆ opened := fun n hn => h.2 n (Finset.mem_range.mp hn)
  have hcard := Finset.card_le_card hsub
  rwa [Finset.card_range] at hcard

theorem card_stdFds : stdFds.card = 3 := by decide

theorem card_opened_le (s : State) : s.opened.card ≤ s.conns.card + 4 := by
  have hinsert := Finset.card_insert_le s.listenfd (stdFds ∪ s.conns)
  have hunion := Finset.card_union_le stdFds s.conns
  have hstd := card_stdFds
  unfold State.opened
  omega

theorem not_mem_conns (h : LowestFree s.opened cfd) : cfd ∉ s.conns := by
  intro hc
  exact h.1 (Finset.mem_insert_of_mem (Finset.mem_union_right _ hc))

theorem ne_listenfd (h : LowestFree s.opened cfd) : cfd ≠ s.listenfd := by
  rintro rfl
  exact h.1 (Finset.mem_insert_self _ _)

end Descriptors

section Table

structure Table (clients : Nat → Nat) (nclients : Nat) (conns : Finset Nat) : Prop where
  nodup : (entries clients nclients).Nodup
  mem : ∀ fd, fd ∈ entries clients nclients ↔ fd ∈ conns

theorem Table.card (h : Table s.clients s.nclients s.conns) : s.conns.card = s.nclients := by
  have hset : s.conns = (entries s.clients s.nclients).toFinset := by
    ext fd
    rw [List.mem_toFinset, h.mem]
  rw [hset, List.toFinset_card_of_nodup h.nodup]
  unfold entries
  rw [List.length_map, List.length_range]

theorem Table.add {clients : Nat → Nat} {nclients : Nat} {conns : Finset Nat}
    (h : Table clients nclients conns) (hnew : cfd ∉ conns) :
    Table (update clients nclients cfd) (nclients + 1) (insert cfd conns) where
  nodup := by
    rw [entries_add, List.nodup_append]
    refine ⟨h.nodup, List.nodup_singleton cfd, ?_⟩
    intro fd hfd fd' hfd' heq
    rw [List.mem_singleton] at hfd'
    rw [heq, hfd', h.mem] at hfd
    exact hnew hfd
  mem := by
    intro fd
    rw [entries_add, List.mem_append, List.mem_singleton, h.mem, Finset.mem_insert, or_comm]

theorem Table.remove {clients : Nat → Nat} {nclients : Nat} {conns : Finset Nat}
    (h : Table clients nclients conns) (hi : i < nclients) :
    Table (Compact.remove clients nclients i) (nclients - 1) (conns.erase (clients i)) := by
  have hperm : (clients i :: entries _ (nclients - 1)).Perm _ := entries_remove hi
  have hnodup := hperm.nodup_iff.mpr h.nodup
  rw [List.nodup_cons] at hnodup
  refine ⟨hnodup.2, ?_⟩
  intro fd
  rw [Finset.mem_erase, ← h.mem, ← hperm.mem_iff, List.mem_cons]
  constructor
  · intro hfd
    refine ⟨?_, Or.inr hfd⟩
    rintro rfl
    exact hnodup.1 hfd
  · rintro ⟨hne, hfd⟩
    exact hfd.resolve_left hne

/-- What the functions of the server keep, wherever they are after `main`. -/
structure Inv (s : State) : Prop where
  table : Table s.clients s.nclients s.conns
  allset : s.allset = insert s.listenfd s.conns
  listenfd : s.listenfd ∉ s.conns
  maxfd : ∀ fd ∈ s.allset, fd ≤ s.maxclientFd
  count : s.nclients ≤ maxclients
  bound : ∀ fd ∈ s.allset, fd < fdSetsize
  passed : ∀ fd ∈ s.passed, fd < fdSetsize

theorem Inv.client (h : Inv s) (hi : i < s.nclients) : s.clients i ∈ s.conns :=
  (h.table.mem _).mp (mem_entries.mpr ⟨i, hi, rfl⟩)

theorem Inv.client_bound (h : Inv s) (hi : i < s.nclients) : s.clients i < fdSetsize := by
  apply h.bound
  rw [h.allset]
  exact Finset.mem_insert_of_mem (h.client hi)

theorem Inv.listenfd_bound (h : Inv s) : s.listenfd < fdSetsize := by
  apply h.bound
  rw [h.allset]
  exact Finset.mem_insert_self _ _

theorem Inv.goto (h : Inv s) (rset : Finset Nat) (pc : Pc) (net : Net) :
    Inv { s with rset := rset, pc := pc, net := net } :=
  ⟨h.table, h.allset, h.listenfd, h.maxfd, h.count, h.bound, h.passed⟩

theorem Inv.fdIsset (h : Inv s) (hfd : cfd < fdSetsize) : Inv (s.fdIsset cfd) where
  table := h.table
  allset := h.allset
  listenfd := h.listenfd
  maxfd := h.maxfd
  count := h.count
  bound := h.bound
  passed := by
    intro fd hp
    cases List.mem_append.mp hp with
    | inl hold => exact h.passed fd hold
    | inr hnew =>
      rw [List.mem_singleton.mp hnew]
      exact hfd

theorem addClient_some (h : addClient s cfd = some t) : s.nclients ≠ maxclients ∧
    t = { s with
      clients := update s.clients s.nclients cfd
      nclients := s.nclients + 1
      maxclientFd := if cfd > s.maxclientFd then cfd else s.maxclientFd } := by
  unfold addClient at h
  split at h
  · cases h
  · rename_i hn
    exact ⟨hn, (Option.some_inj.mp h).symm⟩

theorem Inv.accepted_bound (h : Inv s) (hfree : LowestFree s.opened cfd)
    (hroom : s.nclients ≠ maxclients) : cfd < fdSetsize := by
  have hle := hfree.le_card
  have hopened := card_opened_le s
  have htable := h.table.card
  have hcount := h.count
  unfold maxclients at hcount hroom
  unfold fdSetsize at *
  omega

theorem Inv.accept (h : Inv s) (hfree : LowestFree s.opened cfd) (hadd : addClient s cfd = some t)
    (pc : Pc) (net : Net) :
    Inv ({ t with conns := insert cfd s.conns, net := net, pc := pc }.fdIsset s.listenfd |>.fdSet
      cfd) := by
  obtain ⟨hroom, rfl⟩ := addClient_some hadd
  have hcfd := h.accepted_bound hfree hroom
  have hcount := h.count
  have hissued := (h.fdIsset h.listenfd_bound).fdIsset hcfd
  refine ⟨h.table.add (not_mem_conns hfree), ?_, ?_, ?_, ?_, ?_, hissued.passed⟩
  · dsimp only [State.fdSet, State.fdIsset]
    rw [h.allset, Finset.insert_comm]
  · dsimp only [State.fdSet, State.fdIsset]
    rw [Finset.mem_insert, not_or]
    exact ⟨(ne_listenfd hfree).symm, h.listenfd⟩
  · intro fd hfd
    dsimp only [State.fdSet, State.fdIsset] at hfd ⊢
    cases Finset.mem_insert.mp hfd with
    | inl hnew =>
      split <;> omega
    | inr hold =>
      have hmax := h.maxfd fd hold
      split <;> omega
  · dsimp only [State.fdSet, State.fdIsset]
    omega
  · intro fd hfd
    cases Finset.mem_insert.mp hfd with
    | inl hnew =>
      rw [hnew]
      exact hcfd
    | inr hold => exact h.bound fd hold

theorem Inv.close (h : Inv s) (hi : i < s.nclients) : Inv (remClient s (s.clients i) i) := by
  have hne : s.listenfd ≠ s.clients i := by
    intro he
    apply h.listenfd
    rw [he]
    exact h.client hi
  have hcount := h.count
  refine ⟨h.table.remove hi, ?_, ?_, ?_, ?_, ?_, (h.fdIsset (h.client_bound hi)).passed⟩
  · dsimp only [remClient, State.fdClr]
    rw [h.allset, Finset.erase_insert_of_ne hne]
  · intro hmem
    exact h.listenfd (Finset.mem_of_mem_erase hmem)
  · intro fd hfd
    exact h.maxfd fd (Finset.mem_of_mem_erase hfd)
  · dsimp only [remClient, State.fdClr]
    omega
  · intro fd hfd
    exact h.bound fd (Finset.mem_of_mem_erase hfd)

/-- Before the listening socket is there, nothing has been passed to a macro. -/
def Ready (s : State) : Prop :=
  match s.pc with
  | .main | .exited => s.conns = ∅ ∧ s.passed = []
  | .select | .process _ | .scan _ _ => Inv s

theorem Inv.socket (hfree : LowestFree stdFds cfd) (hconns : s.conns = ∅)
    (hpassed : s.passed = []) :
    Inv ({ s with
      listenfd := cfd, maxclientFd := cfd, nclients := 0, allset := ∅, rset := ∅,
      pc := .select }.fdSet cfd) := by
  have hle := hfree.le_card
  rw [card_stdFds] at hle
  have hcfd : cfd < fdSetsize := by
    unfold fdSetsize
    omega
  refine ⟨⟨List.nodup_nil, ?_⟩, ?_, ?_, ?_, Nat.zero_le _, ?_, ?_⟩
  · intro fd
    dsimp only [State.fdSet]
    rw [hconns]
    simp [entries]
  · dsimp only [State.fdSet]
    rw [hconns]
  · dsimp only [State.fdSet]
    rw [hconns]
    exact Finset.notMem_empty cfd
  · intro fd hfd
    cases Finset.mem_insert.mp hfd with
    | inl hself => exact le_of_eq hself
    | inr hnone => cases hnone
  · intro fd hfd
    cases Finset.mem_insert.mp hfd with
    | inl hself =>
      rw [hself]
      exact hcfd
    | inr hnone => cases hnone
  · intro fd hfd
    dsimp only [State.fdSet] at hfd
    rw [hpassed, List.nil_append, List.mem_singleton] at hfd
    rw [hfd]
    exact hcfd

end Table

section Runs

theorem Ready.inv (h : Ready s) (hmain : s.pc ≠ .main) (hexit : s.pc ≠ .exited) : Inv s := by
  unfold Ready at h
  cases hpc : s.pc with
  | main => exact absurd hpc hmain
  | exited => exact absurd hpc hexit
  | select | process | scan =>
    rw [hpc] at h
    exact h

theorem Inv.ready (h : Inv s) (hmain : s.pc ≠ .main) (hexit : s.pc ≠ .exited) : Ready s := by
  unfold Ready
  cases hpc : s.pc with
  | main => exact absurd hpc hmain
  | exited => exact absurd hpc hexit
  | select | process | scan => exact h

theorem Step.ready (h : Step s l s') (hr : Ready s) : Ready s' := by
  cases h with
  | socket hpc hfree =>
    unfold Ready at hr
    rw [hpc] at hr
    exact Inv.socket hfree hr.1 hr.2
  | fails hpc =>
    unfold Ready at hr
    rw [hpc] at hr
    exact hr
  | @select ready nready hpc =>
    have hi := hr.inv (by rw [hpc]; exact nofun) (by rw [hpc]; exact nofun)
    exact hi.goto ready (.process nready) s.net
  | @noAccept nready hpc =>
    have hi := hr.inv (by rw [hpc]; exact nofun) (by rw [hpc]; exact nofun)
    exact (hi.goto s.rset (.scan 0 nready) s.net).fdIsset hi.listenfd_bound
  | acceptFails hpc | refuse hpc =>
    have hi := hr.inv (by rw [hpc]; exact nofun) (by rw [hpc]; exact nofun)
    exact (hi.goto s.rset .select s.net).fdIsset hi.listenfd_bound
  | @accept t nready cfd hpc _ hfree _ hadd =>
    have hi := hr.inv (by rw [hpc]; exact nofun) (by rw [hpc]; exact nofun)
    have hnext := hi.accept hfree hadd (afterAccept nready) (s.net.restart cfd)
    apply hnext.ready
    · dsimp only [State.fdSet, State.fdIsset, afterAccept]
      split <;> exact nofun
    · dsimp only [State.fdSet, State.fdIsset, afterAccept]
      split <;> exact nofun
  | @skip i nready hpc hi _ =>
    have hinv := hr.inv (by rw [hpc]; exact nofun) (by rw [hpc]; exact nofun)
    exact (hinv.goto s.rset (.scan (i + 1) nready) s.net).fdIsset (hinv.client_bound hi)
  | @echo i nready request c hpc hi _ =>
    have hinv := hr.inv (by rw [hpc]; exact nofun) (by rw [hpc]; exact nofun)
    exact (hinv.goto s.rset (.scan (i + 1) nready) _).fdIsset (hinv.client_bound hi)
  | @close i nready request hpc hi _ =>
    have hinv := hr.inv (by rw [hpc]; exact nofun) (by rw [hpc]; exact nofun)
    have hread := (hinv.goto s.rset (.scan (i + 1) (nready - 1)) s.net).fdIsset
      (hinv.client_bound hi)
    exact hread.close hi
  | done hpc =>
    have hi := hr.inv (by rw [hpc]; exact nofun) (by rw [hpc]; exact nofun)
    exact hi.goto s.rset .select s.net

theorem Step.kept_iff {cfd : Nat} (h : Step s (.accept cfd) s') :
    cfd ∈ s'.conns ↔ s.nclients ≠ maxclients := by
  cases h with
  | refuse _ _ hfree hfull =>
    have hmax : s.nclients = maxclients := by
      obtain hmax | hnone := hfull
      · exact hmax
      · unfold addClient at hnone
        split at hnone
        · assumption
        · cases hnone
    constructor
    · intro hin
      exact absurd (Finset.mem_insert_of_mem (Finset.mem_union_right _ hin)) hfree.1
    · intro hne
      exact absurd hmax hne
  | accept _ _ _ hne _ =>
    constructor
    · intro _
      exact hne
    · intro _
      exact Finset.mem_insert_self cfd s.conns

/-- In every run, at every return to `select`: the table holds the connections accepted and
not yet closed, each once, the bitmap has these and the listening descriptor, the maximum is
no less than any of them, and there are at most `FD_SETSIZE - 4` clients. No descriptor of
`FD_SETSIZE` or more is ever passed to `FD_SET`, `FD_ISSET` or `FD_CLR`. A connection is refused
only when there are `FD_SETSIZE - 4` clients. -/
theorem client_table {ls : List Label} (hrun : Runs Step init ls s) :
    (s.pc = .select →
      ((entries s.clients s.nclients).Nodup ∧
        ∀ fd, fd ∈ entries s.clients s.nclients ↔ fd ∈ s.conns) ∧
      s.allset = insert s.listenfd s.conns ∧
      (∀ fd ∈ s.allset, fd ≤ s.maxclientFd) ∧
      s.nclients ≤ fdSetsize - 4) ∧
    (∀ fd ∈ s.passed, fd < fdSetsize) ∧
    ∀ cfd t, Step s (.accept cfd) t → (cfd ∈ t.conns ↔ s.nclients ≠ fdSetsize - 4) := by
  have hready : Ready s := hrun.invariant (P := Ready) ⟨rfl, rfl⟩ fun _ _ _ ha h => h.ready ha
  refine ⟨?_, ?_, fun _ _ hstep => hstep.kept_iff⟩
  · intro hpc
    have hi := hready.inv (by rw [hpc]; exact nofun) (by rw [hpc]; exact nofun)
    exact ⟨⟨hi.table.nodup, hi.table.mem⟩, hi.allset, hi.maxfd, hi.count⟩
  · by_cases hpc : s.pc = .main ∨ s.pc = .exited
    · intro fd hfd
      unfold Ready at hready
      cases hpc with
      | inl hmain =>
        rw [hmain] at hready
        rw [hready.2] at hfd
        cases hfd
      | inr hexit =>
        rw [hexit] at hready
        rw [hready.2] at hfd
        cases hfd
    · rw [not_or] at hpc
      exact (hready.inv hpc.1 hpc.2).passed

/-- Two clients connect, and the first of them leaves. -/
theorem client_table_two : ∃ ls s, Runs Step init ls s ∧ entries s.clients s.nclients = [5] ∧
    s.allset = insert s.listenfd s.conns ∧ ∀ fd ∈ s.passed, fd < fdSetsize := by
  have hsocket := Runs.single (s := init) (l := Label.socket 3)
    (Step.socket rfl (by decide))
  have hready1 := hsocket.snoc (l := Label.select {3} 1) (Step.select rfl (by decide))
  have hfirst := hready1.snoc (l := Label.accept 4)
    (Step.accept rfl (by decide) (by decide) (by decide) rfl)
  have hready2 := hfirst.snoc (l := Label.select {3} 1) (Step.select rfl (by decide))
  have hsecond := hready2.snoc (l := Label.accept 5)
    (Step.accept rfl (by decide) (by decide) (by decide) rfl)
  have hready3 := hsecond.snoc (l := Label.select {4} 1) (Step.select rfl (by decide))
  have hnone := hready3.snoc (l := Label.noAccept) (Step.noAccept rfl (by decide))
  have hleaves := hnone.snoc (l := Label.read EchoMsg.zeros .done)
    (Step.close rfl (by decide) (by decide) (by decide))
  have hback := hleaves.snoc (l := Label.done) (Step.done rfl (by decide))
  have htable := client_table hback
  exact ⟨_, _, hback, rfl, (htable.1 rfl).2.1, htable.2.1⟩

end Runs

end OsCourse.Servers.Select
