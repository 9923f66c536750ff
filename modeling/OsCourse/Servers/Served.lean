import OsCourse.Servers.PollPass

/-! Whom a pass of the select server or of the poll server reads from: every ready client,
once, if and only if no ready client is moved into the place of one that is removed. -/
namespace OsCourse.Servers
open Relay Transition

section Passes

/-- A pass that is called in `s0` reads from each ready client once, if and only if no ready
client takes the place of one that is removed. It has few steps, and is never stuck. -/
structure Scanner.Serves (v : Scanner) (s0 : v.State) : Prop where
  served : ∀ ls s rs, v.Returned s →
    (Runs (fun a l b => v.Turn a l b ∧ v.Kept a.1 l) (s0, []) ls (s, rs) ↔
      Runs v.Turn (s0, []) ls (s, rs) ∧ ∀ fd ∈ v.clients s0, v.Ready s0 fd → rs.count fd = 1)
  returns : ∀ ls s rs, Runs v.Turn (s0, []) ls (s, rs) →
    ls.length ≤ (v.clients s0).length + 3 ∧ (v.Returned s ∨ ∃ l b, v.Turn (s, rs) l b)

theorem Select.serves {ls0 : List Select.Label} {s0 : Select.State}
    (hrun : Runs Select.Step Select.init ls0 s0) (hcall : Select.scanner.Called s0) :
    Select.scanner.Serves s0 where
  served := by
    intro ls s rs hret
    have hpass := Select.called_passing hrun hcall
    apply Sweep.served_iff (I := Select.Passing s0.rset) (fun _ _ _ h hturn => h.turn hturn) hpass
      (Select.view_process _ hcall.1) hpass.inv.table.nodup _ (Select.view_select hret)
    have hle := hpass.inv.countP_le
    dsimp only at hle
    omega
  returns := by
    intro ls s rs h
    constructor
    · have hle := Select.scanner.length_le (fun _ _ _ hs => hs.turnsLeft) h
      have hstart : Select.turnsLeft s0 = s0.nclients + 3 := by
        unfold Select.turnsLeft
        rw [hcall.1]
      have hlen : (Select.scanner.clients s0).length = s0.nclients := Compact.length_entries
      rw [hlen, ← hstart]
      exact hle
    · have hpass := h.invariant (P := Select.Passing s0.rset) (Select.called_passing hrun hcall)
        fun _ _ _ ha hturn => (ha.turn hturn).1
      by_cases hret : s.pc = .select
      · exact Or.inl hret
      · exact Or.inr (hpass.goesOn hret)

theorem Poll.serves {ls0 : List Poll.Label} {s0 : Poll.State}
    (hrun : Runs Poll.Step Poll.init ls0 s0) (hcall : Poll.scanner.Called s0) :
    Poll.scanner.Serves s0 where
  served := by
    intro ls s rs hret
    have hpass := Poll.called_passing hrun hcall
    obtain ⟨nready, hpc⟩ := hcall.1
    apply Sweep.served_iff (I := Poll.Passing s0.reported) (fun _ _ _ h hturn => h.turn hturn) hpass
      (Poll.view_process nready hpc) (hpass.nodup.sublist (List.drop_sublist 1 _)) _
      (Poll.view_poll hret)
    have hle := (hpass.told nready hpc).1.countP_le
    dsimp only at hle
    omega
  returns := by
    intro ls s rs h
    have hstarts := Poll.called_passing hrun hcall
    constructor
    · have hle := Poll.scanner.length_le (fun _ _ _ hs => hs.turnsLeft) h
      obtain ⟨nready, hpc⟩ := hcall.1
      have hstart : Poll.turnsLeft s0 = s0.nclients + 2 := by
        unfold Poll.turnsLeft
        rw [hpc]
      have hslot := (hstarts.told nready hpc).1.slot
      have hlen : (Poll.scanner.clients s0).length + 3 = s0.nclients + 2 := by
        dsimp only [Poll.scanner, Poll.State.fds]
        rw [List.length_drop, Compact.length_entries]
        dsimp only at hslot
        omega
      rw [hlen, ← hstart]
      exact hle
    · have hpass := h.invariant (P := Poll.Passing s0.reported) hstarts
        fun _ _ _ ha hturn => (ha.turn hturn).1
      by_cases hret : s.pc = .poll
      · exact Or.inl hret
      · exact Or.inr (hpass.goesOn hret)

inductive Tabled where
  | select
  | poll

def Tabled.scanner : Tabled → Scanner
  | select => Select.scanner
  | poll => Poll.scanner

/-- For the select server and for the poll server, whatever the reads return: the passes of
`process` in which no ready client takes the place of one that is removed are those that make
one read from every ready client. -/
theorem pass_serves_iff (v : Tabled) {ls0 : List v.scanner.Label} {s0 : v.scanner.State}
    (hrun : Runs v.scanner.Step v.scanner.init ls0 s0) (hcall : v.scanner.Called s0) :
    v.scanner.Serves s0 := by
  cases v with
  | select => exact Select.serves hrun hcall
  | poll => exact Poll.serves hrun hcall

/-- Two clients are connected to the select server, and ready. -/
theorem pass_serves_two : ∃ ls s0, Runs Select.Step Select.init ls s0 ∧
    Select.scanner.clients s0 = [4, 5] ∧ (∀ fd ∈ [4, 5], Select.scanner.Ready s0 fd) ∧
    Select.scanner.Serves s0 := by
  have hsocket := Runs.single (s := Select.init) (l := Select.Label.socket 3)
    (Select.Step.socket rfl (by decide))
  have hready1 := hsocket.snoc (l := Select.Label.select {3} 1)
    (Select.Step.select rfl (by decide))
  have haccept1 := hready1.snoc (l := Select.Label.accept 4)
    (Select.Step.accept rfl (by decide) (by decide) (by decide) rfl)
  have hready2 := haccept1.snoc (l := Select.Label.select {3} 1)
    (Select.Step.select rfl (by decide))
  have haccept2 := hready2.snoc (l := Select.Label.accept 5)
    (Select.Step.accept rfl (by decide) (by decide) (by decide) rfl)
  have hready3 := haccept2.snoc (l := Select.Label.select {4, 5} 2)
    (Select.Step.select rfl (by decide))
  have hboth : ∀ fd ∈ [4, 5], fd ∈ ({4, 5} : Finset Nat) := by decide
  exact ⟨_, _, hready3, rfl, hboth, pass_serves_iff .select hready3 ⟨rfl, by decide⟩⟩

def Scanner.ServesAll (v : Scanner) : Prop :=
  ∀ ls0 s0, Runs v.Step v.init ls0 s0 → v.Called s0 → ∀ ls s rs, v.Returned s →
    Runs v.Turn (s0, []) ls (s, rs) → ∀ fd ∈ v.clients s0, v.Ready s0 fd → rs.count fd = 1

theorem Select.second_missed {ls0 : List Select.Label} {s : Select.State}
    (hrun : Runs Select.Step Select.init ls0 s) (hpc : s.pc = .process s.rset.card)
    (hnone : s.listenfd ∉ s.rset) (hn : s.nclients = 2) (h0 : s.clients 0 ∈ s.rset)
    (h1 : s.clients 1 ∈ s.rset) (hne : s.clients 0 ≠ s.clients 1) :
    ¬Select.scanner.ServesAll := by
  intro hall
  have hpos : (s.rset.card : Int) > 0 := Int.natCast_pos.mpr (Finset.card_pos.mpr ⟨_, h0⟩)
  have hlt : 0 < s.nclients := by omega
  have hover : ¬(0 + 1 < s.nclients - 1 ∧ (s.rset.card : Int) - 1 > 0) := by omega
  have hnoAccept : Runs Select.scanner.Turn (s, []) [.noAccept] (_, []) :=
    Runs.single ⟨Select.Step.noAccept hpc hnone, trivial, rfl⟩
  have hleaves := hnoAccept.snoc (u := (_, [s.clients 0]))
    (l := Select.Label.read EchoMsg.zeros .done)
    ⟨Select.Step.close rfl hlt hpos h0, trivial, rfl⟩
  have hback := hleaves.snoc (u := (_, [s.clients 0])) (l := Select.Label.done)
    ⟨Select.Step.done rfl hover, trivial, rfl⟩
  have hmem : s.clients 1 ∈ Compact.entries s.clients s.nclients :=
    Compact.mem_entries.mpr ⟨1, by omega, rfl⟩
  have hcall : Select.scanner.Called s := ⟨hpc, fun hin => absurd hin hnone⟩
  have hone := hall _ _ hrun hcall _ _ _ (by exact rfl) hback _ hmem h1
  rw [List.count_singleton, if_neg (by simpa using hne)] at hone
  cases hone

theorem Select.not_servesAll : ¬Select.scanner.ServesAll := by
  have hsocket := Runs.single (s := Select.init) (l := Select.Label.socket 3)
    (Select.Step.socket rfl (by decide))
  have hready1 := hsocket.snoc (l := Select.Label.select {3} 1)
    (Select.Step.select rfl (by decide))
  have haccept1 := hready1.snoc (l := Select.Label.accept 4)
    (Select.Step.accept rfl (by decide) (by decide) (by decide) rfl)
  have hready2 := haccept1.snoc (l := Select.Label.select {3} 1)
    (Select.Step.select rfl (by decide))
  have haccept2 := hready2.snoc (l := Select.Label.accept 5)
    (Select.Step.accept rfl (by decide) (by decide) (by decide) rfl)
  have hready3 := haccept2.snoc (l := Select.Label.select {4, 5} 2)
    (Select.Step.select rfl (by decide))
  exact Select.second_missed hready3 rfl (by decide) rfl (by decide) (by decide) (by decide)

theorem Poll.second_missed {ls0 : List Poll.Label} {s : Poll.State} {nready : Int}
    (hrun : Runs Poll.Step Poll.init ls0 s) (hpc : s.pc = .process nready) (hpos : nready > 0)
    (hnone : ¬s.Connects) (hn : s.nclients = 3) (h1 : (s.clients 1).Ready)
    (h2 : (s.clients 2).fd ∈ s.reported) (hne : (s.clients 1).fd ≠ (s.clients 2).fd) :
    ¬Poll.scanner.ServesAll := by
  intro hall
  have hlt : 1 < s.nclients := by omega
  have hover : ¬(nready - 1 > 0 ∧ 1 + 1 < s.nclients - 1) := by omega
  have hnoAccept : Runs Poll.scanner.Turn (s, []) [.noAccept] (_, []) :=
    Runs.single ⟨Poll.Step.noAccept hpc (not_not.mp hnone), trivial, rfl⟩
  have hleaves := hnoAccept.snoc (u := (_, [(s.clients 1).fd]))
    (l := Poll.Label.read EchoMsg.zeros .done)
    ⟨Poll.Step.close rfl hpos hlt h1, trivial, rfl⟩
  have hback := hleaves.snoc (u := (_, [(s.clients 1).fd])) (l := Poll.Label.done)
    ⟨Poll.Step.done rfl hover, trivial, rfl⟩
  have hmem : (s.clients 2).fd ∈ s.fds.drop 1 :=
    Compact.mem_drop_entries.mpr ⟨2, by omega, by omega, rfl⟩
  have hcall : Poll.scanner.Called s := ⟨⟨nready, hpc⟩, fun hc => absurd hc hnone⟩
  have hone := hall _ _ hrun hcall _ _ _ (by exact rfl) hback _ hmem h2
  rw [List.count_singleton, if_neg (by simpa using hne)] at hone
  cases hone

theorem Poll.not_servesAll : ¬Poll.scanner.ServesAll := by
  have hsocket := Runs.single (s := Poll.init) (l := Poll.Label.socket 3) (Poll.Step.socket rfl rfl)
  have hpoll1 := hsocket.snoc (l := Poll.Label.poll fun j => if j = 0 then 1 else 0)
    (Poll.Step.poll rfl (by decide))
  have haccept1 := hpoll1.snoc (l := Poll.Label.accept 4)
    (Poll.Step.accept rfl (by decide) (by decide) rfl)
  have hpoll2 := haccept1.snoc (l := Poll.Label.poll fun j => if j = 0 then 1 else 0)
    (Poll.Step.poll rfl (by decide))
  have haccept2 := hpoll2.snoc (l := Poll.Label.accept 5)
    (Poll.Step.accept rfl (by decide) (by decide) rfl)
  have hpoll3 := haccept2.snoc (l := Poll.Label.poll fun j => if j = 0 then 0 else 1)
    (Poll.Step.poll rfl (by decide))
  exact Poll.second_missed hpoll3 rfl (by decide) (by decide) rfl (by decide) (by decide)
    (by decide)

/-- Two clients are ready, and the first of them leaves: neither server reads from the other in
that pass. -/
theorem ready_client_missed : ¬Select.scanner.ServesAll ∧ ¬Poll.scanner.ServesAll :=
  ⟨Select.not_servesAll, Poll.not_servesAll⟩

end Passes

end OsCourse.Servers
