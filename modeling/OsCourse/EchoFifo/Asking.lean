import OsCourse.EchoFifo.Serving

/-! The steps of the clients, and with them those of all: no process is ended by a pipe without
reader, no pipe is read at its end, and the server never leaves its loop. -/
namespace OsCourse.EchoFifo
open Bytes Fifos Function Transition

variable {room : Nat → Nat → Bool} {niters : Nat} {s s' : State} {l : Proc}
  {frames : List (List UInt8)} {p : Int32} {fd cfd sfd k i : Nat} {m : List UInt8}

section Client

theorem update_same {β : Type*} {g : ClientPc → β} {cli : Int32 → ClientPc} {pc : ClientPc}
    (h : g pc = g (cli p)) (q : Int32) : g (update cli p pc q) = g (cli q) := by
  by_cases hq : q = p
  · rw [hq, update_self, h]
  · rw [update_of_ne hq]

theorem Flow.client {pc : ClientPc} (h : Flow s frames) (hserver : s'.server = s.server)
    (hbytes : ∀ k, (s'.files.fifos k).bytes = (s.files.fifos k).bytes)
    (hclient : s'.client = update s.client p pc) (hwaits : pc.waits = (s.client p).waits)
    (hmsg : ∀ q, q ≠ p → s'.msg q = s.msg q)
    (hcase : (s'.msg p = s.msg p ∧ pc.cfd = (s.client p).cfd) ∨
      ((s.client p).waits = 0 ∧ ∀ k, pc.cfd = some k ∨ (s.client p).cfd = some k →
        (s.files.fifos k).bytes = [])) : Flow s' frames := by
  refine h.of (by rw [hserver]) ?_ ?_ hbytes ?_ ?_ ?_ ?_
  · intro fd hfd
    rw [hserver] at hfd
    exact (hbytes fd).trans (h.framed fd hfd)
  · intro hfd
    rw [hserver] at hfd
    exact h.before hfd
  · rw [hclient]
    exact update_same hwaits
  · intro q
    by_cases hq : q = p
    · rw [hq]
      exact hcase.imp And.left And.left
    · exact Or.inl (hmsg q hq)
  · intro q k hk
    rw [hclient] at hk
    by_cases hq : q = p
    · rw [hq, update_self] at hk
      rw [hq]
      obtain ⟨hsame, hcfd⟩ | ⟨_, hnil⟩ := hcase
      · exact Or.inl ⟨hcfd ▸ hk, hsame⟩
      · exact Or.inr (hnil k (Or.inl hk))
    · rw [update_of_ne hq] at hk
      exact Or.inl ⟨hk, hmsg q hq⟩
  · intro q k hk
    rw [hclient]
    by_cases hq : q = p
    · rw [hq] at hk ⊢
      rw [update_self]
      obtain ⟨_, hcfd⟩ | ⟨_, hnil⟩ := hcase
      · exact Or.inl (hcfd.trans hk)
      · exact Or.inr (hnil k (Or.inr hk))
    · rw [update_of_ne hq]
      exact Or.inl hk

theorem Inv.cliOpen (hi : Inv niters frames s) (hpc : s.client p = .start)
    (hname : s.files.names echoServiceName = some sfd)
    (hr : (s.files.fifos sfd).readers ≠ []) :
    Inv niters frames
      { s with
        files := s.files.openWrite sfd (.client p)
        client := update s.client p (.making sfd) } := by
  have hprinted : s.printed p = [] := hi.told_at hpc
  refine ⟨?_, ?_, hi.msg, hi.resp, hi.told_update (fun _ _ => ⟨rfl, rfl⟩) hprinted⟩
  · refine hi.linked.client_set (hi.linked.ok.lt _ _ hname) rfl (by intro y hy; simp [hy])
      (by rw [hpc]; rfl) (by rw [hpc]; simp [ClientPc.cfd]) ?_ (by simp) (hi.linked.idle sfd)
    intro fd hfd
    cases hfd
    exact hi.linked.server_of_reader hname hr
  · exact hi.flow.client rfl openWrite_bytes rfl (by rw [hpc]; rfl) (fun _ _ => rfl)
      (Or.inl ⟨rfl, by rw [hpc]; rfl⟩)

theorem Inv.cliMkfifo (hi : Inv niters frames s) (hpc : s.client p = .making sfd) :
    Inv niters frames
      { s with
        files := s.files.mkfifo (clientName p)
        client := update s.client p (.creating sfd) } := by
  have hfifos : (s.files.mkfifo (clientName p)).fifos = s.files.fifos :=
    hi.linked.ok.mkfifo_fifos
  have hprinted : s.printed p = [] := hi.told_at hpc
  refine ⟨?_, ?_, hi.msg, hi.resp, hi.told_update (fun _ _ => ⟨rfl, rfl⟩) hprinted⟩
  · refine hi.linked.client hi.linked.ok.mkfifo (OthersKeep.of_fifos hfifos)
      (mkfifo_ne (clientName_ne_service p).symm)
      (fun q hq => mkfifo_ne fun h => hq (clientName_inj h)) ?_ (by simp [ClientPc.cfd]) ?_
      (fun _ _ => mkfifo_self) ?_ (by rw [hfifos]; exact hi.linked.nodup)
      (by rw [hfifos]; exact hi.linked.idle)
    · intro fd m k hsrv hp
      have hname := hi.linked.answering fd m k hsrv
      rw [hp] at hname
      rw [mkfifo_some hname]
    · intro fd hfd
      apply hi.linked.sfd p
      rw [hpc]
      exact hfd
    · intro k hk
      rw [hfifos] at hk
      have hreads : (s.client p).cfd = some k := hi.linked.reader k _ hk
      rw [hpc] at hreads
      cases hreads
  · exact hi.flow.client rfl (fun k => by rw [hfifos]) rfl (by rw [hpc]; rfl) (fun _ _ => rfl)
      (Or.inl ⟨rfl, by rw [hpc]; rfl⟩)

theorem Inv.cliCreate (hi : Inv niters frames s) (hpc : s.client p = .creating sfd)
    (hname : s.files.names (clientName p) = some cfd) :
    Inv niters frames
      { s with
        files := s.files.openBoth cfd (.client p)
        client := update s.client p (loopHead niters sfd cfd 1)
        msg := update s.msg p (setSender (s.msg p) p) } := by
  have hnone : (s.client p).cfd = none := by rw [hpc]; rfl
  -- who reads from the pipe would be client `p`, as the name is its own
  have hreaders : (s.files.fifos cfd).readers = [] := by
    by_contra hne
    obtain ⟨x, hx⟩ := List.exists_mem_of_ne_nil _ hne
    have hreads := hi.linked.reader cfd x hx
    cases x with
    | server => exact hi.linked.ne_service hreads hname rfl
    | client q =>
      by_cases hq : q = p
      · rw [hq] at hreads
        cases hnone.symm.trans hreads
      · exact hi.linked.ne_own hq (hi.linked.own q cfd hreads).1 hname rfl
  have hnil := hi.linked.idle cfd hreaders
  have hprinted : s.printed p = [] := hi.told_at hpc
  refine ⟨?_, ?_, length_update hi.msg (length_setSender (hi.msg p)), hi.resp, ?_⟩
  · refine hi.linked.client (hi.linked.ok.set (hi.linked.ok.lt _ _ hname)) OthersKeep.openBoth rfl
      (fun _ _ => rfl) (fun _ _ _ _ _ => rfl) ?_ ?_ ?_ ?_
      (openBoth_nodup hreaders hi.linked.nodup) (openBoth_idle hi.linked.idle)
    · intro k hk
      rw [loopHead_cfd] at hk
      cases hk
      exact ⟨hname, openBoth_opened⟩
    · intro fd hfd
      rw [loopHead_sfd] at hfd
      apply hi.linked.sfd p
      rw [hpc]
      exact hfd
    · intro j h
      exact absurd h (loopHead_ne_creating _ _ _ _ _)
    · intro k hk
      rw [loopHead_cfd]
      by_cases hk' : k = cfd
      · rw [hk']
      · rw [openBoth_ne hk'] at hk
        have hreads : (s.client p).cfd = some k := hi.linked.reader k _ hk
        cases hnone.symm.trans hreads
  · refine hi.flow.client rfl openBoth_bytes rfl (by rw [hpc, loopHead_waits]; rfl)
      (fun q hq => update_of_ne hq _ s.msg) (Or.inr ⟨by rw [hpc]; rfl, ?_⟩)
    intro k hk
    rw [loopHead_cfd, hnone] at hk
    obtain hk | hk := hk
    · cases hk
      exact hnil
    · cases hk
  · refine hi.told_update (fun q hq => ⟨update_of_ne hq _ s.msg, rfl⟩) ?_
    dsimp only
    rw [update_self]
    exact told_loopHead le_rfl (by omega) senderOf_setSender hprinted

theorem Inv.service (hi : Inv niters frames s) (hsfd : (s.client p).sfd = some sfd) :
    s.server.fd = some sfd ∧ .server ∈ (s.files.fifos sfd).readers ∧
      ∀ q k, (s.client q).cfd = some k → k ≠ sfd := by
  have hfd := hi.linked.sfd p sfd hsfd
  refine ⟨hfd, (hi.linked.service sfd hfd).2.1, ?_⟩
  intro q k hk
  exact hi.linked.ne_service hfd (hi.linked.own q k hk).1

theorem Inv.cliWrite (hi : Inv niters frames s) (hn : niters < 2 ^ 31)
    (hpc : s.client p = .writing sfd cfd i) (hm : m = setMsg (s.msg p) i) :
    Inv niters (frames ++ [m])
      { s with
        files := s.files.put sfd m
        client := update s.client p (.reading sfd cfd i)
        msg := update s.msg p m } := by
  have hcfd : (s.client p).cfd = some cfd := by rw [hpc]; rfl
  have hsfd : (s.client p).sfd = some sfd := by rw [hpc]; rfl
  obtain ⟨hfd, hserver, hne⟩ := hi.service hsfd
  obtain ⟨hasked, hanswers⟩ := hi.not_asked (p := p) (by rw [hpc]; rfl)
  obtain ⟨h1, hin, hsender, hprinted⟩ := hi.told_at hpc
  have hlen : m.length = msgSize := hm ▸ length_setMsg (hi.msg p) (by omega)
  have hmp : senderOf m = p := by rw [hm, senderOf_setMsg (hi.msg p), hsender]
  have hother : ∀ k, k ≠ sfd → (s.files.put sfd m).fifos k = s.files.fifos k :=
    fun k hk => set_ne hk
  have hself : ((s.files.put sfd m).fifos sfd).bytes = (s.files.fifos sfd).bytes ++ m := by
    unfold Files.put
    rw [set_self]
  refine ⟨?_, ⟨?_, ?_, ?_, ?_, ?_⟩, length_update hi.msg hlen, hi.resp, ?_⟩
  · refine hi.linked.client_set (hi.linked.service_lt hfd) rfl (fun _ _ => Iff.rfl)
      (by rw [hpc]; rfl) (fun h => absurd rfl (hne p sfd h)) ?_ (by simp) ?_
    · intro fd' h
      cases h
      exact hfd
    · intro h
      rw [h] at hserver
      cases hserver
  · intro fd' hfd'
    cases hfd.symm.trans hfd'
    dsimp only
    rw [hself, hi.flow.framed sfd hfd, List.flatten_append, List.flatten_singleton]
  · intro h
    cases hfd.symm.trans h
  · intro m' hm'
    dsimp only at hm' ⊢
    rw [← List.append_assoc, List.mem_append, List.mem_singleton] at hm'
    obtain hold | rfl := hm'
    · have hpos := asked_pos hold
      have hp : senderOf m' ≠ p := by
        intro h
        rw [h] at hpos
        omega
      rw [update_of_ne hp]
      exact hi.flow.own m' hold
    · rw [hmp, update_self]
  · intro q k hk
    dsimp only at hk ⊢
    by_cases hq : q = p
    · rw [hq, update_self] at hk
      cases hk
      rw [hother cfd (hne p cfd hcfd)]
      exact Or.inl (hi.bytes_nil (by rw [hpc]; rfl) hcfd)
    · rw [update_of_ne hq] at hk ⊢
      rw [hother k (hne q k hk)]
      exact hi.flow.back q k hk
  · intro q
    have hsame : State.answers { s with
        files := s.files.put sfd m
        client := update s.client p (.reading sfd cfd i)
        msg := update s.msg p m } q = s.answers q :=
      answers_congr (update_same (by rw [hpc]; rfl) q)
        fun k hk => congrArg Fifo.bytes (hother k (hne q k hk))
    have happ : asked q (s.server.held ++ (frames ++ [m])) =
        asked q (s.server.held ++ frames) + asked q [m] := by
      rw [← List.append_assoc]
      exact List.countP_append
    rw [hsame, happ]
    dsimp only
    by_cases hq : q = p
    · have hone : asked q [m] = 1 := by simp [asked, hmp, hq]
      rw [hone, hq, hasked, hanswers, update_self]
      rfl
    · have hzero : asked q [m] = 0 := by
        have hnot : ¬ senderOf m = q := fun h => hq (h.symm.trans hmp)
        simp [asked, hnot]
      rw [hzero, update_of_ne hq]
      exact hi.flow.once q
  · refine hi.told_update (fun q hq => ⟨update_of_ne hq _ s.msg, rfl⟩) ?_
    dsimp only
    rw [update_self]
    refine ⟨h1, hin, hmp, ?_, hprinted⟩
    rw [hm, text_setMsg (hi.msg p), hsender]

theorem Inv.cliRead (hi : Inv niters frames s) (hpc : s.client p = .reading sfd cfd i)
    (hbytes : (s.files.fifos cfd).bytes ≠ []) {resp : List UInt8}
    (hresp : resp = write (s.resp p) 0 ((s.files.fifos cfd).bytes.take msgSize)) :
    Inv niters frames
      { s with
        files := s.files.take cfd msgSize
        client := update s.client p (loopHead niters sfd cfd (i + 1))
        resp := update s.resp p resp
        printed := update s.printed p (s.printed p ++ [text resp msgOffset]) } := by
  have hcfd : (s.client p).cfd = some cfd := by rw [hpc]; rfl
  have hsfd : (s.client p).sfd = some sfd := by rw [hpc]; rfl
  obtain ⟨hfd, _, hne⟩ := hi.service hsfd
  have hmsg : (s.files.fifos cfd).bytes = s.msg p := (hi.flow.back p cfd hcfd).resolve_left hbytes
  have htake : (s.files.fifos cfd).bytes.take msgSize = s.msg p := by
    rw [hmsg]
    exact List.take_of_length_le (hi.msg p).le
  have hall : resp = s.msg p := by
    rw [hresp, htake]
    exact write_all ((hi.msg p).trans (hi.resp p).symm)
  obtain ⟨h1, hin, hsender, htext, hprinted⟩ := hi.told_at hpc
  have hother : ∀ k, k ≠ cfd → (s.files.take cfd msgSize).fifos k = s.files.fifos k :=
    fun k hk => set_ne hk
  have hself : ((s.files.take cfd msgSize).fifos cfd).bytes = [] := by
    unfold Files.take
    rw [set_self]
    dsimp only
    rw [hmsg]
    exact List.drop_of_length_le (hi.msg p).le
  have hmine : ∀ q k, (s.client q).cfd = some k → q ≠ p → k ≠ cfd := by
    intro q k hk hq
    exact hi.linked.ne_own hq (hi.linked.own q k hk).1 (hi.linked.own p cfd hcfd).1
  refine ⟨?_, ⟨?_, hi.flow.before, hi.flow.own, ?_, ?_⟩, hi.msg,
    length_update hi.resp (by rw [hall]; exact hi.msg p), ?_⟩
  · refine hi.linked.client_set (hi.linked.own_lt hcfd) rfl (fun _ _ => Iff.rfl)
      (by rw [loopHead_cfd, hcfd]) (fun h => (hi.linked.own p cfd h).2.2) ?_
      (fun j => loopHead_ne_creating _ _ _ _ j) ?_
    · intro fd' h
      rw [loopHead_sfd] at h
      cases h
      exact hfd
    · intro h
      have hr := (hi.linked.own p cfd hcfd).2.1
      dsimp only at h
      rw [h] at hr
      cases hr
  · intro fd' hfd'
    cases hfd.symm.trans hfd'
    dsimp only
    rw [hother sfd (hne p cfd hcfd).symm]
    exact hi.flow.framed sfd hfd
  · intro q k hk
    dsimp only at hk ⊢
    by_cases hq : q = p
    · rw [hq, update_self, loopHead_cfd] at hk
      cases hk
      exact Or.inl hself
    · rw [update_of_ne hq] at hk
      rw [hother k (hmine q k hk hq)]
      exact hi.flow.back q k hk
  · intro q
    have honce := hi.flow.once q
    dsimp only
    by_cases hq : q = p
    · have hone : s.answers p = 1 := by
        rw [answers_of hcfd]
        exact if_neg hbytes
      have hzero : State.answers { s with
          files := s.files.take cfd msgSize
          client := update s.client p (loopHead niters sfd cfd (i + 1))
          resp := update s.resp p resp
          printed := update s.printed p (s.printed p ++ [text resp msgOffset]) } p = 0 := by
        apply answers_zero
        intro k hk
        dsimp only at hk
        rw [update_self, loopHead_cfd] at hk
        cases hk
        exact hself
      rw [hq, hone, hpc] at honce
      rw [hq, hzero, update_self, loopHead_waits]
      exact Nat.succ_injective honce
    · rw [answers_congr (s := s) (by dsimp only; rw [update_of_ne hq])
        fun k hk => congrArg Fifo.bytes (hother k (hmine q k hk hq)), update_of_ne hq]
      exact honce
  · refine hi.told_update (fun q hq => ⟨rfl, update_of_ne hq _ s.printed⟩) ?_
    dsimp only
    rw [update_self, hall, htext]
    refine told_loopHead (Nat.le_add_left 1 i) (by omega) hsender ?_
    rw [Nat.add_sub_cancel, hprinted]
    exact (hellos_pred h1).symm

theorem Inv.cliClose (hi : Inv niters frames s) (hpc : s.client p = .closing sfd cfd) :
    Inv niters frames
      { s with
        files := s.files.close sfd (.client p)
        client := update s.client p (.closingOwn cfd) } := by
  have hcfd : (s.client p).cfd = some cfd := by rw [hpc]; rfl
  have hsfd : (s.client p).sfd = some sfd := by rw [hpc]; rfl
  obtain ⟨hfd, hserver, hne⟩ := hi.service hsfd
  have hnot : .client p ∉ (s.files.fifos sfd).readers := fun h =>
    hne p sfd (hi.linked.reader sfd _ h) rfl
  have herase : (s.files.fifos sfd).readers.erase (.client p) = (s.files.fifos sfd).readers :=
    List.erase_of_not_mem hnot
  have hopen : (s.files.fifos sfd).readers.erase (.client p) ≠ [] := by
    rw [herase]
    exact List.ne_nil_of_mem hserver
  have hprinted : s.printed p = hellos p niters := hi.told_at hpc
  refine ⟨?_, ?_, hi.msg, hi.resp, hi.told_update (fun _ _ => ⟨rfl, rfl⟩) hprinted⟩
  · refine hi.linked.client_set (hi.linked.service_lt hfd) herase
      (fun y hy => List.mem_erase_of_ne hy) (by rw [hcfd]; rfl)
      (fun h => absurd rfl (hne p sfd h)) (by simp [ClientPc.sfd]) (by simp)
      (fun h => absurd h hopen)
  · exact hi.flow.client rfl (close_bytes fun h => absurd h hopen) rfl (by rw [hpc]; rfl)
      (fun _ _ => rfl) (Or.inl ⟨rfl, by rw [hpc]; rfl⟩)

theorem Inv.cliCloseOwn (hi : Inv niters frames s) (hpc : s.client p = .closingOwn cfd) :
    Inv niters frames
      { s with
        files := s.files.close cfd (.client p)
        client := update s.client p .unlinking } := by
  have hcfd : (s.client p).cfd = some cfd := by rw [hpc]; rfl
  have hnil : (s.files.fifos cfd).bytes = [] := hi.bytes_nil (by rw [hpc]; rfl) hcfd
  have hbytes := close_bytes (k := cfd) (x := .client p) fun _ => hnil
  have hother : ∀ k, k ≠ cfd → (s.files.close cfd (.client p)).fifos k = s.files.fifos k :=
    fun k hk => set_ne hk
  have hself : ((s.files.close cfd (.client p)).fifos cfd).readers =
      (s.files.fifos cfd).readers.erase (.client p) := by
    unfold Files.close
    rw [set_self]
    rfl
  have hprinted : s.printed p = hellos p niters := hi.told_at hpc
  refine ⟨?_, ?_, hi.msg, hi.resp, hi.told_update (fun _ _ => ⟨rfl, rfl⟩) hprinted⟩
  · refine hi.linked.client hi.linked.ok.close OthersKeep.close rfl (fun _ _ => rfl)
      (fun _ _ _ _ _ => rfl) (by simp [ClientPc.cfd]) (by simp [ClientPc.sfd]) (by simp) ?_ ?_ ?_
    · intro k hk
      by_cases hk' : k = cfd
      · rw [hk', hself] at hk
        exact absurd rfl ((hi.linked.nodup cfd).mem_erase_iff.mp hk).1
      · rw [hother k hk'] at hk
        have hreads : (s.client p).cfd = some k := hi.linked.reader k _ hk
        rw [hcfd] at hreads
        cases hreads
        exact absurd rfl hk'
    · intro k
      by_cases hk' : k = cfd
      · rw [hk', hself]
        exact (hi.linked.nodup cfd).erase _
      · rw [hother k hk']
        exact hi.linked.nodup k
    · intro k hk
      rw [hbytes]
      by_cases hk' : k = cfd
      · rw [hk']
        exact hnil
      · rw [hother k hk'] at hk
        exact hi.linked.idle k hk
  · refine hi.flow.client rfl hbytes rfl (by rw [hpc]; rfl) (fun _ _ => rfl)
      (Or.inr ⟨by rw [hpc]; rfl, ?_⟩)
    intro k hk
    rw [hcfd] at hk
    obtain hk | hk := hk
    · cases hk
    · cases hk
      exact hnil

theorem Inv.cliUnlink (hi : Inv niters frames s) (hpc : s.client p = .unlinking) :
    Inv niters frames
      { s with
        files := s.files.unlink (clientName p)
        client := update s.client p .done } := by
  have hcfd : (s.client p).cfd = none := by rw [hpc]; rfl
  have hprinted : s.printed p = hellos p niters := hi.told_at hpc
  refine ⟨?_, ?_, hi.msg, hi.resp, hi.told_update (fun _ _ => ⟨rfl, rfl⟩) hprinted⟩
  · refine hi.linked.client hi.linked.ok.unlink (OthersKeep.of_fifos rfl)
      (unlink_ne (clientName_ne_service p).symm)
      (fun q hq => unlink_ne fun h => hq (clientName_inj h)) ?_ (by simp [ClientPc.cfd])
      (by simp [ClientPc.sfd]) (by simp) ?_ hi.linked.nodup hi.linked.idle
    · intro fd m k hsrv hp
      obtain ⟨sfd, i, hcli, _⟩ := hi.answering hsrv
      rw [hp, hpc] at hcli
      cases hcli
    · intro k hk
      have hreads : (s.client p).cfd = some k := hi.linked.reader k _ hk
      cases hcfd.symm.trans hreads
  · exact hi.flow.client rfl (fun _ => rfl) rfl (by rw [hpc]; rfl) (fun _ _ => rfl)
      (Or.inl ⟨rfl, by rw [hpc]; rfl⟩)

theorem Inv.cliNoService (hi : Inv niters frames s) (hpc : s.client p = .start) :
    Inv niters frames { s with client := update s.client p .failed } := by
  have hcfd : (s.client p).cfd = none := by rw [hpc]; rfl
  have hprinted : s.printed p = [] := hi.told_at hpc
  refine ⟨?_, ?_, hi.msg, hi.resp, hi.told_update (fun _ _ => ⟨rfl, rfl⟩) hprinted⟩
  · refine hi.linked.client hi.linked.ok (OthersKeep.of_fifos rfl) rfl (fun _ _ => rfl)
      (fun _ _ _ _ _ => rfl) (by simp [ClientPc.cfd]) (by simp [ClientPc.sfd]) (by simp) ?_
      hi.linked.nodup hi.linked.idle
    intro k hk
    have hreads : (s.client p).cfd = some k := hi.linked.reader k _ hk
    cases hcfd.symm.trans hreads
  · exact hi.flow.client rfl (fun _ => rfl) rfl (by rw [hpc]; rfl) (fun _ _ => rfl)
      (Or.inl ⟨rfl, by rw [hpc]; rfl⟩)

end Client

section Runs

theorem State.Start.inv (h : s.Start) : Inv niters [] s := by
  have hclient := h.client
  have hfiles := h.files.closed
  refine ⟨?_, ?_, h.msg, h.resp, ?_⟩
  · refine ⟨h.files.toOk, ?_, ?_, ?_, ?_, ?_, ?_, ?_, ?_, ?_, ?_, ?_⟩ <;>
      simp [h.server, hclient, hfiles, ServerPc.fd, ClientPc.cfd, ClientPc.sfd, ServerPc.runs]
  · refine ⟨?_, ?_, ?_, ?_, ?_⟩ <;>
      simp [h.server, hclient, ServerPc.fd, ServerPc.held, ClientPc.cfd, ClientPc.waits, asked,
        State.answers]
  · intro p
    rw [hclient]
    exact h.printed p

/-- What holds goes on to hold: the calls that would end a process or read nothing do not come. -/
theorem Inv.step (hi : Inv niters frames s) (hn : niters < 2 ^ 31)
    (h : Step room niters s l s') : ∃ frames', Inv niters frames' s' := by
  have hl := hi.linked
  have hruns := hl.runs
  cases h with
  | srvMkfifo hpc => exact ⟨frames, hi.srvMkfifo hpc⟩
  | srvCreate hpc hname => exact ⟨frames, hi.srvCreate hpc hname⟩
  | srvNoFifo hpc hnone =>
    obtain ⟨fd, hfd⟩ := hl.created hpc
    cases hnone.symm.trans hfd
  | srvRead hpc hne hmsg =>
    obtain ⟨m, rest, _, hlen, hm, hnext⟩ := hi.srvRead hpc hne
    rw [← hm] at hmsg
    subst hmsg
    rw [if_pos hlen]
    exact ⟨rest, hnext⟩
  | srvReadEnd => exact ⟨frames, hi⟩
  | srvOpen hpc hname => exact ⟨frames, hi.srvOpen hpc hname⟩
  | srvNoClient hpc hnone =>
    obtain ⟨sfd, k, i, hcli, _⟩ := hi.asker (m := _) (by rw [hpc]; exact List.mem_cons_self)
    have hname := (hl.own _ k (by rw [hcli]; rfl)).1
    cases hnone.symm.trans hname
  | srvWrite hpc => exact ⟨frames, hi.srvWrite hpc⟩
  | srvPipe hpc hnil =>
    obtain ⟨_, _, _, _, _, hr, _⟩ := hi.answering hpc
    rw [hnil] at hr
    cases hr
  | srvClose hpc => exact ⟨frames, hi.srvClose hpc⟩
  | srvExit hpc =>
    rw [hpc] at hruns
    cases hruns
  | cliOpen hpc hname hr => exact ⟨frames, hi.cliOpen hpc hname hr⟩
  | cliNoService hpc => exact ⟨frames, hi.cliNoService hpc⟩
  | cliMkfifo hpc => exact ⟨frames, hi.cliMkfifo hpc⟩
  | cliCreate hpc hname => exact ⟨frames, hi.cliCreate hpc hname⟩
  | cliNoFifo hpc hnone =>
    obtain ⟨k, hk⟩ := hl.made _ _ hpc
    cases hnone.symm.trans hk
  | cliWrite hpc hmsg => exact ⟨_, hi.cliWrite hn hpc hmsg⟩
  | cliPipe hpc hnil =>
    obtain ⟨_, hserver, _⟩ := hi.service (by rw [hpc]; rfl)
    rw [hnil] at hserver
    cases hserver
  | cliRead hpc hne hresp => exact ⟨frames, hi.cliRead hpc hne hresp⟩
  | cliReadEnd hpc _ hnil =>
    obtain ⟨_, _, hw⟩ := hl.own _ _ (by rw [hpc]; rfl)
    rw [hnil] at hw
    cases hw
  | cliClose hpc => exact ⟨frames, hi.cliClose hpc⟩
  | cliCloseOwn hpc => exact ⟨frames, hi.cliCloseOwn hpc⟩
  | cliUnlink hpc => exact ⟨frames, hi.cliUnlink hpc⟩

theorem hellos_mono {n : Nat} (h : k ≤ n) : hellos p k <+: hellos p n := by
  have hrange : List.range n = List.range k ++ (List.range (n - k)).map (k + ·) := by
    rw [← List.range_add]
    congr 1
    omega
  unfold hellos
  rw [hrange, List.map_append]
  exact List.prefix_append _ _

theorem Told.printed_le {printed : List (List UInt8)} {pc : ClientPc}
    (h : Told niters p m printed pc) : printed <+: hellos p niters := by
  cases pc with
  | start | making | creating | failed =>
    rw [show printed = [] from h]
    exact List.nil_prefix
  | writing _ _ i =>
    obtain ⟨_, hi, _, hprinted⟩ := h
    rw [hprinted]
    exact hellos_mono (by omega)
  | reading _ _ i =>
    obtain ⟨_, hi, _, _, hprinted⟩ := h
    rw [hprinted]
    exact hellos_mono (by omega)
  | closing | closingOwn | unlinking | done =>
    rw [show printed = hellos p niters from h]
  | killed => exact h.elim

theorem inv_of_runs {ls : List Proc} (hs : s.Start) (hn : niters < 2 ^ 31)
    (h : Runs (Step room niters) s ls s') : ∃ frames, Inv niters frames s' := by
  apply h.invariant (P := fun s => ∃ frames, Inv niters frames s) ⟨[], hs.inv⟩
  intro a l b ha hstep
  obtain ⟨frames, hi⟩ := ha
  exact hi.step hn hstep

def State.fresh : State :=
  { files := ⟨fun _ => none, fun _ => ⟨[], [], []⟩, 0⟩
    server := .start
    client := fun _ => .start
    msg := fun _ => List.replicate msgSize 0
    resp := fun _ => List.replicate msgSize 0
    printed := fun _ => [] }

theorem State.fresh_start : State.fresh.Start where
  files := ⟨⟨nofun, nofun, fun _ _ => rfl⟩, fun _ => rfl⟩
  server := rfl
  client _ := rfl
  msg _ := List.length_replicate
  resp _ := List.length_replicate
  printed _ := rfl

def State.made : State :=
  { State.fresh with
    files := State.fresh.files.mkfifo echoServiceName
    server := .creating }

def State.up : State :=
  { State.made with
    files := State.made.files.openBoth 0 .server
    server := .reading 0 }

theorem State.up_reached (room : Nat → Nat → Bool) (niters : Nat) :
    Step room niters State.fresh .server State.made ∧
      Step room niters State.made .server State.up :=
  ⟨Step.srvMkfifo rfl, Step.srvCreate rfl rfl⟩

end Runs

/-- A whole request: its sender wrote it last, and waits for the answer. -/
def State.Asks (s : State) (m : List UInt8) : Prop :=
  ∃ sfd cfd i, s.client (senderOf m) = .reading sfd cfd i ∧ m.length = msgSize ∧
    text m msgOffset = hello (senderOf m) i

theorem Inv.asks {frames : List (List UInt8)} {niters : Nat} {s : State} {m : List UInt8}
    (hi : Inv niters frames s) (hm : m ∈ s.server.held ++ frames) : s.Asks m := by
  obtain ⟨sfd, cfd, i, hcli, hmine, _⟩ := hi.asker hm
  have htold := hi.told_at hcli
  exact ⟨sfd, cfd, i, hcli, hi.length_frame hm,
    (congrArg (text · msgOffset) hmine).trans htold.2.2.2.1⟩

/-- In every run, with any number of clients that come at any time: the server stays in its loop,
no process is ended by a pipe without reader, what lies in the pipe of the service is whole
requests one after the other, each of them and the one that the server has is what its sender
wrote last and still waits for, and each client has printed the answers to its own messages, in
order. -/
theorem messages_whole {room : Nat → Nat → Bool} {niters : Nat} {s s' : State} {ls : List Proc}
    (hs : s.Start) (hn : niters < 2 ^ 31) (h : Runs (Step room niters) s ls s') :
    s'.server.runs = true ∧ (∀ p, s'.client p ≠ .killed) ∧
    (∀ fd, s'.server.fd = some fd → ∃ frames : List (List UInt8),
      (s'.files.fifos fd).bytes = frames.flatten ∧ ∀ m ∈ frames, s'.Asks m) ∧
    (∀ m ∈ s'.server.held, s'.Asks m) ∧
    ∀ p, s'.printed p <+: hellos p niters := by
  obtain ⟨frames, hi⟩ := inv_of_runs hs hn h
  refine ⟨hi.linked.runs, ?_, ?_, ?_, ?_⟩
  · intro p hpc
    exact hi.told_at hpc
  · intro fd hfd
    exact ⟨frames, hi.flow.framed fd hfd, fun m hm => hi.asks (List.mem_append_right _ hm)⟩
  · intro m hm
    exact hi.asks (List.mem_append_left _ hm)
  · intro p
    exact (hi.told p).printed_le

set_option maxRecDepth 8000 in
/-- A server and a client: the first message is answered. -/
theorem messages_whole_open : ∃ s, Runs (Step (fun held n => decide (held + n ≤ 65536)) 10)
    State.fresh [.server, .server, .client 7, .client 7, .client 7, .client 7, .server, .server,
      .server, .server, .client 7] s ∧ s.printed 7 = [hello 7 1] := by
  obtain ⟨hmake, hcreate⟩ := State.up_reached (fun held n => decide (held + n ≤ 65536)) 10
  have hopen := @Step.cliOpen (fun held n => decide (held + n ≤ 65536)) 10 State.up 7 0 rfl rfl
    (List.cons_ne_nil _ _)
  have hrun := ((Runs.single hmake).snoc hcreate).snoc hopen
  have hmade := hrun.snoc (@Step.cliMkfifo _ _ _ 7 0 rfl)
  have hown := hmade.snoc (@Step.cliCreate _ _ _ 7 0 1 rfl rfl)
  have hasked := hown.snoc (@Step.cliWrite _ _ _ 7 0 1 1 _ rfl rfl (List.cons_ne_nil _ _) rfl)
  have hread := hasked.snoc (@Step.srvRead _ _ _ 0 _ rfl (by decide) rfl)
  have hopened := hread.snoc (@Step.srvOpen _ _ _ 0 1 _ rfl rfl (List.cons_ne_nil _ _))
  have hwrote := hopened.snoc (@Step.srvWrite _ _ _ 0 1 _ rfl (List.cons_ne_nil _ _) rfl)
  have hclosed := hwrote.snoc (@Step.srvClose _ _ _ 0 1 rfl)
  have hback := hclosed.snoc (@Step.cliRead _ _ _ 7 0 1 1 _ rfl (by decide) rfl)
  have hprinted := (messages_whole State.fresh_start (by decide) hback).2.2.2.2 7
  exact ⟨_, hback, List.prefix_iff_eq_take.mp hprinted⟩

end OsCourse.EchoFifo
