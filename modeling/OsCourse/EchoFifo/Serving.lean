import OsCourse.EchoFifo.Answers

/-! The steps of the server: each keeps the requests where they are, or takes one to its next
place. -/
namespace OsCourse.EchoFifo
open Bytes Fifos Function Transition

variable {room : Nat → Nat → Bool} {niters : Nat} {s s' : State} {l : Proc}
  {frames : List (List UInt8)} {p : Int32} {fd cfd sfd k i : Nat} {m : List UInt8}

theorem Inv.srvMkfifo (hi : Inv niters frames s) (hpc : s.server = .start) :
    Inv niters frames
      { s with files := s.files.mkfifo echoServiceName, server := .creating } := by
  have hfifos : (s.files.mkfifo echoServiceName).fifos = s.files.fifos :=
    hi.linked.ok.mkfifo_fifos
  have hfd : s.server.fd = none := by rw [hpc]; rfl
  refine ⟨?_, ?_, hi.msg, hi.resp, hi.told⟩
  · refine hi.linked.server hi.linked.ok.mkfifo (OthersKeep.of_fifos hfifos)
      (fun p => mkfifo_ne (clientName_ne_service p)) (by simp [hfd]) (by simp [ServerPc.fd])
      (fun _ => mkfifo_self) ?_ (by rw [hfifos]; exact hi.linked.nodup)
      (by rw [hfifos]; exact hi.linked.idle) rfl (by simp) (by simp)
    intro k hk
    rw [hfifos] at hk
    have hreads : s.server.fd = some k := hi.linked.reader k _ hk
    rw [hfd] at hreads
    cases hreads
  · refine hi.flow.of (by rw [hpc]; rfl) (by simp [ServerPc.fd]) (fun _ => hi.flow.before hfd)
      (fun k => by rw [hfifos]) (fun _ => rfl) (fun _ => Or.inl rfl)
      (fun _ _ h => Or.inl ⟨h, rfl⟩) (fun _ _ h => Or.inl h)

theorem Inv.srvCreate (hi : Inv niters frames s) (hpc : s.server = .creating)
    (hname : s.files.names echoServiceName = some fd) :
    Inv niters frames
      { s with files := s.files.openBoth fd .server, server := .reading fd } := by
  have hfd : s.server.fd = none := by rw [hpc]; rfl
  have hreaders : (s.files.fifos fd).readers = [] := by
    by_contra hne
    have h := hi.linked.server_of_reader hname hne
    rw [hfd] at h
    cases h
  refine ⟨?_, ?_, hi.msg, hi.resp, hi.told⟩
  · refine hi.linked.server (hi.linked.ok.set (hi.linked.ok.lt _ _ hname)) OthersKeep.openBoth
      (fun _ => rfl) (by simp [hfd]) ?_ (by simp) ?_ (openBoth_nodup hreaders hi.linked.nodup)
      (openBoth_idle hi.linked.idle) rfl (by simp) (by simp)
    · intro fd' hfd'
      cases hfd'
      exact ⟨hname, openBoth_opened⟩
    · intro k hk
      by_cases hk' : k = fd
      · rw [hk']
        rfl
      · rw [openBoth_ne hk'] at hk
        have hreads : s.server.fd = some k := hi.linked.reader k _ hk
        rw [hfd] at hreads
        cases hreads
  · refine hi.flow.of (by rw [hpc]; rfl) ?_ (by simp [ServerPc.fd]) openBoth_bytes (fun _ => rfl)
      (fun _ => Or.inl rfl) (fun _ _ h => Or.inl ⟨h, rfl⟩) (fun _ _ h => Or.inl h)
    intro fd' hfd'
    cases hfd'
    rw [hi.flow.before hfd]
    exact (openBoth_bytes fd).trans (hi.linked.idle fd hreaders)

theorem Inv.srvRead (hi : Inv niters frames s) (hpc : s.server = .reading fd)
    (hne : (s.files.fifos fd).bytes ≠ []) : ∃ m rest, frames = m :: rest ∧ m.length = msgSize ∧
    m = (s.files.fifos fd).bytes.take msgSize ∧
    Inv niters rest
      { s with files := s.files.take fd msgSize, server := .opening fd m } := by
  have hfd : s.server.fd = some fd := by rw [hpc]; rfl
  have hheld : s.server.held = [] := by rw [hpc]; rfl
  have hframed := hi.flow.framed fd hfd
  cases frames with
  | nil => exact absurd hframed hne
  | cons m rest =>
    have hlen : m.length = msgSize := hi.length_frame (m := m) (by simp)
    rw [List.flatten_cons] at hframed
    have hself : (s.files.take fd msgSize).fifos fd = { s.files.fifos fd with
        bytes := (s.files.fifos fd).bytes.drop msgSize } := set_self
    refine ⟨m, rest, rfl, hlen, by rw [hframed, List.take_left' hlen], ?_, ?_, hi.msg, hi.resp,
      hi.told⟩
    · exact hi.linked.server_set hfd rfl (hi.linked.service_lt hfd) rfl (fun _ _ => Iff.rfl)
        (fun _ => (hi.linked.service fd hfd).2.2)
        (fun h => by simp [hi.linked.idle fd h]) rfl (by simp) (by simp)
    · have hother : ∀ p k, (s.client p).cfd = some k →
          (s.files.take fd msgSize).fifos k = s.files.fifos k := by
        intro p k hk
        exact set_ne (hi.linked.ne_service hfd (hi.linked.own p k hk).1)
      refine ⟨?_, by simp [ServerPc.fd], ?_, ?_, ?_⟩
      · intro fd' hfd'
        cases hfd'
        dsimp only
        rw [hself, hframed]
        exact List.drop_left' hlen
      · intro m' hm'
        exact hi.flow.own m' (by rw [hheld]; exact hm')
      · intro p k hk
        dsimp only
        rw [hother p k hk]
        exact hi.flow.back p k hk
      · intro p
        have hanswers : State.answers { s with
            files := s.files.take fd msgSize, server := .opening fd m } p = s.answers p :=
          answers_congr rfl fun k hk => congrArg Fifo.bytes (hother p k hk)
        have honce := hi.flow.once p
        rw [hheld] at honce
        rw [hanswers]
        exact honce

theorem Inv.srvOpen (hi : Inv niters frames s) (hpc : s.server = .opening fd m)
    (hname : s.files.names (clientName (senderOf m)) = some cfd) :
    Inv niters frames
      { s with files := s.files.openWrite cfd .server, server := .writing fd m cfd } := by
  have hfd : s.server.fd = some fd := by rw [hpc]; rfl
  refine ⟨?_, ?_, hi.msg, hi.resp, hi.told⟩
  · refine hi.linked.server_set hfd rfl (hi.linked.ok.lt _ _ hname) rfl
      (by intro y hy; simp [hy]) (by simp) (hi.linked.idle cfd) rfl ?_ (by simp)
    intro fd' m' k h
    cases h
    exact hname
  · refine hi.flow.of (by rw [hpc]; rfl) ?_ (by simp [ServerPc.fd]) openWrite_bytes
      (fun _ => rfl) (fun _ => Or.inl rfl) (fun _ _ h => Or.inl ⟨h, rfl⟩) (fun _ _ h => Or.inl h)
    intro fd' hfd'
    cases hfd'
    exact (openWrite_bytes fd).trans (hi.flow.framed fd hfd)

theorem Inv.answering (hi : Inv niters frames s) (hpc : s.server = .writing fd m cfd) :
    ∃ sfd i, s.client (senderOf m) = .reading sfd cfd i ∧ m = s.msg (senderOf m) ∧
      (s.files.fifos cfd).bytes = [] ∧ .client (senderOf m) ∈ (s.files.fifos cfd).readers ∧
      asked (senderOf m) (m :: frames) = 1 := by
  have hheld : s.server.held = [m] := by rw [hpc]; rfl
  obtain ⟨sfd, k, i, hcli, hm, hnil, hone⟩ := hi.asker (m := m) (by simp [hheld])
  obtain ⟨hname, hr, _⟩ := hi.linked.own (senderOf m) k (by rw [hcli]; rfl)
  have hk : k = cfd :=
    Option.some.inj (hname.symm.trans (hi.linked.answering fd m cfd hpc))
  subst hk
  rw [hheld] at hone
  exact ⟨sfd, i, hcli, hm, hnil, hr, hone⟩

theorem Inv.srvWrite (hi : Inv niters frames s) (hpc : s.server = .writing fd m cfd) :
    Inv niters frames
      { s with files := s.files.put cfd m, server := .closing fd cfd } := by
  have hfd : s.server.fd = some fd := by rw [hpc]; rfl
  have hheld : s.server.held = [m] := by rw [hpc]; rfl
  have hname := hi.linked.answering fd m cfd hpc
  have hne : cfd ≠ fd := hi.linked.ne_service hfd hname
  obtain ⟨sfd, i, hcli, hm, hnil, hr, hone⟩ := hi.answering hpc
  have hother : ∀ k, k ≠ cfd → (s.files.put cfd m).fifos k = s.files.fifos k :=
    fun k hk => set_ne hk
  have hself : ((s.files.put cfd m).fifos cfd).bytes = m := by
    unfold Files.put
    rw [set_self]
    dsimp only
    rw [hnil, List.nil_append]
  have hmine : ∀ p k, (s.client p).cfd = some k → p ≠ senderOf m → k ≠ cfd := by
    intro p k hk hp
    exact hi.linked.ne_own hp (hi.linked.own p k hk).1 hname
  have hrest : asked (senderOf m) frames = 0 := by
    have hcons : asked (senderOf m) (m :: frames) = asked (senderOf m) frames + 1 := by
      simp [asked]
    omega
  refine ⟨?_, ⟨?_, by simp [ServerPc.fd], ?_, ?_, ?_⟩, hi.msg, hi.resp, hi.told⟩
  · refine hi.linked.server_set hfd rfl (hi.linked.ok.lt _ _ hname) rfl (fun _ _ => Iff.rfl)
      (fun h => absurd h hne) ?_ rfl (by simp) ?_
    · intro h
      rw [h] at hr
      cases hr
    · intro fd' k h
      cases h
      exact hne
  · intro fd' hfd'
    cases hfd'
    dsimp only
    rw [hother fd hne.symm]
    exact hi.flow.framed fd hfd
  · intro m' hm'
    exact hi.flow.own m' (List.mem_append_right _ hm')
  · intro p k hk
    dsimp only
    by_cases hp : p = senderOf m
    · rw [hp, hcli] at hk
      cases hk
      rw [hself, hp]
      exact Or.inr hm
    · rw [hother k (hmine p k hk hp)]
      exact hi.flow.back p k hk
  · intro p
    by_cases hp : p = senderOf m
    · have hanswers : State.answers { s with
          files := s.files.put cfd m, server := .closing fd cfd } p = 1 := by
        rw [answers_of (k := cfd) (by rw [hp, hcli]; rfl)]
        dsimp only
        rw [hself]
        apply if_neg
        intro h
        have hlen := hi.length_frame (m := m) (by simp [hheld])
        rw [h] at hlen
        cases hlen
      rw [hanswers, hp, hcli]
      exact congrArg (· + 1) hrest
    · have honce := hi.flow.once p
      have hcons : asked p (m :: frames) = asked p frames := by
        have hsender : ¬ senderOf m = p := fun h => hp h.symm
        simp [asked, hsender]
      rw [hheld, List.singleton_append, hcons] at honce
      have hanswers : State.answers { s with
          files := s.files.put cfd m, server := .closing fd cfd } p = s.answers p :=
        answers_congr rfl fun k hk => congrArg Fifo.bytes (hother k (hmine p k hk hp))
      rw [hanswers]
      exact honce

theorem Inv.srvClose (hi : Inv niters frames s) (hpc : s.server = .closing fd cfd) :
    Inv niters frames
      { s with files := s.files.close cfd .server, server := .reading fd } := by
  have hfd : s.server.fd = some fd := by rw [hpc]; rfl
  have hne := hi.linked.closing fd cfd hpc
  have hnot : .server ∉ (s.files.fifos cfd).readers := by
    intro h
    have hreads : s.server.fd = some cfd := hi.linked.reader cfd _ h
    rw [hfd] at hreads
    cases hreads
    exact hne rfl
  have herase : (s.files.fifos cfd).readers.erase .server = (s.files.fifos cfd).readers :=
    List.erase_of_not_mem hnot
  have hreaders : ∀ k,
      ((s.files.close cfd .server).fifos k).readers = (s.files.fifos k).readers := by
    intro k
    unfold Files.close
    by_cases hk : k = cfd
    · rw [hk, set_self]
      exact herase
    · rw [set_ne hk]
  have hbytes := close_bytes (k := cfd) (x := .server) fun h =>
    hi.linked.idle cfd (herase ▸ h)
  refine ⟨?_, ?_, hi.msg, hi.resp, hi.told⟩
  · refine hi.linked.server hi.linked.ok.close OthersKeep.close (fun _ => rfl) ?_ ?_ (by simp) ?_ ?_
      ?_ rfl (by simp) (by simp)
    · intro fd' h
      rw [hfd] at h
      exact h
    · intro fd' h
      cases h
      unfold Files.close
      rw [set_ne hne.symm]
      exact hi.linked.service fd hfd
    · intro k hk
      rw [hreaders] at hk
      exact hfd.symm.trans (hi.linked.reader k _ hk)
    · intro k
      rw [hreaders]
      exact hi.linked.nodup k
    · intro k hk
      rw [hreaders] at hk
      rw [hbytes]
      exact hi.linked.idle k hk
  · refine hi.flow.of (by rw [hpc]; rfl) ?_ (by simp [ServerPc.fd]) hbytes (fun _ => rfl)
      (fun _ => Or.inl rfl) (fun _ _ h => Or.inl ⟨h, rfl⟩) (fun _ _ h => Or.inl h)
    intro fd' hfd'
    cases hfd'
    exact (hbytes fd).trans (hi.flow.framed fd hfd)

end OsCourse.EchoFifo
