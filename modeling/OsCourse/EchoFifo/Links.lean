import OsCourse.EchoFifo.Messages

/-! Which pipes have a name, and who has them open, in every run: what the server and a client
have open is what the names lead to. -/
namespace OsCourse.EchoFifo
open Fifos Function

def ServerPc.fd : ServerPc → Option Nat
  | .reading fd | .opening fd _ | .writing fd _ _ | .closing fd _ | .failing fd => some fd
  | _ => none

def ServerPc.held : ServerPc → List (List UInt8)
  | .opening _ msg | .writing _ msg _ => [msg]
  | _ => []

def ServerPc.runs : ServerPc → Bool
  | .failing _ | .done | .failed | .killed => false
  | _ => true

def ClientPc.sfd : ClientPc → Option Nat
  | .making sfd | .creating sfd | .writing sfd _ _ | .reading sfd _ _ | .closing sfd _ => some sfd
  | _ => none

def ClientPc.cfd : ClientPc → Option Nat
  | .writing _ cfd _ | .reading _ cfd _ | .closing _ cfd | .closingOwn cfd => some cfd
  | _ => none

def Proc.reads (srv : ServerPc) (cli : Int32 → ClientPc) : Proc → Option Nat
  | .server => srv.fd
  | .client p => (cli p).cfd

structure Linked (f : Files Proc) (srv : ServerPc) (cli : Int32 → ClientPc) : Prop where
  ok : f.Ok
  service : ∀ fd, srv.fd = some fd → f.names echoServiceName = some fd ∧
    .server ∈ (f.fifos fd).readers ∧ .server ∈ (f.fifos fd).writers
  own : ∀ p k, (cli p).cfd = some k → f.names (clientName p) = some k ∧
    .client p ∈ (f.fifos k).readers ∧ .client p ∈ (f.fifos k).writers
  sfd : ∀ p fd, (cli p).sfd = some fd → srv.fd = some fd
  created : srv = .creating → ∃ fd, f.names echoServiceName = some fd
  made : ∀ p sfd, cli p = .creating sfd → ∃ k, f.names (clientName p) = some k
  reader : ∀ k x, x ∈ (f.fifos k).readers → x.reads srv cli = some k
  nodup : ∀ k, (f.fifos k).readers.Nodup
  idle : ∀ k, (f.fifos k).readers = [] → (f.fifos k).bytes = []
  runs : srv.runs = true
  answering : ∀ fd msg k, srv = .writing fd msg k → f.names (clientName (senderOf msg)) = some k
  closing : ∀ fd k, srv = .closing fd k → k ≠ fd

variable {f f' : Files Proc} {srv srv' : ServerPc} {cli : Int32 → ClientPc} {p : Int32}
  {pc : ClientPc} {fd k : Nat} {c : Fifo Proc}

section Facts

theorem Linked.service_lt (h : Linked f srv cli) (hfd : srv.fd = some fd) : fd < f.count :=
  h.ok.lt _ _ (h.service fd hfd).1

theorem Linked.own_lt (h : Linked f srv cli) (hk : (cli p).cfd = some k) : k < f.count :=
  h.ok.lt _ _ (h.own p k hk).1

theorem Linked.ne_service (h : Linked f srv cli) (hfd : srv.fd = some fd)
    (hk : f.names (clientName p) = some k) : k ≠ fd := by
  intro he
  have hname := (h.service fd hfd).1
  rw [← he] at hname
  exact clientName_ne_service p (h.ok.inj _ _ k hk hname)

theorem Linked.ne_own (h : Linked f srv cli) {q : Int32} {j : Nat} (hpq : q ≠ p)
    (hj : f.names (clientName q) = some j) (hk : f.names (clientName p) = some k) : j ≠ k := by
  intro he
  rw [he] at hj
  exact hpq (clientName_inj (h.ok.inj _ _ k hj hk))

theorem Linked.server_of_reader (h : Linked f srv cli) (hname : f.names echoServiceName = some k)
    (hr : (f.fifos k).readers ≠ []) : srv.fd = some k := by
  obtain ⟨x, hx⟩ := List.exists_mem_of_ne_nil _ hr
  have hreads := h.reader k x hx
  cases x with
  | server => exact hreads
  | client p =>
    have hown := (h.own p k hreads).1
    exact absurd (h.ok.inj _ _ k hown hname) (clientName_ne_service p)

end Facts

section Moves

theorem Linked.server (h : Linked f srv cli) (hok : f'.Ok) (hothers : OthersKeep .server f f')
    (hclient : ∀ p, f'.names (clientName p) = f.names (clientName p))
    (hkeep : ∀ fd, srv.fd = some fd → srv'.fd = some fd)
    (hservice : ∀ fd, srv'.fd = some fd → f'.names echoServiceName = some fd ∧
      .server ∈ (f'.fifos fd).readers ∧ .server ∈ (f'.fifos fd).writers)
    (hcreated : srv' = .creating → ∃ fd, f'.names echoServiceName = some fd)
    (hreader : ∀ k, .server ∈ (f'.fifos k).readers → srv'.fd = some k)
    (hnodup : ∀ k, (f'.fifos k).readers.Nodup)
    (hidle : ∀ k, (f'.fifos k).readers = [] → (f'.fifos k).bytes = []) (hruns : srv'.runs = true)
    (hanswering : ∀ fd msg k, srv' = .writing fd msg k →
      f'.names (clientName (senderOf msg)) = some k)
    (hclosing : ∀ fd k, srv' = .closing fd k → k ≠ fd) : Linked f' srv' cli := by
  refine ⟨hok, hservice, ?_, ?_, hcreated, ?_, ?_, hnodup, hidle, hruns, hanswering, hclosing⟩
  · intro p k hk
    obtain ⟨hname, hr, hw⟩ := h.own p k hk
    exact ⟨(hclient p).trans hname, (hothers.readers k _ (by simp)).mpr hr,
      (hothers.writers k _ (by simp)).mpr hw⟩
  · intro p fd hfd
    exact hkeep fd (h.sfd p fd hfd)
  · intro p sfd hpc
    obtain ⟨k, hk⟩ := h.made p sfd hpc
    exact ⟨k, (hclient p).trans hk⟩
  · intro k x hx
    cases x with
    | server => exact hreader k hx
    | client p => exact h.reader k _ ((hothers.readers k _ (by simp)).mp hx)

theorem Linked.server_set (h : Linked f srv cli) (hfd : srv.fd = some fd)
    (hfd' : srv'.fd = some fd) (hk : k < f.count) (hr : c.readers = (f.fifos k).readers)
    (hw : ∀ y, y ≠ .server → (y ∈ c.writers ↔ y ∈ (f.fifos k).writers))
    (hself : k = fd → .server ∈ c.writers) (hidle : c.readers = [] → c.bytes = [])
    (hruns : srv'.runs = true)
    (hanswering : ∀ fd msg k, srv' = .writing fd msg k →
      f.names (clientName (senderOf msg)) = some k)
    (hclosing : ∀ fd k, srv' = .closing fd k → k ≠ fd) : Linked (f.set k c) srv' cli := by
  have hreaders := set_readers hr
  refine h.server (h.ok.set hk) (OthersKeep.set (fun y _ => by rw [hr]) hw) (fun _ => rfl) ?_ ?_ ?_
    ?_ ?_ ?_ hruns hanswering hclosing
  · intro fd' h'
    rw [hfd', ← hfd, h']
  · intro fd' h'
    rw [hfd'] at h'
    cases h'
    obtain ⟨hname, hread, hwrite⟩ := h.service fd hfd
    refine ⟨hname, by rw [hreaders]; exact hread, ?_⟩
    by_cases hj : fd = k
    · rw [hj, set_self]
      exact hself hj.symm
    · rw [set_ne hj]
      exact hwrite
  · intro hpc
    rw [hpc] at hfd'
    cases hfd'
  · intro j hj
    rw [hreaders] at hj
    exact hfd'.trans (hfd.symm.trans (h.reader j _ hj))
  · intro j
    rw [hreaders]
    exact h.nodup j
  · intro j hj
    by_cases hjk : j = k
    · rw [hjk, set_self] at hj ⊢
      exact hidle hj
    · rw [set_ne hjk] at hj ⊢
      exact h.idle j hj

theorem Linked.client (h : Linked f srv cli) (hok : f'.Ok) (hothers : OthersKeep (.client p) f f')
    (hservice : f'.names echoServiceName = f.names echoServiceName)
    (hnames : ∀ q, q ≠ p → f'.names (clientName q) = f.names (clientName q))
    (hheld : ∀ fd msg k, srv = .writing fd msg k → senderOf msg = p →
      f'.names (clientName p) = f.names (clientName p))
    (hown : ∀ k, pc.cfd = some k → f'.names (clientName p) = some k ∧
      .client p ∈ (f'.fifos k).readers ∧ .client p ∈ (f'.fifos k).writers)
    (hsfd : ∀ fd, pc.sfd = some fd → srv.fd = some fd)
    (hmade : ∀ sfd, pc = .creating sfd → ∃ k, f'.names (clientName p) = some k)
    (hreader : ∀ k, .client p ∈ (f'.fifos k).readers → pc.cfd = some k)
    (hnodup : ∀ k, (f'.fifos k).readers.Nodup)
    (hidle : ∀ k, (f'.fifos k).readers = [] → (f'.fifos k).bytes = []) :
    Linked f' srv (update cli p pc) := by
  refine ⟨hok, ?_, ?_, ?_, ?_, ?_, ?_, hnodup, hidle, h.runs, ?_, h.closing⟩
  · intro fd hfd
    obtain ⟨hname, hr, hw⟩ := h.service fd hfd
    exact ⟨hservice.trans hname, (hothers.readers fd _ (by simp)).mpr hr,
      (hothers.writers fd _ (by simp)).mpr hw⟩
  · intro q k hk
    by_cases hq : q = p
    · subst hq
      rw [update_self] at hk
      exact hown k hk
    · rw [update_of_ne hq] at hk
      obtain ⟨hname, hr, hw⟩ := h.own q k hk
      exact ⟨(hnames q hq).trans hname, (hothers.readers k _ (by simpa using hq)).mpr hr,
        (hothers.writers k _ (by simpa using hq)).mpr hw⟩
  · intro q fd hfd
    by_cases hq : q = p
    · rw [hq, update_self] at hfd
      exact hsfd fd hfd
    · rw [update_of_ne hq] at hfd
      exact h.sfd q fd hfd
  · intro hpc
    obtain ⟨fd, hfd⟩ := h.created hpc
    exact ⟨fd, hservice.trans hfd⟩
  · intro q sfd hpc
    by_cases hq : q = p
    · subst hq
      rw [update_self] at hpc
      exact hmade sfd hpc
    · rw [update_of_ne hq] at hpc
      obtain ⟨k, hk⟩ := h.made q sfd hpc
      exact ⟨k, (hnames q hq).trans hk⟩
  · intro k x hx
    cases x with
    | server => exact h.reader k _ ((hothers.readers k _ (by simp)).mp hx)
    | client q =>
      change (update cli p pc q).cfd = some k
      by_cases hq : q = p
      · subst hq
        rw [update_self]
        exact hreader k hx
      · rw [update_of_ne hq]
        exact h.reader k _ ((hothers.readers k _ (by simpa using hq)).mp hx)
  · intro fd msg k hpc
    by_cases hp : senderOf msg = p
    · have hname := h.answering fd msg k hpc
      rw [hp] at hname ⊢
      exact (hheld fd msg k hpc hp).trans hname
    · exact (hnames _ hp).trans (h.answering fd msg k hpc)

theorem Linked.client_set (h : Linked f srv cli) (hk : k < f.count)
    (hr : c.readers = (f.fifos k).readers)
    (hw : ∀ y, y ≠ .client p → (y ∈ c.writers ↔ y ∈ (f.fifos k).writers))
    (hcfd : pc.cfd = (cli p).cfd) (hself : (cli p).cfd = some k → .client p ∈ c.writers)
    (hsfd : ∀ fd, pc.sfd = some fd → srv.fd = some fd) (hmade : ∀ sfd, pc ≠ .creating sfd)
    (hidle : c.readers = [] → c.bytes = []) :
    Linked (f.set k c) srv (update cli p pc) := by
  have hreaders := set_readers hr
  refine h.client (h.ok.set hk) (OthersKeep.set (fun y _ => by rw [hr]) hw) rfl (fun _ _ => rfl)
    (fun _ _ _ _ _ => rfl) ?_ hsfd ?_ ?_ ?_ ?_
  · intro j hj
    rw [hcfd] at hj
    obtain ⟨hname, hread, hwrite⟩ := h.own p j hj
    refine ⟨hname, by rw [hreaders]; exact hread, ?_⟩
    by_cases hjk : j = k
    · rw [hjk, set_self]
      exact hself (hjk ▸ hj)
    · rw [set_ne hjk]
      exact hwrite
  · intro sfd hpc
    exact absurd hpc (hmade sfd)
  · intro j hj
    rw [hreaders] at hj
    rw [hcfd]
    exact h.reader j _ hj
  · intro j
    rw [hreaders]
    exact h.nodup j
  · intro j hj
    by_cases hjk : j = k
    · rw [hjk, set_self] at hj ⊢
      exact hidle hj
    · rw [set_ne hjk] at hj ⊢
      exact h.idle j hj

end Moves

end OsCourse.EchoFifo
