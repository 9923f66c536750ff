import OsCourse.EchoFifo.Links
import OsCourse.Lib.Transition

/-! Every request is in one place: in the pipe of the service, with the server, or as an answer in
the pipe of its client; so the messages stay whole and each client reads its own. -/
namespace OsCourse.EchoFifo
open Bytes Fifos Function Transition

def ClientPc.waits : ClientPc → Nat
  | .reading _ _ _ => 1
  | _ => 0

/-- The answers in the pipe of client `p`. -/
def State.answers (s : State) (p : Int32) : Nat :=
  match (s.client p).cfd with
  | some k => if (s.files.fifos k).bytes = [] then 0 else 1
  | none => 0

/-- The requests of client `p` among some messages. -/
def asked (p : Int32) (ms : List (List UInt8)) : Nat := ms.countP fun m => senderOf m = p

/-- `frames` are the requests in the pipe of the service. -/
structure Flow (s : State) (frames : List (List UInt8)) : Prop where
  framed : ∀ fd, s.server.fd = some fd → (s.files.fifos fd).bytes = frames.flatten
  before : s.server.fd = none → frames = []
  own : ∀ m ∈ s.server.held ++ frames, m = s.msg (senderOf m)
  back : ∀ p k, (s.client p).cfd = some k →
    (s.files.fifos k).bytes = [] ∨ (s.files.fifos k).bytes = s.msg p
  once : ∀ p, asked p (s.server.held ++ frames) + s.answers p = (s.client p).waits

/-- What client `p` has in its message and has printed, by the point where it is. -/
def Told (niters : Nat) (p : Int32) (msg : List UInt8) (printed : List (List UInt8)) :
    ClientPc → Prop
  | .start | .making _ | .creating _ | .failed => printed = []
  | .writing _ _ i => 1 ≤ i ∧ i ≤ niters ∧ senderOf msg = p ∧ printed = hellos p (i - 1)
  | .reading _ _ i => 1 ≤ i ∧ i ≤ niters ∧ senderOf msg = p ∧ text msg msgOffset = hello p i ∧
    printed = hellos p (i - 1)
  | .closing _ _ | .closingOwn _ | .unlinking | .done => printed = hellos p niters
  | .killed => False

structure Inv (niters : Nat) (frames : List (List UInt8)) (s : State) : Prop where
  linked : Linked s.files s.server s.client
  flow : Flow s frames
  msg : ∀ p, (s.msg p).length = msgSize
  resp : ∀ p, (s.resp p).length = msgSize
  told : ∀ p, Told niters p (s.msg p) (s.printed p) (s.client p)

variable {room : Nat → Nat → Bool} {niters : Nat} {s s' : State} {l : Proc}
  {frames : List (List UInt8)} {p : Int32} {fd cfd sfd k i : Nat} {m : List UInt8}
  {msgs : List (List UInt8)}

section Clients

theorem hellos_succ (p : Int32) (n : Nat) : hellos p (n + 1) = hellos p n ++ [hello p (n + 1)] := by
  simp [hellos, List.range_succ]

theorem hellos_pred (hi : 1 ≤ i) : hellos p i = hellos p (i - 1) ++ [hello p i] := by
  have h := hellos_succ p (i - 1)
  rw [Nat.sub_add_cancel hi] at h
  exact h

theorem loopHead_cfd (n sfd cfd i : Nat) : (loopHead n sfd cfd i).cfd = some cfd := by
  unfold loopHead
  split <;> rfl

theorem loopHead_sfd (n sfd cfd i : Nat) : (loopHead n sfd cfd i).sfd = some sfd := by
  unfold loopHead
  split <;> rfl

theorem loopHead_waits (n sfd cfd i : Nat) : (loopHead n sfd cfd i).waits = 0 := by
  unfold loopHead
  split <;> rfl

theorem loopHead_ne_creating (n sfd cfd i j : Nat) : loopHead n sfd cfd i ≠ .creating j := by
  unfold loopHead
  split <;> simp

theorem told_loopHead {printed : List (List UInt8)} (h1 : 1 ≤ i) (hi : i ≤ niters + 1)
    (hs : senderOf m = p) (hprinted : printed = hellos p (i - 1)) :
    Told niters p m printed (loopHead niters sfd cfd i) := by
  unfold loopHead
  split
  · exact ⟨h1, ‹_›, hs, hprinted⟩
  · have he : i - 1 = niters := by omega
    rw [he] at hprinted
    exact hprinted

theorem Inv.told_at {pc : ClientPc} (hi : Inv niters frames s) (hpc : s.client p = pc) :
    Told niters p (s.msg p) (s.printed p) pc := by
  rw [← hpc]
  exact hi.told p

theorem Inv.told_update {pc : ClientPc} {msg' : Int32 → List UInt8}
    {printed' : Int32 → List (List UInt8)} (hi : Inv niters frames s)
    (hothers : ∀ q, q ≠ p → msg' q = s.msg q ∧ printed' q = s.printed q)
    (h : Told niters p (msg' p) (printed' p) pc) (q : Int32) :
    Told niters q (msg' q) (printed' q) (update s.client p pc q) := by
  by_cases hq : q = p
  · subst hq
    rw [update_self]
    exact h
  · obtain ⟨hmsg, hprinted⟩ := hothers q hq
    rw [hmsg, hprinted, update_of_ne hq]
    exact hi.told q

theorem length_update {f : Int32 → List UInt8} {x : List UInt8}
    (hf : ∀ q, (f q).length = msgSize) (hx : x.length = msgSize) (q : Int32) :
    (update f p x q).length = msgSize := by
  by_cases hq : q = p
  · rw [hq, update_self, hx]
  · rw [update_of_ne hq]
    exact hf q

end Clients

section Requests

theorem answers_of (hk : (s.client p).cfd = some k) :
    s.answers p = if (s.files.fifos k).bytes = [] then 0 else 1 := by
  unfold State.answers
  rw [hk]

theorem answers_zero (h : ∀ k, (s.client p).cfd = some k → (s.files.fifos k).bytes = []) :
    s.answers p = 0 := by
  unfold State.answers
  split
  · rename_i k hk
    exact if_pos (h k hk)
  · rfl

theorem answers_congr (hcfd : (s'.client p).cfd = (s.client p).cfd)
    (h : ∀ k, (s.client p).cfd = some k → (s'.files.fifos k).bytes = (s.files.fifos k).bytes) :
    s'.answers p = s.answers p := by
  unfold State.answers
  rw [hcfd]
  split
  · rename_i k hk
    rw [h k hk]
  · rfl

theorem asked_pos (hm : m ∈ msgs) : 0 < asked (senderOf m) msgs := by
  unfold asked
  rw [List.countP_pos_iff]
  exact ⟨m, hm, by simp⟩

/-- Who has a request on the way waits for the answer, and has none yet. -/
theorem Inv.asker (hi : Inv niters frames s) (hm : m ∈ s.server.held ++ frames) :
    ∃ sfd cfd i, s.client (senderOf m) = .reading sfd cfd i ∧ m = s.msg (senderOf m) ∧
      (s.files.fifos cfd).bytes = [] ∧ asked (senderOf m) (s.server.held ++ frames) = 1 := by
  have hpos := asked_pos hm
  have honce := hi.flow.once (senderOf m)
  cases hpc : s.client (senderOf m) with
  | reading sfd cfd i =>
    simp only [hpc, ClientPc.waits] at honce
    have hanswers : s.answers (senderOf m) = 0 := by omega
    rw [answers_of (k := cfd) (by rw [hpc]; rfl)] at hanswers
    exact ⟨sfd, cfd, i, rfl, hi.flow.own m hm, by simpa using hanswers, by omega⟩
  | _ =>
    simp only [hpc, ClientPc.waits] at honce
    omega

theorem Inv.length_frame (hi : Inv niters frames s) (hm : m ∈ s.server.held ++ frames) :
    m.length = msgSize := by
  rw [hi.flow.own m hm]
  exact hi.msg _

theorem Inv.not_asked (hi : Inv niters frames s) (hp : (s.client p).waits = 0) :
    asked p (s.server.held ++ frames) = 0 ∧ s.answers p = 0 := by
  have honce := hi.flow.once p
  omega

theorem Inv.bytes_nil (hi : Inv niters frames s) (hp : (s.client p).waits = 0)
    (hk : (s.client p).cfd = some k) : (s.files.fifos k).bytes = [] := by
  have hanswers := (hi.not_asked hp).2
  rw [answers_of hk] at hanswers
  simpa using hanswers

theorem Flow.of (h : Flow s frames) (hheld : s'.server.held = s.server.held)
    (hframed : ∀ fd, s'.server.fd = some fd → (s'.files.fifos fd).bytes = frames.flatten)
    (hbefore : s'.server.fd = none → frames = [])
    (hbytes : ∀ k, (s'.files.fifos k).bytes = (s.files.fifos k).bytes)
    (hwaits : ∀ p, (s'.client p).waits = (s.client p).waits)
    (hmsg : ∀ p, s'.msg p = s.msg p ∨ (s.client p).waits = 0)
    (hnew : ∀ p k, (s'.client p).cfd = some k →
      ((s.client p).cfd = some k ∧ s'.msg p = s.msg p) ∨ (s.files.fifos k).bytes = [])
    (hold : ∀ p k, (s.client p).cfd = some k →
      (s'.client p).cfd = some k ∨ (s.files.fifos k).bytes = []) : Flow s' frames := by
  have hanswers : ∀ p, s'.answers p = s.answers p := by
    intro p
    by_cases hnil : ∀ k, (s.client p).cfd = some k → (s.files.fifos k).bytes = []
    · rw [answers_zero hnil]
      apply answers_zero
      intro k hk
      rw [hbytes]
      obtain ⟨hcfd, _⟩ | hempty := hnew p k hk
      · exact hnil k hcfd
      · exact hempty
    · push Not at hnil
      obtain ⟨k, hk, hne⟩ := hnil
      rw [answers_of hk, answers_of ((hold p k hk).resolve_right hne), hbytes]
  refine ⟨hframed, hbefore, ?_, ?_, ?_⟩
  · intro m hm
    rw [hheld] at hm
    have hmine := h.own m hm
    obtain hsame | hquiet := hmsg (senderOf m)
    · rw [hsame]
      exact hmine
    · have honce := h.once (senderOf m)
      have hpos := asked_pos hm
      omega
  · intro p k hk
    rw [hbytes]
    obtain ⟨hcfd, hsame⟩ | hnil := hnew p k hk
    · rw [hsame]
      exact h.back p k hcfd
    · exact Or.inl hnil
  · intro p
    rw [hheld, hanswers, hwaits]
    exact h.once p

end Requests

end OsCourse.EchoFifo
