import OsCourse.Lib.Transition
import OsCourse.Uv.Model

/-! The client that a work item points to. `echo_read` closes it at the end of the stream,
whatever is still queued for it, and `on_close` frees it. -/
namespace OsCourse.Uv
open Function Transition
variable {s s' : State} {l : Label} {p : Nat} {wreq : EchoWork}

/-- The `uv_write` of a `send_resp`, if this is one, is on the handle of the client that the
request came from, which has not been closed. -/
def UsesOpen (s : State) : Label → Prop
  | .sendResp i => ∀ wreq, s.work[i]? = some wreq →
      s.heap wreq.client = some ⟨wreq.buf.conn, false⟩
  | .onNewConnection _ | .onNewConnectionError | .echoRead _ _ | .echoReadEnd _ | .onClose _ =>
    True

/-- No callback that can come writes to a closed or freed client. -/
def Safe (s : State) : Prop := ∀ l t, Step s l t → UsesOpen s l

/-- A client is closed when no work item of it is queued. -/
def Quiet (s : State) : Label → Prop
  | .echoReadEnd p => ∀ wreq ∈ s.work, wreq.client ≠ p
  | .onNewConnection _ | .onNewConnectionError | .echoRead _ _ | .sendResp _ | .onClose _ => True

def Linked (s : State) : Prop :=
  ∀ wreq ∈ s.work, s.heap wreq.client = some ⟨wreq.buf.conn, false⟩

theorem Linked.safe (h : Linked s) : Safe s := by
  intro l t hstep
  cases hstep with
  | accept | acceptFails | connectionError | read | readNothing | readEnd | onClose => trivial
  | sendResp =>
    intro wreq hget
    exact h wreq (List.mem_of_getElem? hget)

theorem Linked.update (h : Linked s) {client : Option Client}
    (hp : ∀ wreq ∈ s.work, wreq.client ≠ p) {conns : Nat} :
    Linked { s with heap := update s.heap p client, conns := conns } := by
  intro wreq hw
  dsimp only
  rw [update_of_ne (hp wreq hw)]
  exact h wreq hw

theorem Linked.unlinked (h : Linked s) (hp : ∀ k, s.heap p ≠ some ⟨k, false⟩) :
    ∀ wreq ∈ s.work, wreq.client ≠ p := by
  rintro wreq hw rfl
  exact hp _ (h wreq hw)

theorem Step.linked (h : Step s l s') (hq : Quiet s l) (hl : Linked s) : Linked s' := by
  cases h with
  | accept hfree | acceptFails hfree =>
    apply hl.update
    apply hl.unlinked
    rw [hfree]
    exact nofun
  | connectionError | readNothing => exact hl
  | @read p _ c hp hopen _ =>
    intro wreq hw
    cases List.mem_append.mp hw with
    | inl hold => exact hl wreq hold
    | inr hnew =>
      rw [List.mem_singleton] at hnew
      subst hnew
      dsimp only
      rw [hp, ← hopen]
  | readEnd => exact hl.update hq
  | @sendResp before after wreq hwork =>
    intro w hw
    apply hl w
    exact mem_work hwork hw
  | onClose hp hclosed =>
    apply hl.update
    apply hl.unlinked
    intro k hk
    rw [hp] at hk
    cases hk
    cases hclosed

/-- After a client with a work item was closed, the callback of this item can come. -/
theorem quiet_of_safe (h : Step s l s') (hsafe : Safe s') : Quiet s l := by
  cases h with
  | accept | acceptFails | connectionError | read | readNothing | sendResp | onClose => trivial
  | readEnd hp hopen =>
    rintro wreq hw rfl
    obtain ⟨before, after, hwork⟩ := List.append_of_mem hw
    have huse := hsafe _ _ (Step.sendResp hwork) wreq (getElem?_work hwork)
    dsimp only at huse
    rw [update_self] at huse
    cases congrArg (Option.map Client.closed) huse

/-- The runs in which a client is closed only when no work item of it is queued are those in
which `send_resp` writes to open clients only, and which reach no state where it could do
otherwise. -/
theorem closed_unused_iff (ls : List Label) (s : State) :
    Runs (fun a l b => Step a l b ∧ Quiet a l) init ls s ↔
      Runs (fun a l b => (Step a l b ∧ UsesOpen a l) ∧ Safe b) init ls s := by
  apply Runs.iff_of (P := Linked) (Q := fun _ => True)
  · exact nofun
  · trivial
  · rintro a l b hl ⟨hstep, hq⟩
    have hl' := hstep.linked hq hl
    exact ⟨⟨⟨hstep, hl.safe _ _ hstep⟩, hl'.safe⟩, hl'⟩
  · rintro a l b _ ⟨⟨hstep, _⟩, hsafe⟩
    exact ⟨⟨hstep, quiet_of_safe hstep hsafe⟩, trivial⟩

/-- A client sends a byte and closes its side. Its end of stream is seen, and its handle is
freed, before the answer to the byte is written. -/
theorem write_after_free : ¬∀ (ls : List Label) (s : State), Runs Step init ls s → Safe s := by
  intro hall
  have haccept := Runs.single (s := init) (l := Label.onNewConnection 0) (Step.accept rfl)
  have hread := haccept.snoc (l := Label.echoRead 0 1) (Step.read rfl rfl Nat.one_pos)
  have hend := hread.snoc (l := Label.echoReadEnd 0) (Step.readEnd rfl rfl)
  have hfreed := hend.snoc (l := Label.onClose 0) (Step.onClose rfl rfl)
  have huse := hall _ _ hfreed (.sendResp 0) _ (@Step.sendResp _ [] [] ⟨0, ⟨0, 0, 1⟩⟩ rfl) _ rfl
  cases huse

end OsCourse.Uv
