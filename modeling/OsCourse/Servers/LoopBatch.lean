import OsCourse.Lib.Transition
import OsCourse.Servers.Loop

/-! The callback loop under any callbacks that keep to loop.h. `process` takes the handles of
a batch of events from the epoll set at the time of the `epoll_wait`, and a callback may close
some of them meanwhile. -/
namespace OsCourse.Servers.Loop
open Function Transition
variable {Cb : Type*}

inductive Pc where
  /-- in `main` before `ah_loop`, or in a callback -/
  | user
  | process
  /-- about to call `epoll_wait` -/
  | wait
  | exited
  deriving DecidableEq

/-- `batch` is what `process` has left of the events. -/
structure State (Cb : Type*) where
  loop : AsyncLoop Cb
  batch : List Event
  pc : Pc

def init : State Cb := ⟨ahInit, [], .user⟩

inductive Label (Cb : Type*) where
  | registFd (ah fd : Nat) (added : Bool)
  | async (ah : Nat) (cb : Cb) (ctx : Nat)
  | getfd (ah : Nat)
  | close (ah : Nat)
  /-- the callback returns, or `main` calls `ah_loop` -/
  | back
  | next
  | batchDone
  | wait (batch : List Event)
  | leave

/-- Callbacks use handles that they have not closed. -/
inductive Step : State Cb → Label Cb → State Cb → Prop
  | registFd {s : State Cb} {ah fd : Nat} {added : Bool} : s.pc = .user →
      s.loop.heap ah = none → (added = true → fd ∉ s.loop.epoll.map Entry.fd) →
      Step s (.registFd ah fd added) { s with loop := ahRegistFd s.loop ah fd added }
  | async {s : State Cb} {ah : Nat} {h : AsyncHandle Cb} {cb : Cb} {ctx : Nat} : s.pc = .user →
      s.loop.heap ah = some h →
      Step s (.async ah cb ctx) { s with loop := ahDoAsync s.loop ah cb ctx }
  | getfd {s : State Cb} {ah fd : Nat} : s.pc = .user → ahGetfd s.loop ah = some fd →
      Step s (.getfd ah) s
  | close {s : State Cb} {ah : Nat} {h : AsyncHandle Cb} : s.pc = .user →
      s.loop.heap ah = some h → Step s (.close ah) { s with loop := ahClose s.loop ah }
  | back {s : State Cb} : s.pc = .user → Step s .back { s with pc := .process }
  | skip {s : State Cb} {evd : Event} {rest : List Event} : s.pc = .process →
      s.batch = evd :: rest → ¬evd.Ready → Step s .next { s with batch := rest }
  /-- `ah->cb` is read, and is NULL. -/
  | idle {s : State Cb} {evd : Event} {rest : List Event} {h : AsyncHandle Cb} :
      s.pc = .process → s.batch = evd :: rest → evd.Ready →
      s.loop.heap evd.entry.ptr = some h → h.cb = none → Step s .next { s with batch := rest }
  /-- `ah->cb(ah, ah->ctx)` -/
  | call {s : State Cb} {evd : Event} {rest : List Event} {h : AsyncHandle Cb} {cb : Cb} :
      s.pc = .process → s.batch = evd :: rest → evd.Ready →
      s.loop.heap evd.entry.ptr = some h → h.cb = some cb →
      Step s .next { s with batch := rest, pc := .user }
  | batchDone {s : State Cb} : s.pc = .process → s.batch = [] →
      Step s .batchDone { s with pc := .wait }
  | wait {s : State Cb} {batch : List Event} : s.pc = .wait → s.loop.nclients > 0 →
      Batch s.loop batch → Step s (.wait batch) { s with batch := batch, pc := .process }
  | leave {s : State Cb} : s.pc = .wait → s.loop.nclients = 0 →
      Step s .leave { s with pc := .exited }

variable {s s' t : State Cb} {l : Label Cb} {evd : Event} {e : Entry}

section Uses

/-- The handle that an entry points to is the one that was registered, not freed. -/
def Live (loop : AsyncLoop Cb) (e : Entry) : Prop :=
  ∃ h, loop.heap e.ptr = some h ∧ h.id = e.id

/-- The handle that `process` is about to read, if there is one, has not been freed. -/
def ReadsLive (s : State Cb) : Prop :=
  s.pc = .process → ∀ evd rest, s.batch = evd :: rest → evd.Ready → Live s.loop evd.entry

/-- The loop goes on with the batch, and callbacks do nothing more. -/
def Label.Passes : Label Cb → Prop
  | .back | .next => True
  | .registFd _ _ _ | .async _ _ _ | .getfd _ | .close _ | .batchDone | .wait _ | .leave => False

/-- No handle that `process` reads in the rest of the batch has been freed, if nothing else
happens. -/
def Safe (s : State Cb) : Prop :=
  ∀ ms t, (∀ m ∈ ms, Label.Passes m) → Runs Step s ms t → ReadsLive t

/-- A handle is closed when no event of it is left in the batch. -/
def Orderly (s : State Cb) : Label Cb → Prop
  | .close ah => ∀ evd ∈ s.batch, evd.Ready → evd.entry.ptr ≠ ah
  | .registFd _ _ _ | .async _ _ _ | .getfd _ | .back | .next | .batchDone | .wait _ | .leave =>
    True

end Uses

section Linked

/-- The entries of the epoll set, and the events left, point to handles that are not freed. -/
structure Linked (s : State Cb) : Prop where
  entries : ∀ e ∈ s.loop.epoll, ∃ h, s.loop.heap e.ptr = some h ∧ h.id = e.id ∧ h.fd = e.fd
  events : ∀ evd ∈ s.batch, evd.Ready → Live s.loop evd.entry

theorem Linked.pass (h : Linked s) {batch : List Event} (pc : Pc) (hsub : batch ⊆ s.batch) :
    Linked { s with batch := batch, pc := pc } :=
  ⟨h.entries, fun evd hevd => h.events evd (hsub hevd)⟩

theorem Linked.registFd (h : Linked s) {ah fd : Nat} {added : Bool}
    (hfree : s.loop.heap ah = none) :
    Linked { s with loop := ahRegistFd s.loop ah fd added } where
  entries := by
    intro e he
    dsimp only at he ⊢
    cases mem_ahRegistFd he with
    | inl hold =>
      obtain ⟨a, ha, hid, hfd⟩ := h.entries e hold
      exact ⟨a, ahRegistFd_heap_some hfree ha, hid, hfd⟩
    | inr hnew =>
      rw [hnew, ahRegistFd_heap]
      exact ⟨_, update_self _ _ _, rfl, rfl⟩
  events := by
    intro evd hevd hr
    obtain ⟨a, ha, hid⟩ := h.events evd hevd hr
    exact ⟨a, ahRegistFd_heap_some hfree ha, hid⟩

theorem ahDoAsync_heap {loop : AsyncLoop Cb} (ah : Nat) (cb : Cb) (ctx : Nat) {p : Nat}
    {a : AsyncHandle Cb} (ha : loop.heap p = some a) :
    ∃ b, (ahDoAsync loop ah cb ctx).heap p = some b ∧ b.id = a.id ∧ b.fd = a.fd := by
  by_cases hp : p = ah
  · rw [hp] at ha ⊢
    exact ⟨_, ahDoAsync_heap_self ha, rfl, rfl⟩
  · rw [ahDoAsync_heap_ne hp]
    exact ⟨a, ha, rfl, rfl⟩

theorem Linked.async (h : Linked s) {ah : Nat} {cb : Cb} {ctx : Nat} :
    Linked { s with loop := ahDoAsync s.loop ah cb ctx } where
  entries := by
    intro e he
    obtain ⟨a, ha, hid, hfd⟩ := h.entries e he
    obtain ⟨b, hb, hbid, hbfd⟩ := ahDoAsync_heap ah cb ctx ha
    exact ⟨b, hb, hbid.trans hid, hbfd.trans hfd⟩
  events := by
    intro evd hevd hr
    obtain ⟨a, ha, hid⟩ := h.events evd hevd hr
    obtain ⟨b, hb, hbid, _⟩ := ahDoAsync_heap ah cb ctx ha
    exact ⟨b, hb, hbid.trans hid⟩

theorem Linked.close (h : Linked s) {ah : Nat} {a : AsyncHandle Cb}
    (ha : s.loop.heap ah = some a) (ho : ∀ evd ∈ s.batch, evd.Ready → evd.entry.ptr ≠ ah) :
    Linked { s with loop := ahClose s.loop ah } where
  entries := by
    intro e he
    dsimp only at he ⊢
    rw [ahClose_epoll ha, mem_remClient] at he
    obtain ⟨b, hb, hid, hfd⟩ := h.entries e he.1
    have hne : e.ptr ≠ ah := by
      rintro rfl
      cases ha.symm.trans hb
      exact he.2 hfd.symm
    rw [ahClose_heap ha, update_of_ne hne]
    exact ⟨b, hb, hid, hfd⟩
  events := by
    intro evd hevd hr
    obtain ⟨b, hb, hid⟩ := h.events evd hevd hr
    refine ⟨b, ?_, hid⟩
    dsimp only
    rw [ahClose_heap ha, update_of_ne (ho evd hevd hr)]
    exact hb

theorem Step.linked (h : Step s l s') (ho : Orderly s l) (hl : Linked s) : Linked s' := by
  cases h with
  | registFd _ hfree => exact hl.registFd hfree
  | async => exact hl.async
  | getfd => exact hl
  | close _ ha => exact hl.close ha ho
  | back => exact hl.pass .process (List.Subset.refl _)
  | skip _ hbatch | idle _ hbatch | call _ hbatch =>
    apply hl.pass
    rw [hbatch]
    exact List.subset_cons_self _ _
  | batchDone => exact hl.pass .wait (List.Subset.refl _)
  | wait _ _ hbatch =>
    refine ⟨hl.entries, ?_⟩
    intro evd hevd _
    obtain ⟨a, ha, hid, _⟩ := hl.entries evd.entry (hbatch.mem evd hevd)
    exact ⟨a, ha, hid⟩
  | leave => exact hl.pass .exited (List.Subset.refl _)

theorem Linked.readsLive (h : Linked s) : ReadsLive s := by
  intro _ evd rest hbatch
  apply h.events
  rw [hbatch]
  exact List.mem_cons_self

theorem orderly_of_passes (h : l.Passes) : Orderly s l := by
  cases l with
  | back | next => trivial
  | registFd | async | getfd | close | batchDone | wait | leave => cases h

theorem Linked.safe (h : Linked s) : Safe s := by
  intro ms t hms hrun
  have ht : Linked t := hrun.invariant_of hms h fun _ _ _ hpass hl hab =>
    hab.linked (orderly_of_passes hpass) hl
  exact ht.readsLive

end Linked

section Freed

/-- An event of a freed handle is got to, if none of another is before. -/
theorem freed_is_read (batch : List Event) : ∀ s : State Cb, s.batch = batch → s.pc = .process →
    (∃ evd ∈ batch, evd.Ready ∧ ¬Live s.loop evd.entry) → ¬Safe s := by
  induction batch with
  | nil =>
    rintro s _ _ ⟨evd, hevd, _⟩
    cases hevd
  | cons first rest ih =>
    rintro s hbatch hpc ⟨evd, hevd, hready, hfreed⟩ hsafe
    have hnow := hsafe [] s nofun (Runs.nil s) hpc first rest hbatch
    -- a step past the first event keeps the heap, and the run goes on from there
    have hpast : ∀ ms u, (∀ m ∈ ms, Label.Passes m) → Runs Step s ms u → u.batch = rest →
        u.pc = .process → u.loop = s.loop → evd ∈ rest → False := by
      intro ms u hms hrun hub hupc hloop hrest
      refine ih u hub hupc ⟨evd, hrest, hready, by rwa [hloop]⟩ ?_
      intro ns t hns hrun'
      exact hsafe (ms ++ ns) t (List.forall_mem_append.mpr ⟨hms, hns⟩) (hrun.append hrun')
    by_cases hr : first.Ready
    · obtain ⟨h, hh, hid⟩ := hnow hr
      cases List.mem_cons.mp hevd with
      | inl hself =>
        rw [hself] at hfreed
        exact hfreed ⟨h, hh, hid⟩
      | inr hrest =>
        cases hcb : h.cb with
        | none =>
          refine hpast [.next] _ ?_ (Runs.single (Step.idle hpc hbatch hr hh hcb)) rfl hpc rfl hrest
          simp [Label.Passes]
        | some cb =>
          have hcall := Runs.single (Step.call hpc hbatch hr hh hcb)
          refine hpast [.next, .back] _ ?_ (hcall.snoc (Step.back rfl)) rfl rfl rfl hrest
          simp [Label.Passes]
    · cases List.mem_cons.mp hevd with
      | inl hself =>
        rw [hself] at hready
        exact hr hready
      | inr hrest =>
        refine hpast [.next] _ ?_ (Runs.single (Step.skip hpc hbatch hr)) rfl hpc rfl hrest
        simp [Label.Passes]

theorem orderly_of_safe (h : Step s l s') (hsafe : Safe s') : Orderly s l := by
  cases h with
  | registFd | async | getfd | back | skip | idle | call | batchDone | wait | leave => trivial
  | @close ah a hpc ha =>
    intro evd hevd hready hptr
    have hback := Runs.single (l := Label.back)
      (Step.back (s := { s with loop := ahClose s.loop ah }) hpc)
    refine freed_is_read s.batch { s with loop := ahClose s.loop ah, pc := .process } rfl rfl
      ⟨evd, hevd, hready, ?_⟩ ?_
    · rintro ⟨b, hb, _⟩
      dsimp only at hb
      rw [ahClose_heap ha, hptr, update_self] at hb
      cases hb
    · intro ms t hms hrun
      exact hsafe (.back :: ms) t (List.forall_mem_cons.mpr ⟨trivial, hms⟩) (hback.append hrun)

end Freed

section Runs

/-- The runs in which handles are closed only when no event of theirs is left in the batch are
those in which, in every state, `process` is not about to read a freed handle, and does not
come to read one if nothing else happens in this batch. -/
theorem handles_live_iff (ls : List (Label Cb)) (s : State Cb) :
    Runs (fun a l b => Step a l b ∧ Orderly a l) init ls s ↔
      Runs (fun a l b => Step a l b ∧ Safe b) init ls s := by
  apply Runs.iff_of (P := Linked) (Q := fun _ => True)
  · exact ⟨nofun, nofun⟩
  · trivial
  · rintro a l b hl ⟨hstep, ho⟩
    have hl' := hstep.linked ho hl
    exact ⟨⟨hstep, hl'.safe⟩, hl'⟩
  · rintro a l b _ ⟨hstep, hsafe⟩
    exact ⟨⟨hstep, orderly_of_safe hstep hsafe⟩, trivial⟩

/-- Two handles are ready, and the callback of the first closes the second. -/
theorem closes_another : ¬∀ (ls : List (Label Unit)) (s : State Unit),
    Runs Step init ls s → ReadsLive s := by
  intro hall
  have hregist1 := Runs.single (s := (init : State Unit)) (l := Label.registFd 0 4 true)
    (Step.registFd rfl rfl (by decide))
  have hasync1 := hregist1.snoc (l := Label.async 0 () 0) (Step.async rfl rfl)
  have hregist2 := hasync1.snoc (l := Label.registFd 1 5 true)
    (Step.registFd rfl rfl (by decide))
  have hloop := hregist2.snoc (l := Label.back) (Step.back rfl)
  have hwaits := hloop.snoc (l := Label.batchDone) (Step.batchDone rfl rfl)
  have hready := hwaits.snoc (l := Label.wait [⟨⟨4, 0, 0⟩, 1⟩, ⟨⟨5, 1, 1⟩, 1⟩])
    (Step.wait rfl (by decide) ⟨by decide, by decide⟩)
  have hcalled := hready.snoc (l := Label.next) (Step.call rfl rfl (by decide) rfl rfl)
  have hcloses := hcalled.snoc (l := Label.close 1) (Step.close rfl rfl)
  have hback := hcloses.snoc (l := Label.back) (Step.back rfl)
  obtain ⟨h, hh, _⟩ := hall _ _ hback rfl ⟨⟨5, 1, 1⟩, 1⟩ [] rfl (by decide)
  cases hh

end Runs

end OsCourse.Servers.Loop
