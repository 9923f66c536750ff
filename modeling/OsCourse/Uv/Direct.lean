import OsCourse.Uv.Closing
import OsCourse.Uv.Order

/-! The libuv echo server without the thread pool (aula-06-18): `echo_read` writes what it
read. It is the other server when its work items complete at once. -/
namespace OsCourse.Uv.Direct
open Function Transition

inductive Step : State → Label → State → Prop
  | accept {s : State} {p : Nat} : s.heap p = none →
      Step s (.onNewConnection p)
        { s with heap := update s.heap p (some ⟨s.conns, false⟩), conns := s.conns + 1 }
  | acceptFails {s : State} {p : Nat} : s.heap p = none →
      Step s (.onNewConnection p)
        { s with heap := update s.heap p (some ⟨s.conns, true⟩), conns := s.conns + 1 }
  | connectionError {s : State} : Step s .onNewConnectionError s
  | read {s : State} {p nread : Nat} {c : Client} : s.heap p = some c → c.closed = false →
      0 < nread →
      Step s (.echoRead p nread)
        { s with
          written := uvWrite (s.heap p) ⟨c.conn, s.read c.conn, nread⟩ s.written
          read := update s.read c.conn (s.read c.conn + nread) }
  | readNothing {s : State} {p : Nat} {c : Client} : s.heap p = some c → c.closed = false →
      Step s (.echoRead p 0) s
  | readEnd {s : State} {p : Nat} {c : Client} : s.heap p = some c → c.closed = false →
      Step s (.echoReadEnd p) { s with heap := update s.heap p (some ⟨c.conn, true⟩) }
  | onClose {s : State} {p : Nat} {c : Client} : s.heap p = some c → c.closed = true →
      Step s (.onClose p) { s with heap := update s.heap p none }

/-- A step of the other server that keeps order and finds clients open. -/
def Orderly (s : State) (l : Label) (s' : State) : Prop := Uv.Step s l s' ∧ Oldest s l ∧ Quiet s l

variable {s s' : State} {l : Label}

theorem Step.pooled (h : Step s l s') (hwork : s.work = []) :
    s'.work = [] ∧ ∃ ms, Runs Orderly s ms s' := by
  cases h with
  | accept hp => exact ⟨hwork, _, Runs.single ⟨Uv.Step.accept hp, trivial, trivial⟩⟩
  | acceptFails hp => exact ⟨hwork, _, Runs.single ⟨Uv.Step.acceptFails hp, trivial, trivial⟩⟩
  | connectionError => exact ⟨hwork, _, Runs.single ⟨Uv.Step.connectionError, trivial, trivial⟩⟩
  | @read p n c hp hopen hn =>
    obtain ⟨heap, conns, work, read, written⟩ := s
    cases hwork
    have hqueued : Orderly ⟨heap, conns, [], read, written⟩ (.echoRead p n)
        ⟨heap, conns, [⟨p, ⟨c.conn, read c.conn, n⟩⟩], update read c.conn (read c.conn + n),
          written⟩ := ⟨Uv.Step.read hp hopen hn, trivial, trivial⟩
    have hanswered : Uv.Step
        ⟨heap, conns, [⟨p, ⟨c.conn, read c.conn, n⟩⟩], update read c.conn (read c.conn + n),
          written⟩ (.sendResp 0)
        ⟨heap, conns, [], update read c.conn (read c.conn + n),
          uvWrite (heap p) ⟨c.conn, read c.conn, n⟩ written⟩ :=
      @Uv.Step.sendResp _ [] [] ⟨p, ⟨c.conn, read c.conn, n⟩⟩ rfl
    refine ⟨rfl, _, (Runs.single hqueued).snoc ⟨hanswered, ?_, trivial⟩⟩
    intro wreq hw d hd _
    cases hw
    cases hp.symm.trans hd
    exact ⟨rfl, nofun⟩
  | readNothing hp hopen =>
    exact ⟨hwork, _, Runs.single ⟨Uv.Step.readNothing hp hopen, trivial, trivial⟩⟩
  | readEnd hp hopen =>
    refine ⟨hwork, _, Runs.single ⟨Uv.Step.readEnd hp hopen, trivial, ?_⟩⟩
    intro wreq hw
    rw [hwork] at hw
    cases hw
  | onClose hp hclosed =>
    exact ⟨hwork, _, Runs.single ⟨Uv.Step.onClose hp hclosed, trivial, trivial⟩⟩

theorem pooled {ls : List Label} (hrun : Runs Step init ls s) :
    ∃ ms, Runs Orderly init ms s := by
  have hall : s.work = [] ∧ ∃ ms, Runs Orderly init ms s := by
    induction hrun with
    | nil => exact ⟨rfl, [], Runs.nil _⟩
    | snoc _ hstep ih =>
      obtain ⟨hwork, ms, hms⟩ := ih
      obtain ⟨hwork', ns, hns⟩ := hstep.pooled hwork
      exact ⟨hwork', ms ++ ns, hms.append hns⟩
  exact hall.2

theorem direct_echo {ls : List Label} (hrun : Runs Step init ls s) :
    InOrder s ∧ Linked s := by
  obtain ⟨ms, hms⟩ := pooled hrun
  have hall := hms.invariant (P := fun a => Inv a ∧ Linked a) ⟨Inv.init, nofun⟩
    fun a l b hab h => ⟨h.1.inv h.2.1 hab.1, h.1.linked h.2.2 hab.2⟩
  exact ⟨hall.1.inOrder, hall.2⟩

end OsCourse.Uv.Direct
