import OsCourse.Servers.Callback
import OsCourse.Servers.Epoll
import OsCourse.Servers.Poll
import OsCourse.Servers.Select

/-! What the multiplexed servers write. Each writes a whole message for every read that
returns something, so that a short read is answered by too many bytes. -/
namespace OsCourse.Servers
open Relay Transition

section Moves

/-- The read of a step of the select server, if it makes one, is of a whole message. -/
def Select.Label.Whole : Select.Label → Prop
  | .read _ res => res.Whole
  | _ => True

def Poll.Label.Whole : Poll.Label → Prop
  | .read _ res => res.Whole
  | _ => True

def Epoll.Label.Whole : Epoll.Label → Prop
  | .read _ res => res.Whole
  | _ => True

def Callback.Label.Whole : Callback.Label → Prop
  | .read _ res => res.Whole
  | _ => True

theorem Select.Step.moves {s s' : Select.State} {l : Select.Label} (h : Select.Step s l s') :
    Moves l.Whole s.net s'.net := by
  cases h with
  | socket | fails | select | noAccept | acceptFails | refuse | skip | close | done =>
    exact Moves.keep trivial
  | accept => exact Moves.restart _ trivial
  | echo => exact moves_writeMsg _ _ _ _

theorem Poll.addClient_net {s t : Poll.State} {cfd : Nat} (h : Poll.addClient s cfd = some t) :
    t.net = s.net := by
  unfold Poll.addClient at h
  split at h
  · cases h
  · rw [← Option.some_inj.mp h]

theorem Poll.Step.moves {s s' : Poll.State} {l : Poll.Label} (h : Poll.Step s l s') :
    Moves l.Whole s.net s'.net := by
  cases h with
  | socket _ hadd =>
    dsimp only
    rw [Poll.addClient_net hadd]
    exact Moves.keep trivial
  | fails | poll | noAccept | acceptFails | refuse | skip | close | done =>
    exact Moves.keep trivial
  | accept => exact Moves.restart _ trivial
  | echo => exact moves_writeMsg _ _ _ _

theorem Epoll.remClient_net (s : Epoll.State) (cfd : Nat) :
    (Epoll.remClient s cfd).net = s.net := by
  unfold Epoll.remClient
  split <;> rfl

theorem Epoll.Step.moves {s s' : Epoll.State} {l : Epoll.Label} (h : Epoll.Step s l s') :
    Moves l.Whole s.net s'.net := by
  cases h with
  | start | fails | wait | acceptFails | refuse | skip | batchDone | leave =>
    exact Moves.keep trivial
  | accept => exact Moves.restart _ trivial
  | terminate =>
    dsimp only [Epoll.terminateLoop, Epoll.close]
    rw [Epoll.remClient_net, Epoll.remClient_net]
    exact Moves.keep trivial
  | echo => exact moves_writeMsg _ _ _ _
  | close =>
    dsimp only [Epoll.close]
    rw [Epoll.remClient_net]
    exact Moves.keep trivial

theorem Callback.Step.moves {s s' : Callback.State} {l : Callback.Label}
    (h : Callback.Step s l s') : Moves l.Whole s.net s'.net := by
  cases h with
  | start | fails | wait | skip | acceptFails | batchDone | leave => exact Moves.keep trivial
  | accept => exact Moves.restart _ trivial
  | @read evd rest h cfd request res =>
    cases res with
    | data c => exact moves_writeMsg _ _ _ _
    | done => exact Moves.keep trivial

end Moves

section Runs

inductive Server where
  | select
  | poll
  | epoll
  | callback

/-- A server as it runs, with which of its reads are whole and with its traffic. -/
structure System where
  State : Type
  Label : Type
  init : State
  Step : State → Label → State → Prop
  Whole : Label → Prop
  net : State → Net

def Server.system : Server → System
  | select => ⟨_, _, Select.init, Select.Step, Select.Label.Whole, Select.State.net⟩
  | poll => ⟨_, _, Poll.init, Poll.Step, Poll.Label.Whole, Poll.State.net⟩
  | epoll => ⟨_, _, Epoll.init, Epoll.Step, Epoll.Label.Whole, Epoll.State.net⟩
  | callback => ⟨_, _, Callback.init, Callback.Step, Callback.Label.Whole, Callback.State.net⟩

theorem Server.moves (v : Server) {s s' : v.system.State} {l : v.system.Label}
    (h : v.system.Step s l s') :
    Moves (v.system.Whole l) (v.system.net s) (v.system.net s') := by
  cases v with
  | select => exact Select.Step.moves h
  | poll => exact Poll.Step.moves h
  | epoll => exact Epoll.Step.moves h
  | callback => exact Callback.Step.moves h

theorem Server.answered_init (v : Server) : (v.system.net v.system.init).Answered := by
  intro cfd
  cases v with
  | select | poll | epoll | callback => rfl

/-- The runs of a server in which every read that returns something returns a whole message
are those in which, in every state, what was written to a connection is a prefix of what was
read from it. -/
theorem echoed_whole_iff (v : Server) (ls : List v.system.Label) (s : v.system.State) :
    Runs (fun a l b => v.system.Step a l b ∧ v.system.Whole l) v.system.init ls s ↔
      Runs (fun a l b => v.system.Step a l b ∧ (v.system.net b).Echoed) v.system.init ls s := by
  have hmoves : ∀ a l b, v.system.Step a l b →
      Moves (v.system.Whole l) (v.system.net a) (v.system.net b) := by
    intro a l b h
    exact v.moves h
  exact echoed_iff hmoves v.answered_init ls

theorem one_not_whole : ¬(ReadResult.data (Chunk.zeros 1 (by decide) (by decide))).Whole := by
  intro hwhole
  have hlen : (List.replicate 1 (0 : UInt8)).length = maxMsgSize := hwhole
  rw [List.length_replicate] at hlen
  exact absurd hlen (by decide)

theorem Select.not_always_echoed : ¬∀ ls s, Runs Select.Step Select.init ls s → s.net.Echoed := by
  intro hall
  have hsocket := Runs.single (s := Select.init) (l := Select.Label.socket 3)
    (Select.Step.socket rfl (by decide))
  have hready1 := hsocket.snoc (l := Select.Label.select {3} 1)
    (Select.Step.select rfl (by decide))
  have haccept := hready1.snoc (l := Select.Label.accept 4)
    (Select.Step.accept rfl (by decide) (by decide) (by decide) rfl)
  have hready2 := haccept.snoc (l := Select.Label.select {4} 1)
    (Select.Step.select rfl (by decide))
  have hscan := hready2.snoc (l := Select.Label.noAccept)
    (Select.Step.noAccept rfl (by decide))
  refine one_not_whole (exact_of_all_echoed (fun _ _ _ h => h.moves) (fun _ => rfl) hall hscan
    (l := Select.Label.read EchoMsg.zeros _) (Select.Step.echo rfl ?_ ?_ ?_)) <;> decide

theorem Poll.not_always_echoed : ¬∀ ls s, Runs Poll.Step Poll.init ls s → s.net.Echoed := by
  intro hall
  have hsocket := Runs.single (s := Poll.init) (l := Poll.Label.socket 3)
    (Poll.Step.socket rfl rfl)
  have hready1 := hsocket.snoc (l := Poll.Label.poll fun j => if j = 0 then 1 else 0)
    (Poll.Step.poll rfl (by decide))
  have haccept := hready1.snoc (l := Poll.Label.accept 4)
    (Poll.Step.accept rfl (by decide) (by decide) rfl)
  have hready2 := haccept.snoc (l := Poll.Label.poll fun j => if j = 0 then 0 else 1)
    (Poll.Step.poll rfl (by decide))
  have hscan := hready2.snoc (l := Poll.Label.noAccept) (Poll.Step.noAccept rfl (by decide))
  refine one_not_whole (exact_of_all_echoed (fun _ _ _ h => h.moves) (fun _ => rfl) hall hscan
    (l := Poll.Label.read EchoMsg.zeros _) (Poll.Step.echo rfl ?_ ?_ ?_)) <;> decide

theorem Epoll.not_always_echoed : ¬∀ ls s, Runs Epoll.Step Epoll.init ls s → s.net.Echoed := by
  intro hall
  have hstart := Runs.single (s := Epoll.init) (l := Epoll.Label.start 3 4)
    (Epoll.Step.start rfl (by decide) (by decide))
  have hready1 := hstart.snoc (l := Epoll.Label.wait [⟨3, 1⟩])
    (Epoll.Step.wait rfl (by decide) ⟨by decide, by decide, by decide⟩)
  have haccept := hready1.snoc (l := Epoll.Label.accept 5)
    (Epoll.Step.accept ⟨rfl, rfl, rfl, by decide⟩ (by decide) (by decide))
  have hback := haccept.snoc (l := Epoll.Label.batchDone) (Epoll.Step.batchDone rfl rfl)
  have hready2 := hback.snoc (l := Epoll.Label.wait [⟨5, 1⟩])
    (Epoll.Step.wait rfl (by decide) ⟨by decide, by decide, by decide⟩)
  refine one_not_whole (exact_of_all_echoed (fun _ _ _ h => h.moves) (fun _ => rfl) hall hready2
    (l := Epoll.Label.read EchoMsg.zeros _)
    (Epoll.Step.echo ⟨rfl, rfl, ?_⟩ ?_ ?_ ?_ ?_)) <;> decide

theorem Callback.not_always_echoed :
    ¬∀ ls s, Runs Callback.Step Callback.init ls s → s.net.Echoed := by
  intro hall
  have hstart := Runs.single (s := Callback.init) (l := Callback.Label.start 3 0 true)
    (Callback.Step.start rfl ⟨rfl, by decide⟩)
  have hready1 := hstart.snoc (l := Callback.Label.wait [⟨⟨3, 0, 0⟩, 1⟩])
    (Callback.Step.wait rfl (by decide) ⟨by decide, by decide⟩)
  have haccept := hready1.snoc (l := Callback.Label.accept 4 1 true)
    (Callback.Step.accept ⟨rfl, rfl, by decide, rfl, rfl⟩ (by decide) ⟨rfl, by decide⟩)
  have hback := haccept.snoc (l := Callback.Label.batchDone)
    (Callback.Step.batchDone rfl rfl)
  have hready2 := hback.snoc (l := Callback.Label.wait [⟨⟨4, 1, 1⟩, 1⟩])
    (Callback.Step.wait rfl (by decide) ⟨by decide, by decide⟩)
  exact one_not_whole (exact_of_all_echoed (fun _ _ _ h => h.moves) (fun _ => rfl) hall hready2
    (l := Callback.Label.read EchoMsg.zeros (.data _))
    (Callback.Step.read ⟨rfl, rfl, by decide, rfl, rfl⟩ rfl))

/-- A client sends one byte, and each of the servers writes 256 back. -/
theorem short_read_overrun :
    (¬∀ ls s, Runs Select.Step Select.init ls s → s.net.Echoed) ∧
    (¬∀ ls s, Runs Poll.Step Poll.init ls s → s.net.Echoed) ∧
    (¬∀ ls s, Runs Epoll.Step Epoll.init ls s → s.net.Echoed) ∧
    (¬∀ ls s, Runs Callback.Step Callback.init ls s → s.net.Echoed) :=
  ⟨Select.not_always_echoed, Poll.not_always_echoed, Epoll.not_always_echoed,
    Callback.not_always_echoed⟩

end Runs

end OsCourse.Servers
