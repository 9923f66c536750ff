import OsCourse.Lib.Exchange
import OsCourse.UThread.Progress

/-! Closed programs over the library, like those of simpletest.c and event_test.c: threads that
print, yield, wait for events and set them are created before `ut_run` is called. -/
namespace OsCourse.UThread.Programs
open Calls Exchange Function Placement Transition
variable {σ : Type*}

inductive Act (σ : Type*) where
  | print (x : σ)
  | yield
  | wait (e : Nat)
  | set (e : Nat)
  deriving DecidableEq

def Act.op : Act σ → Option Op
  | .print _ => none
  | .yield => some .utYield
  | .wait e => some (.eventWait e)
  | .set e => some (.eventSet e)

/-- `todo` is what the start function of each thread has not begun yet. -/
structure Program (σ : Type*) where
  world : World
  todo : Handle → List (Act σ)
  out : List σ

inductive Label where
  | print
  | lib (op : Op)
  deriving DecidableEq

/-- A thread at the end of its start function calls `ut_exit`. -/
inductive PStep : Program σ → Label → Program σ → Prop
  | goOn {p : Program σ} {w : World} : Step p.world .ret w →
      PStep p (.lib .ret) { p with world := w }
  | print {p : Program σ} {t : Handle} {x : σ} {rest : List (Act σ)} :
      p.world.sched.current = some t → p.world.midCall = false → p.todo t = .print x :: rest →
      PStep p .print { p with todo := update p.todo t rest, out := p.out ++ [x] }
  | call {p : Program σ} {w : World} {t : Handle} {a : Act σ} {op : Op} {rest : List (Act σ)} :
      p.world.sched.current = some t → p.todo t = a :: rest → a.op = some op →
      Step p.world op w →
      PStep p (.lib op) { p with world := w, todo := update p.todo t rest }
  | exit {p : Program σ} {w : World} {t : Handle} :
      p.world.sched.current = some t → p.todo t = [] → Step p.world .utExit w →
      PStep p (.lib .utExit) { p with world := w }

/-- The threads `hs` are created, and `ut_run` is called. -/
def startOps (hs : List Handle) : List Op := hs.map .utCreate ++ [.utRun]

section Steps
variable {p p' : Program σ} {l : Label} {hs : Finset Handle} {t : Handle}

theorem Act.op_kept {a : Act σ} {op : Op} (h : a.op = some op) :
    (∀ x, op ≠ .utCreate x) ∧ op ≠ .utExit ∧ op ≠ .utRun ∧ op ≠ .ret ∧ op ≠ .utDeactivate := by
  cases a <;> cases h <;> exact ⟨fun _ => nofun, nofun, nofun, nofun, nofun⟩

/-- The threads `hs` are all those there are. -/
structure Program.Inv (hs : Finset Handle) (p : Program σ) : Prop where
  world : p.world.Inv
  parties : p.world.sched.live ⊆ hs

def Program.weight (p : Program σ) (t : Handle) : Nat :=
  2 * (p.todo t).length + (p.world.pending t).toList.length

/-- A bound for the steps of the program, with the exits of its threads and the end of `ut_run`. -/
def Program.ahead (hs : Finset Handle) (p : Program σ) : Nat :=
  hs.sum p.weight + p.world.sched.live.card + (if p.world.sched.runningThread = none then 0 else 1)

theorem length_toList {α : Type*} (x : Option α) : x.toList.length ≤ 1 := by
  cases x <;> simp

theorem running_of_current {s : Sched} (h : s.current = some t) : s.runningThread ≠ none := by
  simp [current_eq_some.1 h]

theorem Program.ahead_move (hi : p.Inv hs) (hcur : p.world.sched.current = some t)
    (hlive : p'.world.sched.live = p.world.sched.live)
    (hothers : ∀ u, u ≠ t → p'.weight u = p.weight u) (hless : p'.weight t < p.weight t) :
    p'.ahead hs + 1 ≤ p.ahead hs := by
  have hr := running_of_current hcur
  have hsum := sum_move (hi.parties (hi.world.current_live hcur)) hothers
  unfold Program.ahead
  rw [hlive, if_neg hr]
  split <;> omega

theorem PStep.kept (hi : p.Inv hs) (h : PStep p l p') : p'.Inv hs := by
  cases h with
  | goOn hs' =>
    have hw := inv_step hi.world hs'
    refine ⟨hw, ?_⟩
    obtain rfl | ⟨_, s, hend, rfl⟩ | ⟨t, _, rfl⟩ := ret_cases hs'.2
    · exact hi.parties
    · obtain ⟨_, _, rfl⟩ := utRunEnd_eq hend
      exact hi.parties
    · exact hi.parties
  | print => exact ⟨hi.world, hi.parties⟩
  | call hcur _ hop hs' =>
    obtain ⟨hnew, hexit, hrun, _⟩ := Act.op_kept hop
    have hkept := step_kept hi.world hcur hs' hnew hexit hrun
    exact ⟨inv_step hi.world hs', hkept.live.symm ▸ hi.parties⟩
  | exit hcur _ hs' =>
    refine ⟨inv_step hi.world hs', ?_⟩
    obtain ⟨s, hexit, h⟩ := bind_ok hs'.2
    cases h
    obtain ⟨t, _, rfl⟩ := utExit_eq_dispatch hexit hi.world.mainThread
    intro u hu
    apply hi.parties
    simp only [internalCleanup, dispatch_live] at hu
    exact Finset.mem_of_mem_erase hu

theorem PStep.ahead (hi : p.Inv hs) (h : PStep p l p') : p'.ahead hs + 1 ≤ p.ahead hs := by
  cases h with
  | @goOn w hs' =>
    have hmid : p.world.midCall = true := hs'.1.1.2 rfl
    cases hr : p.world.sched.runningThread with
    | none => simp [World.midCall, hr] at hmid
    | some c =>
      cases c with
      | main =>
        obtain ⟨s, hend, hw⟩ := bind_ok (by simpa only [exec, hr] using hs'.2)
        obtain ⟨_, _, rfl⟩ := utRunEnd_eq hend
        cases hw
        simp only [Program.ahead, hr, if_true, reduceCtorEq, if_false]
        exact le_rfl
      | user t =>
        have hcur := current_eq_some.2 hr
        obtain ⟨op, hop⟩ := Option.isSome_iff_exists.1
          (by simpa [World.midCall, hr] using hmid : (p.world.pending t).isSome = true)
        have hexec := hs'.2
        simp only [exec, hr] at hexec
        have hw : p.world.resume t = w := Except.ok.inj hexec
        subst hw
        refine Program.ahead_move hi hcur rfl ?_ ?_
        · intro u hu
          simp [Program.weight, World.resume, hu]
        · simp [Program.weight, World.resume, hop]
  | @print t x rest hcur _ htodo =>
    refine Program.ahead_move hi hcur rfl ?_ ?_
    · intro u hu
      simp [Program.weight, hu]
    · simp only [Program.weight, update_self, htodo, List.length_cons]
      omega
  | @call w t a op rest hcur htodo hop hs' =>
    obtain ⟨hnew, hexit, hrun, _⟩ := Act.op_kept hop
    have hkept := step_kept hi.world hcur hs' hnew hexit hrun
    refine Program.ahead_move hi hcur hkept.live ?_ ?_
    · intro u hu
      simp only [Program.weight, update_of_ne hu, hkept.pending u hu]
    · have hone := length_toList (w.pending t)
      simp only [Program.weight, update_self, htodo, List.length_cons]
      omega
  | @exit w t hcur _ hs' =>
    obtain ⟨s, hexit, h⟩ := bind_ok hs'.2
    cases h
    obtain ⟨u, hcur', rfl⟩ := utExit_eq_dispatch hexit hi.world.mainThread
    have hr := running_of_current hcur
    have hlive := hi.world.current_live hcur'
    have hcard := Finset.card_erase_add_one hlive
    have hweight : (Program.mk { p.world with sched := internalCleanup u { p.world.sched with
        numberOfThreads := p.world.sched.numberOfThreads - 1 }.dispatch } p.todo p.out).weight =
        p.weight := rfl
    unfold Program.ahead
    rw [hweight, if_neg hr]
    simp only [internalCleanup, dispatch_live]
    split <;> omega

theorem Program.Inv.progress (hi : p.Inv hs) (hcur : p.world.sched.current = some t) :
    ∃ l p', PStep p l p' := by
  have hr := current_eq_some.1 hcur
  cases hpend : p.world.pending t with
  | some op =>
    have hmid : p.world.midCall = true := by simp [World.midCall, hr, hpend]
    obtain ⟨w, hw⟩ := hi.world.progress .ret hcur ⟨by simp [hmid], rfl⟩ (by simp)
    exact ⟨_, _, PStep.goOn hw⟩
  | none =>
    have hmid : p.world.midCall = false := by simp [World.midCall, hr, hpend]
    have hall : ∀ op, op ≠ .ret → p.world.admits op = true → Allowed p.world op :=
      fun op hne had => ⟨by simp [hmid, hne], had⟩
    cases htodo : p.todo t with
    | nil =>
      obtain ⟨w, hw⟩ := hi.world.progress .utExit hcur (hall _ (by simp) rfl) (by simp)
      exact ⟨_, _, PStep.exit hcur htodo hw⟩
    | cons a rest =>
      cases a with
      | print x => exact ⟨_, _, PStep.print hcur hmid htodo⟩
      | yield =>
        obtain ⟨w, hw⟩ := hi.world.progress .utYield hcur (hall _ (by simp) rfl) (by simp)
        exact ⟨_, _, PStep.call hcur htodo rfl hw⟩
      | wait e =>
        obtain ⟨w, hw⟩ := hi.world.progress (.eventWait e) hcur (hall _ (by simp) rfl) (by simp)
        exact ⟨_, _, PStep.call hcur htodo rfl hw⟩
      | set e =>
        obtain ⟨w, hw⟩ := hi.world.progress (.eventSet e) hcur (hall _ (by simp) rfl) (by simp)
        exact ⟨_, _, PStep.call hcur htodo rfl hw⟩

theorem Program.Inv.finish (hi : p.Inv hs) (hr : p.world.sched.runningThread = some .main)
    (hlive : p.world.sched.live = ∅) : ∃ p', PStep p (.lib .ret) p' := by
  have hzero : p.world.sched.numberOfThreads = 0 := by
    rw [hi.world.count, hlive]
    rfl
  have hend : utRunEnd p.world.sched =
      .ok { p.world.sched with runningThread := none, mainThread := none } := by
    simp [utRunEnd, hi.world.drained hr, isListEmpty, hzero]
  have hexec : exec .ret p.world = .ok { p.world with
      sched := { p.world.sched with runningThread := none, mainThread := none } } := by
    simp only [exec, hr, hend]
    rfl
  have hmid : p.world.midCall = true := by simp [World.midCall, hr]
  exact ⟨_, PStep.goOn ⟨⟨by simp [hmid], rfl⟩, hexec⟩⟩

end Steps

section Start
variable {c : Config} {hs : List Handle} {w : World}

/-- The threads `hs` have been created, and none of them has run. -/
structure Fresh (hs : List Handle) (w : World) : Prop where
  live : w.sched.live = hs.toFinset
  nodup : hs.Nodup
  pending : ∀ t, w.pending t = none
  halted : w.halted = []
  waiting : ∀ o, w.waiting o = []
  signaled : ∀ e, (w.events e).signaled = false

theorem Fresh.created (h : Runs Step (World.init c) (hs.map .utCreate) w) :
    Fresh hs w ∧ w.sched.runningThread = none ∧ w.sched.readyQueue = hs := by
  induction hs using List.reverseRecOn generalizing w with
  | nil =>
    rw [h.nil_inv]
    refine ⟨⟨rfl, List.nodup_nil, fun _ => rfl, rfl, ?_, fun _ => rfl⟩, rfl, rfl⟩
    intro o
    cases o <;> rfl
  | append_singleton hs x ih =>
    rw [List.map_append] at h
    obtain ⟨w1, hrun, hstep⟩ := h.snoc_inv
    obtain ⟨hf, hr, hready⟩ := ih hrun
    have hnew : x ∉ hs := by
      have hx : x ∉ w1.sched.live := by simpa [World.admits] using hstep.1.2
      simpa [hf.live] using hx
    have hw := Except.ok.inj hstep.2
    subst hw
    refine ⟨⟨?_, ?_, ?_, hf.halted, ?_, hf.signaled⟩, hr, ?_⟩
    · simp [utCreate, utActivate, Sched.activateAll, hf.live]
    · rw [List.nodup_append]
      refine ⟨hf.nodup, List.nodup_singleton x, ?_⟩
      intro a ha b hb hab
      rw [List.mem_singleton.mp hb] at hab
      exact hnew (hab ▸ ha)
    · intro t
      by_cases ht : t = x
      · rw [ht]
        exact update_self x none w1.pending
      · exact (update_of_ne ht none w1.pending).trans (hf.pending t)
    · intro o
      have hwait := hf.waiting o
      cases o <;> simpa using hwait
    · simp [utCreate, utActivate, Sched.activateAll, hready]

theorem Fresh.started (h : Runs Step (World.init c) (startOps hs) w) :
    Fresh hs w ∧ w.sched.current.toList ++ w.sched.readyQueue = hs ∧
      (w.sched.runningThread = none → hs = []) ∧ w.sched.runningThread ≠ some .main := by
  obtain ⟨w1, hrun, hstep⟩ := h.snoc_inv
  obtain ⟨hf, hr, hready⟩ := Fresh.created hrun
  obtain ⟨s, hsched, hw⟩ := bind_ok hstep.2
  cases hw
  have hlive : s.live = w1.sched.live := by
    obtain rfl | ⟨_, rfl⟩ := utRun_cases hsched
    · rfl
    · exact dispatch_live _
  refine ⟨⟨hlive.trans hf.live, hf.nodup, hf.pending, hf.halted, ?_, hf.signaled⟩, ?_⟩
  · intro o
    have hwait := hf.waiting o
    cases o <;> simpa using hwait
  · unfold utRun at hsched
    rw [if_neg (by simp [hr])] at hsched
    cases hs with
    | nil =>
      rw [if_pos (by simp [hready, isListEmpty])] at hsched
      cases hsched
      exact ⟨by simp [Sched.current, hr, hready], fun _ => rfl, by simp [hr]⟩
    | cons x rest =>
      rw [if_neg (by simp [hready, isListEmpty])] at hsched
      have hs' := schedule_eq_dispatch hsched (Or.inr rfl)
      subst hs'
      simp [Sched.dispatch, hready, Sched.switchTo, Sched.current]

theorem Fresh.inv {script : Handle → List (Act σ)} (hf : Fresh hs w) (hw : w.Inv) :
    Program.Inv hs.toFinset (Program.mk w script []) :=
  ⟨hw, by rw [hf.live]⟩

end Start

end OsCourse.UThread.Programs
