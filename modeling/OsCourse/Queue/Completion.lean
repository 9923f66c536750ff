import OsCourse.Lib.Exchange
import OsCourse.Queue.Messages
import OsCourse.UThread.Progress

/-! Closed programs over the message queue: threads that only put or only get, and may yield,
are created before `ut_run` is called. -/
namespace OsCourse.Queue
open Calls Exchange Function Placement Transition UThread

inductive Act where
  | call (c : Call)
  | yield
  deriving DecidableEq, Repr

def Act.isPut : Act → Bool
  | .call (.put _) => true
  | _ => false

def Act.isGet : Act → Bool
  | .call .get => true
  | _ => false

/-- `todo` is what the start function of each thread has not begun yet. -/
structure Program where
  queue : QWorld
  todo : Handle → List Act

def Program.left (p : Program) (t : Handle) : List Act :=
  (p.queue.doing t).toList.map Act.call ++ p.todo t

/-- A thread at the end of its start function calls `ut_exit`. -/
inductive PStep : Program → QOp → Program → Prop
  | goOn {p : Program} {q' : QWorld} : QStep p.queue (.lib .ret) q' →
      PStep p (.lib .ret) { p with queue := q' }
  | finish {p : Program} {q' : QWorld} : QStep p.queue .finish q' →
      PStep p .finish { p with queue := q' }
  | call {p : Program} {q' : QWorld} {t : Handle} {c : Call} {rest : List Act} :
      p.queue.world.sched.current = some t → p.todo t = .call c :: rest →
      QStep p.queue (.enter c) q' → PStep p (.enter c) ⟨q', update p.todo t rest⟩
  | yield {p : Program} {q' : QWorld} {t : Handle} {rest : List Act} :
      p.queue.world.sched.current = some t → p.todo t = .yield :: rest →
      QStep p.queue (.lib .utYield) q' → PStep p (.lib .utYield) ⟨q', update p.todo t rest⟩
  | exit {p : Program} {q' : QWorld} {t : Handle} :
      p.queue.world.sched.current = some t → p.todo t = [] →
      QStep p.queue (.lib .utExit) q' → PStep p (.lib .utExit) { p with queue := q' }

/-- The threads left and the length of the queue, when `ut_run` has returned. -/
def Program.result (p : Program) : Option (Finset Handle × Nat) :=
  if p.queue.world.sched.runningThread = none then
    some (p.queue.world.sched.live, p.queue.head.length)
  else none

/-- The threads `hs` are created, and `ut_run` is called. -/
def startOps (hs : List Handle) : List QOp :=
  hs.map (fun h => .lib (.utCreate h)) ++ [.lib .utRun]

/-- The trade that the threads of the program are in, over a queue of `m` places. -/
def Program.trade (m : Int32) (p : Program) : Trade Handle :=
  { cap := m.toInt.toNat
    inside := p.queue.head.length
    puts := fun t => (p.left t).countP Act.isPut
    gets := fun t => (p.left t).countP Act.isGet }

section Steps
variable {q q' : QWorld} {t : Handle}

theorem lib_step {op : Op} (h : QStep q (.lib op) q') :
    Step q.world op q'.world ∧ q' = { q with world := q'.world } ∧ q.ending = none := by
  obtain ⟨hall, h⟩ := h
  obtain ⟨w, hw, h⟩ := bind_ok h
  cases h
  exact ⟨⟨hall.2.1, ofLibrary_ok hw⟩, rfl, hall.1⟩

theorem lib_free {op : Op} (hs : Step q.world op q'.world) (hend : q.ending = none)
    (hcur : q.world.sched.current = some t) (hop : op ≠ .ret) : q.doing t = none := by
  have hmid : q.world.midCall = false := by
    by_contra hno
    exact hop (hs.1.1.1 (by simpa using hno))
  simpa [QWorld.ending, hmid, hcur] using hend

theorem enter_step {c : Call} (h : QStep q (.enter c) q')
    (hcur : q.world.sched.current = some t) :
    Step q.world (.semWait c.waits 1) q'.world ∧ q.doing t = none ∧
      q' = { q with world := q'.world, doing := update q.doing t (some c) } := by
  obtain ⟨⟨hend, hmid, _⟩, h⟩ := h
  simp only [qexec, hcur] at h
  obtain ⟨w, hw, h⟩ := bind_ok h
  cases h
  have hfree : q.doing t = none := by simpa [QWorld.ending, hmid, hcur] using hend
  exact ⟨⟨⟨by simp [hmid], rfl⟩, ofLibrary_ok hw⟩, hfree, rfl⟩

def Call.posts : Call → Nat
  | .put _ => elemAvaiable
  | .get => spaceAvaiable

theorem finish_step (h : QStep q .finish q') : ∃ t c, q.world.sched.current = some t ∧
    q.doing t = some c ∧ q'.doing = update q.doing t none ∧
    Step q.world (.semPost c.posts 1) q'.world ∧
    q'.head.length + (Act.call c).isGet.toNat =
      q.head.length + (Act.call c).isPut.toNat := by
  have hsome : q.ending.isSome := h.1
  cases qstep_effect h with
  | lib op hend =>
    rw [hend] at hsome
    cases hsome
  | enter t c hcur hfree =>
    rw [QWorld.ending, hcur] at hsome
    split at hsome
    · cases hsome
    · simp [hfree] at hsome
  | put t msg hcur hdo hs he =>
    refine ⟨t, .put msg, hcur, hdo, by rw [he], hs, ?_⟩
    rw [he, List.length_append]
    rfl
  | get t node head hcur hdo hhead hs he =>
    refine ⟨t, .get, hcur, hdo, by rw [he], hs, ?_⟩
    rw [he, hhead, List.length_cons]
    rfl

end Steps

def Program.weight (p : Program) (t : Handle) : Nat :=
  4 * (p.todo t).length + 2 * (p.queue.doing t).toList.length +
    (p.queue.world.pending t).toList.length

/-- A step of the program: the end of `ut_run`, the exit of a thread, or a call of one. -/
inductive Move (p p' : Program) : Prop where
  | ended (hr : p.queue.world.sched.runningThread = some .main)
      (hs : Step p.queue.world .ret p'.queue.world) (hq : p'.queue.head = p.queue.head)
      (hd : p'.queue.doing = p.queue.doing) (htodo : p'.todo = p.todo)
  | exit (t : Handle) (hcur : p.queue.world.sched.current = some t)
      (hs : Step p.queue.world .utExit p'.queue.world) (hq : p'.queue.head = p.queue.head)
      (hd : p'.queue.doing = p.queue.doing) (htodo : p'.todo = p.todo) (hleft : p.left t = [])
  | call (t : Handle) (op : Op) (hcur : p.queue.world.sched.current = some t)
      (hs : Step p.queue.world op p'.queue.world) (hop : op ≠ .utDeactivate)
      (hkept : Kept t p.queue.world p'.queue.world)
      (hwaits : ∀ o, op.waitsOn = some o → ∃ c, p'.queue.doing t = some c ∧ o = .sem c.waits)
      (hothers : ∀ u, u ≠ t → p'.queue.doing u = p.queue.doing u ∧ p'.todo u = p.todo u)
      (hleft : (p'.left t = p.left t ∧ p'.queue.head = p.queue.head) ∨
        ∃ a, p.left t = a :: p'.left t ∧
          p'.queue.head.length + a.isGet.toNat = p.queue.head.length + a.isPut.toNat)
      (hless : p'.weight t < p.weight t)

theorem ret_pending {w w' : World} {t : Handle} (hcur : w.sched.current = some t)
    (h : exec .ret w = .ok w') : w'.pending t = none := by
  have hr := current_eq_some.1 hcur
  simp only [exec, hr] at h
  have hw : w.resume t = w' := Except.ok.inj h
  rw [← hw]
  exact update_self t none w.pending

theorem length_toList {α : Type} (x : Option α) : x.toList.length ≤ 1 := by
  cases x <;> simp

theorem PStep.move {m : Int32} {p p' : Program} {l : QOp} (hi : QInv m p.queue)
    (h : PStep p l p') : Move p p' := by
  cases h with
  | @goOn q' hq =>
    obtain ⟨hs, he, _⟩ := lib_step hq
    have hd : q'.doing = p.queue.doing := by rw [he]
    have hhead : q'.head = p.queue.head := by rw [he]
    have hmid : p.queue.world.midCall = true := hs.1.1.2 rfl
    cases hr : p.queue.world.sched.runningThread with
    | none => simp [World.midCall, hr] at hmid
    | some r =>
      cases r with
      | main => exact Move.ended hr hs hhead hd rfl
      | user t =>
        have hcur := current_eq_some.2 hr
        obtain ⟨op, hop⟩ := Option.isSome_iff_exists.1
          (by simpa [World.midCall, hr] using hmid : (p.queue.world.pending t).isSome = true)
        have hkept := step_kept hi.world hcur hs (by simp) (by simp) (by simp)
        refine Move.call t .ret hcur hs (by simp) hkept (by simp [Op.waitsOn])
          (fun u _ => ⟨by rw [hd], rfl⟩) (Or.inl ⟨by simp [Program.left, hd], hhead⟩) ?_
        simp [Program.weight, hd, hop, ret_pending hcur hs.2]
  | @finish q' hq =>
    obtain ⟨t, c, hcur, hdo, hd, hs, hlen⟩ := finish_step hq
    have hkept := step_kept hi.world hcur hs (by simp) (by simp) (by simp)
    refine Move.call t _ hcur hs (by simp) hkept (by simp [Op.waitsOn])
      (fun u hu => ⟨by simp [hd, hu], rfl⟩)
      (Or.inr ⟨.call c, by simp [Program.left, hd, hdo], hlen⟩) ?_
    have hone := length_toList (q'.world.pending t)
    simp only [Program.weight, hd, hdo, update_self, Option.toList_none, Option.toList_some,
      List.length_nil, List.length_singleton]
    omega
  | @call q' t c rest hcur htodo hq =>
    obtain ⟨hs, hfree, he⟩ := enter_step hq hcur
    have hd : q'.doing = update p.queue.doing t (some c) := by rw [he]
    have hkept := step_kept hi.world hcur hs (by simp) (by simp) (by simp)
    refine Move.call t _ hcur hs (by simp) hkept ?_ (fun u hu => ⟨by simp [hd, hu], by simp [hu]⟩)
      (Or.inl ⟨by simp [Program.left, hd, hfree, htodo], by rw [he]⟩) ?_
    · intro o ho
      exact ⟨c, by simp [hd], by simpa [Op.waitsOn] using ho.symm⟩
    · have hone := length_toList (q'.world.pending t)
      simp only [Program.weight, hd, htodo, update_self, Option.toList_some, List.length_cons,
        List.length_nil]
      omega
  | @yield q' t rest hcur htodo hq =>
    obtain ⟨hs, he, hend⟩ := lib_step hq
    have hd : q'.doing = p.queue.doing := by rw [he]
    have hfree := lib_free hs hend hcur (by simp)
    have hkept := step_kept hi.world hcur hs (by simp) (by simp) (by simp)
    refine Move.call t _ hcur hs (by simp) hkept (by simp [Op.waitsOn])
      (fun u hu => ⟨by rw [hd], by simp [hu]⟩)
      (Or.inr ⟨.yield, by simp [Program.left, hd, hfree, htodo], by rw [he]; rfl⟩) ?_
    have hone := length_toList (q'.world.pending t)
    simp only [Program.weight, hd, htodo, update_self, List.length_cons]
    omega
  | @exit q' t hcur htodo hq =>
    obtain ⟨hs, he, hend⟩ := lib_step hq
    have hfree := lib_free hs hend hcur (by simp)
    exact Move.exit t hcur hs (by rw [he]) (by rw [he]) rfl (by simp [Program.left, hfree, htodo])

structure Program.Inv (m : Int32) (hs : Finset Handle) (P G : Nat) (p : Program) : Prop where
  queue : QInv m p.queue
  halted : p.queue.world.halted = []
  parties : p.queue.world.sched.live ⊆ hs
  gone : ∀ t ∈ hs, t ∉ p.queue.world.sched.live → p.left t = []
  oneSided : ∀ t, OneSided Act.isPut Act.isGet (p.left t)
  waits : ∀ o t, t ∈ p.queue.world.waiting o → ∃ c, p.queue.doing t = some c ∧ o = .sem c.waits
  account : p.queue.head.length + hs.sum (p.trade m).puts + G = P + hs.sum (p.trade m).gets
  ended : p.queue.world.sched.runningThread = none → p.queue.world.sched.live = ∅

theorem QInv.fits {m : Int32} {q : QWorld} (hi : QInv m q) : (q.head.length : Int) ≤ m.toInt := by
  have h1 := hi.spaces
  have h2 := units_le_unused q spaceAvaiable
  have h3 := hi.space.nonneg
  omega

theorem Program.left_congr {p p' : Program} {t : Handle} (hd : p'.queue.doing t = p.queue.doing t)
    (htodo : p'.todo t = p.todo t) : p'.left t = p.left t := by
  rw [Program.left, Program.left, hd, htodo]

theorem Program.left_of_doing {p : Program} {t : Handle} {c : Call}
    (h : p.queue.doing t = some c) : p.left t = .call c :: p.todo t := by
  rw [Program.left, h]
  rfl

section Invariant
variable {m : Int32} {hs : Finset Handle} {P G : Nat} {p p' : Program}

theorem PStep.qstep {l : QOp} (h : PStep p l p') : QStep p.queue l p'.queue := by
  cases h with
  | goOn hq | finish hq | call _ _ hq | yield _ _ hq | exit _ _ hq => exact hq

theorem Program.Inv.step {l : QOp} (hi : p.Inv m hs P G) (h : PStep p l p') :
    p'.Inv m hs P G := by
  have hq := qinv_step hi.queue (qstep_effect h.qstep)
  -- a thread that waits after the step waited before, or is the caller
  have hwaiting : ∀ {op : Op}, Step p.queue.world op p'.queue.world → ∀ o t,
      t ∈ p'.queue.world.waiting o → t ∈ p.queue.world.waiting o ∨
        (p.queue.world.sched.current = some t ∧ op.waitsOn = some o) := fun hstep o t ht =>
    (step_effect hstep hi.queue.world.mainThread).waiting ht
  have hhalted : ∀ {op : Op}, Step p.queue.world op p'.queue.world → op ≠ .utDeactivate →
      p'.queue.world.halted = [] := fun hstep hop =>
    halted_step (step_effect hstep hi.queue.world.mainThread) hop hi.halted
  cases h.move hi.queue with
  | ended hr hstep hhead hd htodo =>
    obtain ⟨hold, hnew, _, _⟩ := ret_main hi.queue.world hr hstep
    have hleft : p'.left = p.left := by
      funext t
      exact Program.left_congr (by rw [hd]) (by rw [htodo])
    refine ⟨hq, hhalted hstep (by simp), by simp [hnew], ?_, ?_, ?_, ?_, fun _ => hnew⟩
    · intro t ht _
      rw [hleft]
      exact hi.gone t ht (by simp [hold])
    · rw [hleft]
      exact hi.oneSided
    · intro o t ht
      rw [hd]
      obtain ht | ⟨_, hno⟩ := hwaiting hstep o t ht
      · exact hi.waits o t ht
      · cases hno
    · simp only [Program.trade, hhead, hleft]
      exact hi.account
  | exit t hcur hstep hhead hd htodo hdone =>
    obtain ⟨hlive, hrun, _⟩ := exit_step hi.queue.world hcur hstep
    have hleft : p'.left = p.left := by
      funext u
      exact Program.left_congr (by rw [hd]) (by rw [htodo])
    refine ⟨hq, hhalted hstep (by simp), ?_, ?_, ?_, ?_, ?_, fun hr => absurd hr hrun⟩
    · rw [hlive]
      exact (Finset.erase_subset _ _).trans hi.parties
    · intro u hu hgone
      rw [hleft]
      by_cases hut : u = t
      · rw [hut, hdone]
      · rw [hlive, Finset.mem_erase, not_and] at hgone
        exact hi.gone u hu (hgone hut)
    · rw [hleft]
      exact hi.oneSided
    · intro o u hu
      rw [hd]
      obtain hu | ⟨_, hno⟩ := hwaiting hstep o u hu
      · exact hi.waits o u hu
      · cases hno
    · simp only [Program.trade, hhead, hleft]
      exact hi.account
  | call t op hcur hstep hop hkept hwaits hothers hleft hless =>
    have hlive := hi.queue.world.current_live hcur
    have hrest : ∀ u, u ≠ t → p'.left u = p.left u := fun u hu =>
      Program.left_congr (hothers u hu).1 (hothers u hu).2
    refine ⟨hq, hhalted hstep hop, by rw [hkept.live]; exact hi.parties, ?_, ?_, ?_, ?_,
      fun hr => absurd hr hkept.running⟩
    · intro u hu hgone
      rw [hkept.live] at hgone
      have hut : u ≠ t := fun he => hgone (he ▸ hlive)
      rw [hrest u hut]
      exact hi.gone u hu hgone
    · intro u
      by_cases hut : u = t
      · subst hut
        have hone := hi.oneSided u
        obtain ⟨hsame, _⟩ | ⟨a, ha, _⟩ := hleft
        · rwa [hsame]
        · rw [ha] at hone
          exact hone.tail
      · rw [hrest u hut]
        exact hi.oneSided u
    · intro o u hu
      obtain hu | ⟨hc, ho⟩ := hwaiting hstep o u hu
      · have hut : u ≠ t := fun he => hi.queue.world.current_not_waiting (he ▸ hcur) o hu
        rw [(hothers u hut).1]
        exact hi.waits o u hu
      · have hut : u = t := Option.some.inj (hc.symm.trans hcur)
        subst hut
        exact hwaits o ho
    · have hputs := sum_move (f := (p.trade m).puts) (g := (p'.trade m).puts) (hi.parties hlive)
        fun u hu => by simp only [Program.trade, hrest u hu]
      have hgets := sum_move (f := (p.trade m).gets) (g := (p'.trade m).gets) (hi.parties hlive)
        fun u hu => by simp only [Program.trade, hrest u hu]
      have hacc := hi.account
      obtain ⟨hsame, hhead⟩ | ⟨a, ha, hhead⟩ := hleft
      · simp only [Program.trade, hsame, hhead] at *
        omega
      · simp only [Program.trade, ha, List.countP_cons] at *
        cases hput : a.isPut <;> cases hget : a.isGet <;> simp [hput, hget] at * <;> omega

def Program.ahead (hs : Finset Handle) (p : Program) : Nat :=
  hs.sum p.weight + p.queue.world.sched.live.card +
    if p.queue.world.sched.runningThread = none then 0 else 1

theorem Program.Inv.ahead_step {l : QOp} (hi : p.Inv m hs P G) (h : PStep p l p') :
    p'.ahead hs + 1 ≤ p.ahead hs := by
  have hsame : ∀ u, p'.queue.doing u = p.queue.doing u → p'.todo u = p.todo u →
      p'.queue.world.pending u = p.queue.world.pending u → p'.weight u = p.weight u := by
    intro u hd htodo hpend
    rw [Program.weight, Program.weight, hd, htodo, hpend]
  unfold Program.ahead
  cases h.move hi.queue with
  | ended hr hstep hhead hd htodo =>
    obtain ⟨hold, hnew, hrun, hpend⟩ := ret_main hi.queue.world hr hstep
    have hsum : hs.sum p'.weight = hs.sum p.weight :=
      Finset.sum_congr rfl fun u _ => hsame u (by rw [hd]) (by rw [htodo]) (by rw [hpend])
    rw [hsum, hold, hnew, if_pos hrun, if_neg (by simp [hr])]
  | exit t hcur hstep hhead hd htodo hdone =>
    obtain ⟨hlive, hrun, hpend⟩ := exit_step hi.queue.world hcur hstep
    have hsum : hs.sum p'.weight = hs.sum p.weight :=
      Finset.sum_congr rfl fun u _ => hsame u (by rw [hd]) (by rw [htodo]) (by rw [hpend])
    have hcard := Finset.card_erase_add_one (hi.queue.world.current_live hcur)
    rw [hsum, hlive, if_neg hrun, if_neg (by simp [current_eq_some.1 hcur])]
    omega
  | call t op hcur hstep hop hkept hwaits hothers hleft hless =>
    have hsum := sum_move (f := p.weight) (g := p'.weight)
      (hi.parties (hi.queue.world.current_live hcur))
      fun u hu => hsame u (hothers u hu).1 (hothers u hu).2 (hkept.pending u hu)
    rw [hkept.live, if_neg hkept.running, if_neg (by simp [current_eq_some.1 hcur])]
    omega

theorem lib_progress {q : QWorld} {op : Op} {w : World} (hs : Step q.world op w)
    (hend : q.ending = none) (htouch : op.touches = none) : ∃ q', QStep q (.lib op) q' := by
  refine ⟨{ q with world := w }, ⟨hend, hs.1, by simp [htouch], by simp [htouch]⟩, ?_⟩
  simp only [qexec, hs.2]
  rfl

theorem finish_progress {m : Int32} {q : QWorld} (hi : QInv m q) {t : Handle} {c : Call}
    (hcur : q.world.sched.current = some t) (hmid : q.world.midCall = false)
    (hdo : q.doing t = some c) : ∃ q', QStep q .finish q' := by
  have hend : q.ending.isSome := by simp [QWorld.ending, hmid, hcur, hdo]
  suffices hok : ∃ q', qexec .finish q = .ok q' by
    obtain ⟨q', hq⟩ := hok
    exact ⟨q', hend, hq⟩
  simp only [qexec, hcur, callRest, hdo]
  cases c with
  | put msg => exact ⟨_, rfl⟩
  | get =>
    have hpos := hi.unused_pos hcur hdo
    have hnn := hi.elem.nonneg
    have helems := hi.elems
    simp only [Call.waits] at hpos
    cases hhead : q.head with
    | nil =>
      rw [hhead] at helems
      simp only [List.length_nil] at helems
      omega
    | cons node head =>
      simp only [queueGet, hhead]
      exact ⟨_, rfl⟩

theorem enter_progress {q : QWorld} {t : Handle} {c : Call} {w : World}
    (hs : Step q.world (.semWait c.waits 1) w) (hcur : q.world.sched.current = some t)
    (hend : q.ending = none) (hmid : q.world.midCall = false) : ∃ q', QStep q (.enter c) q' := by
  refine ⟨{ q with world := w, doing := update q.doing t (some c) },
    ⟨hend, hmid, by simp [hcur]⟩, ?_⟩
  simp only [qexec, hcur, Call.enter, hs.2]
  rfl

theorem Program.Inv.progress (hi : p.Inv m hs P G) {t : Handle}
    (hcur : p.queue.world.sched.current = some t) : ∃ l p', PStep p l p' := by
  have hw := hi.queue.world
  cases hmid : p.queue.world.midCall with
  | true =>
    obtain ⟨w, hs⟩ := hw.progress .ret hcur ⟨by simp [hmid], rfl⟩ (by simp)
    obtain ⟨q', hq⟩ := lib_progress hs (by simp [QWorld.ending, hmid]) rfl
    exact ⟨_, _, PStep.goOn hq⟩
  | false =>
    have hall : ∀ op, p.queue.world.admits op = true → op ≠ .ret →
        Allowed p.queue.world op := by
      intro op hadm hop
      exact ⟨by simp [hmid, hop], hadm⟩
    cases hdo : p.queue.doing t with
    | some c =>
      obtain ⟨q', hq⟩ := finish_progress hi.queue hcur hmid hdo
      exact ⟨_, _, PStep.finish hq⟩
    | none =>
      have hend : p.queue.ending = none := by simp [QWorld.ending, hmid, hcur, hdo]
      cases htodo : p.todo t with
      | nil =>
        obtain ⟨w, hs⟩ := hw.progress .utExit hcur (hall _ rfl (by simp)) (by simp)
        obtain ⟨q', hq⟩ := lib_progress hs hend rfl
        exact ⟨_, _, PStep.exit hcur htodo hq⟩
      | cons a rest =>
        cases a with
        | yield =>
          obtain ⟨w, hs⟩ := hw.progress .utYield hcur (hall _ rfl (by simp)) (by simp)
          obtain ⟨q', hq⟩ := lib_progress hs hend rfl
          exact ⟨_, _, PStep.yield hcur htodo hq⟩
        | call c =>
          obtain ⟨w, hs⟩ := hw.progress (.semWait c.waits 1) hcur (hall _ rfl (by simp))
            (by simp)
          obtain ⟨q', hq⟩ := enter_progress hs hcur hend hmid
          exact ⟨_, _, PStep.call hcur htodo hq⟩

theorem Program.Inv.blocked (hi : p.Inv m hs P G)
    (hr : p.queue.world.sched.runningThread = some .main) {t : Handle}
    (ht : t ∈ p.queue.world.sched.live) : ∃ c, p.queue.doing t = some c ∧
      t ∈ p.queue.world.waiting (.sem c.waits) := by
  obtain ⟨o, ho⟩ := (hi.queue.world.live_iff_blocked hi.halted hr t).1 ht
  obtain ⟨c, hc, rfl⟩ := hi.waits o t ho
  exact ⟨c, hc, ho⟩

theorem Program.Inv.unused (hi : p.Inv m hs P G)
    (hr : p.queue.world.sched.runningThread = some .main) {t : Handle} {i : Nat}
    (ht : t ∈ p.queue.world.waiting (.sem i)) (hsem : SemOf m p.queue i) :
    p.queue.unused i = 0 := by
  have hno : p.queue.granted i = ∅ := by
    rw [Finset.eq_empty_iff_forall_notMem]
    intro u hu
    obtain ⟨hcur, _⟩ := hi.queue.granted_running (hi.queue.world.drained hr) hu
    rw [current_eq_some, hr] at hcur
    cases hcur
  rw [QWorld.unused, hno, units_zero hsem ht]
  rfl

theorem Program.Inv.stuck (hi : p.Inv m hs P G)
    (hr : p.queue.world.sched.runningThread = some .main) : (p.trade m).Stuck hs := by
  have hleft : ∀ t ∈ hs, p.left t ≠ [] → ∃ c, p.queue.doing t = some c ∧
      t ∈ p.queue.world.waiting (.sem c.waits) := by
    intro t ht hne
    by_contra hno
    exact hne (hi.gone t ht fun hlive => hno (hi.blocked hr hlive))
  refine ⟨?_, ?_⟩
  · intro t ht hpos
    obtain ⟨c, hc, hw⟩ := hleft t ht (by
      intro he
      simp [Program.trade, he] at hpos)
    have hone := hi.oneSided t
    cases c with
    | get =>
      have hget : 0 < (p.left t).countP Act.isGet := by
        rw [Program.left_of_doing hc, List.countP_cons_of_pos rfl]
        omega
      have hput : 0 < (p.left t).countP Act.isPut := hpos
      unfold OneSided at hone
      omega
    | put msg =>
      have hzero := hi.unused hr hw hi.queue.space
      have hspaces := hi.queue.spaces
      simp only [Call.waits] at hzero
      change p.queue.head.length = m.toInt.toNat
      omega
  · intro t ht hpos
    obtain ⟨c, hc, hw⟩ := hleft t ht (by
      intro he
      simp [Program.trade, he] at hpos)
    have hone := hi.oneSided t
    cases c with
    | put msg =>
      have hput : 0 < (p.left t).countP Act.isPut := by
        rw [Program.left_of_doing hc, List.countP_cons_of_pos rfl]
        omega
      have hget : 0 < (p.left t).countP Act.isGet := hpos
      unfold OneSided at hone
      omega
    | get =>
      have hzero := hi.unused hr hw hi.queue.elem
      have helems := hi.queue.elems
      simp only [Call.waits] at hzero
      change p.queue.head.length = 0
      omega

theorem Program.Inv.not_done (hi : p.Inv m hs P G)
    (hr : p.queue.world.sched.runningThread = some .main)
    (hlive : p.queue.world.sched.live ≠ ∅) : ¬ (p.trade m).Done hs := by
  intro hdone
  obtain ⟨t, ht⟩ := Finset.nonempty_iff_ne_empty.2 hlive
  obtain ⟨c, hc, _⟩ := hi.blocked hr ht
  obtain ⟨hput, hget⟩ := hdone t (hi.parties ht)
  simp only [Program.trade, Program.left_of_doing hc] at hput hget
  cases c with
  | put msg => simp [Act.isPut] at hput
  | get => simp [Act.isGet] at hget

theorem Program.Inv.finish (hi : p.Inv m hs P G)
    (hr : p.queue.world.sched.runningThread = some .main)
    (hlive : p.queue.world.sched.live = ∅) : ∃ l p', PStep p l p' := by
  have hzero : p.queue.world.sched.numberOfThreads = 0 := by
    rw [hi.queue.world.count, hlive, Finset.card_empty]
  have hend : utRunEnd p.queue.world.sched =
      .ok { p.queue.world.sched with runningThread := none, mainThread := none } := by
    simp [utRunEnd, hi.queue.world.drained hr, isListEmpty, hzero]
  have hexec : exec .ret p.queue.world = .ok { p.queue.world with
      sched := { p.queue.world.sched with runningThread := none, mainThread := none } } := by
    simp only [exec, hr, hend]
    rfl
  have hmid : p.queue.world.midCall = true := by simp [World.midCall, hr]
  obtain ⟨q', hq⟩ := lib_progress ⟨⟨by simp [hmid], rfl⟩, hexec⟩
    (by simp [QWorld.ending, hmid]) rfl
  exact ⟨_, _, PStep.goOn hq⟩

end Invariant

/-- The state in which the threads `hs` have been created, and none of them has run. -/
structure Fresh (live : Finset Handle) (q : QWorld) : Prop where
  live : q.world.sched.live = live
  idle : ∀ t, q.doing t = none
  head : q.head = []
  halted : q.world.halted = []
  waiting : ∀ o, q.world.waiting o = []

theorem Fresh.created {m : Int32} {c : Config} {hs : List Handle} {q : QWorld}
    (h : Runs QStep (queueInit m c) (hs.map fun h => .lib (.utCreate h)) q) :
    Fresh hs.toFinset q ∧ q.world.sched.runningThread = none := by
  induction hs using List.reverseRecOn generalizing q with
  | nil =>
    rw [h.nil_inv]
    refine ⟨⟨rfl, fun _ => rfl, rfl, rfl, ?_⟩, rfl⟩
    intro o
    cases o <;> rfl
  | append_singleton hs x ih =>
    rw [List.map_append] at h
    obtain ⟨q1, hrun, hq⟩ := h.snoc_inv
    obtain ⟨hf, hr⟩ := ih hrun
    obtain ⟨hs', he, _⟩ := lib_step hq
    have hw : q.world = { q1.world with
        sched := utCreate x q1.world.sched
        pending := update q1.world.pending x none } := (Except.ok.inj hs'.2).symm
    refine ⟨⟨?_, ?_, ?_, ?_, ?_⟩, ?_⟩
    · rw [hw]
      simp [utCreate, utActivate, Sched.activateAll, hf.live]
    · intro t
      rw [he]
      exact hf.idle t
    · rw [he]
      exact hf.head
    · rw [hw]
      exact hf.halted
    · intro o
      rw [hw]
      have := hf.waiting o
      cases o <;> simpa using this
    · rw [hw]
      exact hr

theorem Fresh.started {m : Int32} (hm : 1 ≤ m.toInt) {c : Config} {hs : List Handle} {q : QWorld}
    (h : Runs QStep (queueInit m c) (startOps hs) q) : Fresh hs.toFinset q ∧
      (q.world.sched.runningThread = none → q.world.sched.live = ∅) := by
  have hinv := (qinv_of_runs hm h).world
  obtain ⟨q1, hrun, hq⟩ := h.snoc_inv
  obtain ⟨hf, hr⟩ := Fresh.created hrun
  obtain ⟨hs', he, _⟩ := lib_step hq
  obtain ⟨s, hsched, hw⟩ := bind_ok hs'.2
  have hw : q.world = { q1.world with sched := s } := (Except.ok.inj hw).symm
  have hwaiting : ∀ o, q.world.waiting o = [] := by
    intro o
    rw [hw]
    have hwait := hf.waiting o
    cases o <;> simpa using hwait
  have hhalted : q.world.halted = [] := by
    rw [hw]
    exact hf.halted
  have hlive : s.live = q1.world.sched.live := by
    obtain rfl | ⟨_, rfl⟩ := utRun_cases hsched
    · rfl
    · exact dispatch_live _
  refine ⟨⟨?_, ?_, ?_, hhalted, hwaiting⟩, ?_⟩
  · rw [hw, ← hf.live]
    exact hlive
  · intro t
    rw [he]
    exact hf.idle t
  · rw [he]
    exact hf.head
  · -- `ut_run` returned at once: nothing was ready, so nothing was created
    intro hnone
    have hready : q.world.sched.readyQueue = [] := by
      rw [hw] at hnone ⊢
      unfold utRun at hsched
      rw [if_neg (by simp [hr])] at hsched
      split at hsched
      · rename_i hempty
        cases hsched
        simpa [isListEmpty] using hempty
      · have hs' := schedule_eq_dispatch hsched (Or.inr rfl)
        rw [hs'] at hnone
        exact absurd hnone (dispatch_running _)
    rw [Finset.eq_empty_iff_forall_notMem]
    intro t ht
    obtain ⟨p, hp⟩ := (hinv.partition.mem_live t).1 ht
    cases p with
    | running => simp [Sched.current, hnone] at hp
    | ready => simp [hready] at hp
    | waiters o => simp [hwaiting o] at hp
    | halted => simp [hhalted] at hp

/-- The puts, or the gets, of the threads `hs`. -/
def total (kind : Act → Bool) (hs : List Handle) (script : Handle → List Act) : Nat :=
  hs.toFinset.sum fun t => (script t).countP kind

theorem Fresh.inv {m : Int32} {hs : List Handle} {q : QWorld} (hf : Fresh hs.toFinset q)
    (hi : QInv m q) (hover : q.world.sched.runningThread = none → q.world.sched.live = ∅)
    {script : Handle → List Act} (hone : ∀ t, OneSided Act.isPut Act.isGet (script t)) :
    Program.Inv m hs.toFinset (total Act.isPut hs script) (total Act.isGet hs script)
      ⟨q, script⟩ := by
  have hleft : ∀ t, (Program.mk q script).left t = script t := fun t => by
    simp [Program.left, hf.idle t]
  refine ⟨hi, hf.halted, by simp [hf.live], ?_, ?_, ?_, ?_, hover⟩
  · intro t ht hgone
    exact absurd ht (by simpa [hf.live] using hgone)
  · intro t
    rw [hleft]
    exact hone t
  · intro o t ht
    rw [hf.waiting o] at ht
    cases ht
  · simp only [Program.trade, hleft, hf.head, total, List.length_nil]
    omega

/-- Threads that only put or only get, created before `ut_run`: for every queue of at least one
place and every number of them, all runs come to an end, and `ut_run` returns with all of them
exited and the other messages in the queue exactly when there is a put for each get, and the queue
has room for the other puts. -/
theorem program_returns_iff {m : Int32} (hm : 1 ≤ m.toInt) {c : Config} {hs : List Handle}
    {q : QWorld} (hstart : Runs QStep (queueInit m c) (startOps hs) q)
    {script : Handle → List Act} (hone : ∀ t, OneSided Act.isPut Act.isGet (script t)) :
    (Returns PStep ⟨q, script⟩ (fun _ => false) Program.result
        (∅, total Act.isPut hs script - total Act.isGet hs script) ↔
      total Act.isGet hs script ≤ total Act.isPut hs script ∧
        total Act.isPut hs script ≤ total Act.isGet hs script + m.toInt.toNat) ∧
    ∃ n, ∀ ls p, Runs PStep ⟨q, script⟩ ls p → ls.length ≤ n := by
  obtain ⟨hf, hover⟩ := Fresh.started hm hstart
  have hinit := hf.inv (qinv_of_runs hm hstart) hover hone
  have hkeep : ∀ (a : Program) l b, Program.Inv m hs.toFinset (total Act.isPut hs script)
      (total Act.isGet hs script) a → PStep a l b → b.Inv m hs.toFinset
        (total Act.isPut hs script) (total Act.isGet hs script) := fun a l b hi h => hi.step h
  refine ⟨?_, ?_⟩
  · apply returns_iff hs.toFinset 0 _ (Program.trade m) (Program.ahead hs.toFinset) _ hinit hkeep
    · intro a hi
      refine ⟨⟨hi.account, ?_⟩, rfl⟩
      have hfits := hi.queue.fits
      change a.queue.head.length ≤ m.toInt.toNat
      omega
    · intro a y hi hy
      unfold Program.result at hy
      split at hy
      · rename_i hr
        have hlive := hi.ended hr
        have hdone : (a.trade m).Done hs.toFinset := by
          intro t ht
          have hgone := hi.gone t ht (by simp [hlive])
          simp [Program.trade, hgone]
        obtain ⟨hputs, hgets⟩ := Trade.done_iff.mp hdone
        have hacc := hi.account
        have hlen : a.queue.head.length =
            total Act.isPut hs script - total Act.isGet hs script := by omega
        rw [← Option.some.inj hy, hlive, hlen]
        exact ⟨rfl, hdone⟩
      · cases hy
    · intro a hi hnone
      cases hr : a.queue.world.sched.runningThread with
      | none => simp [Program.result, hr] at hnone
      | some r =>
        cases r with
        | user t =>
          obtain ⟨l, u, h⟩ := hi.progress (current_eq_some.2 hr)
          exact Or.inl ⟨l, u, h, rfl⟩
        | main =>
          by_cases hlive : a.queue.world.sched.live = ∅
          · obtain ⟨l, u, h⟩ := hi.finish hr hlive
            exact Or.inl ⟨l, u, h, rfl⟩
          · exact Or.inr ⟨hi.stuck hr, hi.not_done hr hlive⟩
    · intro a l b hi h
      simpa using hi.ahead_step h
    · omega
  · obtain ⟨n, hn⟩ := @bounded_of_invariant _ _ _ _ (fun _ => false) _
      (Program.ahead hs.toFinset) 0 hinit hkeep
      fun a l b hi h => by simpa using hi.ahead_step h
    exact ⟨n, fun ls p hrun => by simpa using hn ls p hrun⟩

def sender : Handle → List Act :=
  fun t => if t = 1 then [.call (.put [104]), .yield, .call (.put [105])] else []

def senderReceiver : Handle → List Act :=
  update sender 2 [.call .get]

/-- A queue of one place: both come to their ends with one message left, the sender alone does
not. -/
theorem program_returns_iff_two : ∃ q, Runs QStep (queueInit 1 Config.plain) (startOps [1, 2]) q ∧
    Returns PStep ⟨q, senderReceiver⟩ (fun _ => false) Program.result (∅, 1) ∧
    ¬ Returns PStep ⟨q, sender⟩ (fun _ => false) Program.result (∅, 2) ∧
    ∃ n, ∀ ls p, Runs PStep ⟨q, sender⟩ ls p → ls.length ≤ n := by
  have hrun := runs_of_runAll QAllowed qexec (startOps [1, 2]) (queueInit 1 Config.plain) rfl
  have hsender : ∀ t, OneSided Act.isPut Act.isGet (sender t) := by
    intro t
    unfold sender
    split
    · exact Or.inr rfl
    · exact Or.inr rfl
  have hboth : ∀ t, OneSided Act.isPut Act.isGet (senderReceiver t) := by
    intro t
    unfold senderReceiver
    by_cases ht : t = 2
    · rw [ht, update_self]
      exact Or.inl rfl
    · rw [update_of_ne ht]
      exact hsender t
  obtain ⟨hiff, hbounded⟩ := program_returns_iff (by decide) hrun hsender
  refine ⟨_, hrun, (program_returns_iff (by decide) hrun hboth).1.mpr (by decide), ?_, hbounded⟩
  intro h
  have hfit := hiff.mp h
  exact absurd hfit (by decide)

end OsCourse.Queue
