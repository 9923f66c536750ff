import OsCourse.Lib.Flags
import OsCourse.UThread.Event
import OsCourse.UThread.Programs

/-! Threads that wait for events and set them, like those of event_test.c. Which of them come to
their ends, and so whether `ut_run` returns, follows from what each of them does. -/
namespace OsCourse.UThread.Programs
open Calls Flags Function Placement Transition
variable {σ : Type*}

def Act.kind : Act σ → Kind Nat
  | .wait e => .await e
  | .set e => .raise e
  | _ => .other

def Program.up (p : Program σ) (e : Nat) : Prop := (p.world.events e).signaled = true

/-- What thread `t` has to do, with the call it is blocked in. -/
def Program.left (p : Program σ) (t : Handle) : List (Act σ) :=
  match p.world.pending t with
  | some (.eventWait e) => if (p.world.events e).signaled then p.todo t else .wait e :: p.todo t
  | _ => p.todo t

/-- No thread can go on: the threads that are left, and the events that are signaled. -/
def Program.settled (p : Program σ) : Option (Finset Handle × (Nat → Bool)) :=
  if p.world.sched.current = none then
    some (p.world.sched.live, fun e => (p.world.events e).signaled)
  else none

def Program.returned (p : Program σ) : Option Unit :=
  if p.world.sched.runningThread = none then some () else none

section Invariant
variable {p p' : Program σ} {l : Label} {hs : Finset Handle} {script : Handle → List (Act σ)}
  {t : Handle} {w w' : World}

structure Program.Waiting (hs : Finset Handle) (script : Handle → List (Act σ))
    (p : Program σ) : Prop where
  inv : p.Inv hs
  waiters : ∀ e, WaitersInv p.world e
  calls : ∀ t op, p.world.pending t = some op → ∃ a : Act σ, a.op = some op
  halted : p.world.halted = []
  gone : ∀ t ∈ hs, t ∉ p.world.sched.live → p.left t = []
  ended : p.world.sched.runningThread = none → p.world.sched.live = ∅
  sound : Sound Act.kind hs script p.up p.left

theorem signaled_step {op : Op} (h : Step w op w') (e : Nat) :
    (w'.events e).signaled = true ↔ (w.events e).signaled = true ∨ op = .eventSet e := by
  by_cases hret : op = .ret
  · subst hret
    obtain ⟨hev, _⟩ | ⟨t, _, rfl⟩ := ret_step h
    · rw [hev]
      simp
    · simp only [World.resume, World.logReturn]
      split <;> simp
  by_cases ht : op.touches = some (.event e)
  · cases op with
    | eventWait e' =>
      cases ht
      have hs := eventWait_step h
      obtain ⟨_, hev, _⟩ | ⟨_, hsig, _, _, hev⟩ := eventWait_cases hs
      · rw [hev]
        simp
      · rw [hev]
        simp
    | eventSet e' =>
      cases ht
      have hset : w'.events e = (eventSet (w.events e) w.sched).1 :=
        congrArg Prod.fst (eventSet_step h)
      rw [hset, eventSet_eq]
      simp
    | _ => simp [Op.touches] at ht
  · have hsame := (step_frame h).2.2 e ht hret
    have hne : op ≠ .eventSet e := by
      intro he
      rw [he] at ht
      exact ht rfl
    rw [hsame]
    simp [hne]

theorem pending_of_allowed {op : Op} (hcur : w.sched.current = some t) (hall : Allowed w op)
    (hop : op ≠ .ret) : w.pending t = none := by
  have hmid : ¬ w.midCall = true := fun hm => hop (hall.1.1 hm)
  simpa [World.midCall, current_eq_some.1 hcur] using hmid

theorem resume_pending_self (w : World) (t : Handle) : (w.resume t).pending t = none := by
  simp [World.resume]

theorem resume_pending_ne {u : Handle} (hu : u ≠ t) :
    (w.resume t).pending u = w.pending u := by
  simp [World.resume, hu]

theorem left_of_none (h : p.world.pending t = none) : p.left t = p.todo t := by
  unfold Program.left
  rw [h]

theorem left_kept (hup : ∀ e, p.up e → p'.up e) (hpend : p'.world.pending t = p.world.pending t)
    (htodo : p'.todo t = p.todo t) :
    ∃ more, p.left t = more ++ p'.left t ∧ ∀ a ∈ more, Passed Act.kind p'.up a := by
  unfold Program.left
  rw [hpend, htodo]
  cases hop : p.world.pending t with
  | none => exact ⟨[], rfl, nofun⟩
  | some op =>
    cases op with
    | eventWait e =>
      dsimp only
      by_cases hnew : (p'.world.events e).signaled = true
      · rw [if_pos hnew]
        split
        · exact ⟨[], rfl, nofun⟩
        · refine ⟨[.wait e], rfl, ?_⟩
          intro a ha
          rw [List.mem_singleton.mp ha]
          exact hnew
      · have hold : ¬ (p.world.events e).signaled = true := fun h => hnew (hup e h)
        rw [if_neg hnew, if_neg hold]
        exact ⟨[], rfl, nofun⟩
    | _ => exact ⟨[], rfl, nofun⟩

theorem Program.Waiting.advance (hi : p.Waiting hs script) (p' : Program σ) (t : Handle)
    (hup : ∀ e, p.up e → p'.up e)
    (hothers : ∀ u, u ≠ t → p'.world.pending u = p.world.pending u ∧ p'.todo u = p.todo u)
    (hself : ∃ more, p.left t = more ++ p'.left t ∧ ∀ a ∈ more, Passed Act.kind p'.up a)
    (hnew : ∀ e, p'.up e → p.up e ∨ t ∈ hs ∧ ∃ rest, p.left t = .set e :: rest) :
    Sound Act.kind hs script p'.up p'.left ∧
      ∀ u ∈ hs, u ∉ p.world.sched.live → p'.left u = [] := by
  have hleft : ∀ u, ∃ more, p.left u = more ++ p'.left u ∧
      ∀ a ∈ more, Passed Act.kind p'.up a := by
    intro u
    by_cases hu : u = t
    · rw [hu]
      exact hself
    · obtain ⟨hpend, htodo⟩ := hothers u hu
      exact left_kept hup hpend htodo
  refine ⟨hi.sound.advance hup (fun u _ => hleft u) ?_, ?_⟩
  · intro e he
    obtain hold | ⟨ht, rest, hnext⟩ := hnew e he
    · exact Or.inl hold
    · exact Or.inr ⟨t, ht, _, rest, hnext, rfl⟩
  · intro u hu hdead
    obtain ⟨more, hmore, _⟩ := hleft u
    rw [hi.gone u hu hdead] at hmore
    exact (List.append_eq_nil_iff.mp hmore.symm).2

theorem Program.Waiting.waits (hi : p.Waiting hs script) {o : Sync}
    (ht : t ∈ p.world.waiting o) :
    ∃ e, p.left t = .wait e :: p.todo t ∧ ¬ p.up e := by
  obtain ⟨op, hop, hwaits⟩ := hi.inv.world.waits o t ht
  obtain ⟨a, ha⟩ := hi.calls t op hop
  cases a with
  | print => cases ha
  | yield | set =>
    cases ha
    cases hwaits
  | wait e =>
    cases ha
    cases hwaits
    have hnot : ¬ p.up e := by
      intro hup
      have hempty := (hi.waiters e).event.released hup
      rw [waiting_event, hempty] at ht
      cases ht
    refine ⟨e, ?_, hnot⟩
    unfold Program.left
    rw [hop]
    exact if_neg hnot

/-- With no thread running, all have come to their ends or wait for events that are not up. -/
theorem Program.Waiting.stopped (hi : p.Waiting hs script)
    (hcur : p.world.sched.current = none) :
    Settled Act.kind hs p.up p.left ∧ ∀ t ∈ hs, t ∉ p.world.sched.live ↔ p.left t = [] := by
  have hlive : ∀ t, t ∈ p.world.sched.live → ∃ o, t ∈ p.world.waiting o := by
    intro t ht
    cases hr : p.world.sched.runningThread with
    | none =>
      rw [hi.ended hr] at ht
      cases ht
    | some r =>
      cases r with
      | main => exact (hi.inv.world.live_iff_blocked hi.halted hr t).1 ht
      | user u =>
        rw [current_eq_some.2 hr] at hcur
        cases hcur
  constructor
  · intro t ht
    by_cases hin : t ∈ p.world.sched.live
    · obtain ⟨o, ho⟩ := hlive t hin
      obtain ⟨e, hleft, hnot⟩ := hi.waits ho
      exact Or.inr ⟨.wait e, p.todo t, e, hleft, rfl, hnot⟩
    · exact Or.inl (hi.gone t ht hin)
  · intro t ht
    constructor
    · exact hi.gone t ht
    · intro hend hin
      obtain ⟨o, ho⟩ := hlive t hin
      obtain ⟨e, hleft, _⟩ := hi.waits ho
      rw [hend] at hleft
      cases hleft

theorem Program.Waiting.resumed (hi : p.Waiting hs script) (hcur : p.world.sched.current = some t) :
    p.left t = p.todo t := by
  unfold Program.left
  split
  · rename_i e hpend
    obtain ⟨_, hin | hset⟩ := (hi.waiters e).inside t hpend
    · exact absurd hin (hi.inv.world.current_not_waiting hcur _)
    · rw [if_pos ((hi.waiters e).event.signaled_iff.2 hset)]
  · rfl

theorem up_of_step {op : Op} (h : Step p.world op w) {todo : Handle → List (Act σ)} {out : List σ}
    {e : Nat} (he : p.up e) : (Program.mk w todo out).up e :=
  (signaled_step h e).2 (Or.inl he)

theorem up_of_new {op : Op} (h : Step p.world op w) {todo : Handle → List (Act σ)} {out : List σ}
    {e : Nat} (he : (Program.mk w todo out).up e) (hop : op ≠ .eventSet e) : p.up e :=
  ((signaled_step h e).1 he).resolve_right hop

theorem Program.Waiting.call (hi : p.Waiting hs script) {a : Act σ} {op : Op}
    {rest : List (Act σ)} (hcur : p.world.sched.current = some t) (htodo : p.todo t = a :: rest)
    (hop : a.op = some op) (h : Step p.world op w) :
    ∃ more, p.left t = more ++ (Program.mk w (update p.todo t rest) p.out).left t ∧
      ∀ b ∈ more, Passed Act.kind (Program.mk w (update p.todo t rest) p.out).up b := by
  have hinv := inv_step hi.inv.world h
  obtain ⟨_, _, _, hret, _⟩ := Act.op_kept hop
  have hnone := pending_of_allowed hcur h.1 hret
  have hbefore : p.left t = a :: rest := (left_of_none hnone).trans htodo
  have hpend := fun o => pending_step (step_effect h hi.inv.world.mainThread) (t := t) (o := o)
  unfold Program.left at hbefore ⊢
  rw [hbefore]
  simp only [update_self]
  cases a with
  | print => cases hop
  | yield =>
    cases hop
    refine ⟨[.yield], ?_, ?_⟩
    · split
      · rename_i e he
        obtain hold | ⟨hcall, _⟩ := hpend _ he
        · rw [hnone] at hold
          cases hold
        · cases hcall
      · rfl
    · intro b hb
      rw [List.mem_singleton.mp hb]
      trivial
  | set e =>
    cases hop
    refine ⟨[.set e], ?_, ?_⟩
    · split
      · rename_i e' he
        obtain hold | ⟨hcall, _⟩ := hpend _ he
        · rw [hnone] at hold
          cases hold
        · cases hcall
      · rfl
    · intro b hb
      rw [List.mem_singleton.mp hb]
      exact (signaled_step h e).2 (Or.inr rfl)
  | wait e =>
    cases hop
    have hs := eventWait_step h
    obtain ⟨hsig, _, hsched⟩ | ⟨u, hsig, hu, _, hev⟩ := eventWait_cases hs
    · -- an event that is up lets the thread go on
      have hgo : w.pending t = none := by
        cases hw : w.pending t with
        | none => rfl
        | some o =>
          obtain hold | ⟨_, _, hout⟩ := hpend o hw
          · rw [hnone] at hold
            cases hold
          · rw [hsched] at hout
            exact absurd hcur hout
      rw [hgo]
      refine ⟨[.wait e], rfl, ?_⟩
      intro b hb
      rw [List.mem_singleton.mp hb]
      exact (signaled_step h e).2 (Or.inl hsig)
    · rw [hcur] at hu
      cases hu
      have hin : t ∈ w.waiting (.event e) := by
        rw [waiting_event, hev]
        simp
      obtain ⟨o, ho, hwaits⟩ := hinv.waits _ t hin
      have hcall : o = .eventWait e := by
        obtain hold | ⟨hcall, _⟩ := hpend o ho
        · rw [hnone] at hold
          cases hold
        · exact hcall.symm
      have hnot : (w.events e).signaled = false := by
        rw [hev]
        exact hsig
      rw [ho, hcall]
      simp only [hnot]
      exact ⟨[], rfl, nofun⟩

theorem PStep.waiting (hi : p.Waiting hs script) (h : PStep p l p') : p'.Waiting hs script := by
  have hinv := h.kept hi.inv
  cases h with
  | @goOn w hs' =>
    have hwaiters := fun e => waitersInv_step hi.inv.world (hi.waiters e) hs'
    obtain rfl | ⟨_, s, hend, rfl⟩ | ⟨t, hcur, rfl⟩ := ret_cases hs'.2
    · exact ⟨hinv, hi.waiters, hi.calls, hi.halted, hi.gone, hi.ended, hi.sound⟩
    · obtain ⟨_, hzero, rfl⟩ := utRunEnd_eq hend
      refine ⟨hinv, hwaiters, hi.calls, hi.halted, hi.gone, ?_, hi.sound⟩
      intro _
      rw [← Finset.card_eq_zero]
      exact hi.inv.world.count.symm.trans hzero
    · have hself : p.left t = p.todo t := hi.resumed hcur
      have hself' : (Program.mk (p.world.resume t) p.todo p.out).left t = p.todo t :=
        left_of_none (resume_pending_self p.world t)
      obtain ⟨hsound, hgone⟩ := hi.advance (Program.mk (p.world.resume t) p.todo p.out) t
        (fun e he => up_of_step hs' he)
        (fun u hu => ⟨resume_pending_ne hu, rfl⟩)
        ⟨[], hself.trans hself'.symm, by simp⟩
        (fun e he => Or.inl (up_of_new hs' he (by simp)))
      refine ⟨hinv, hwaiters, ?_, hi.halted, hgone, hi.ended, hsound⟩
      intro u o ho
      by_cases hu : u = t
      · rw [hu] at ho
        cases (resume_pending_self p.world t).symm.trans ho
      · exact hi.calls u o ((resume_pending_ne hu).symm.trans ho)
  | @print t x rest hcur hmid htodo =>
    have hnone : p.world.pending t = none := by
      simpa [World.midCall, current_eq_some.1 hcur] using hmid
    have hself' : (Program.mk p.world (update p.todo t rest) (p.out ++ [x])).left t = rest := by
      unfold Program.left
      dsimp only
      rw [hnone]
      exact update_self t rest p.todo
    obtain ⟨hsound, hgone⟩ := hi.advance
      (Program.mk p.world (update p.todo t rest) (p.out ++ [x])) t
      (fun _ he => he) (fun u hu => ⟨rfl, update_of_ne hu rest p.todo⟩)
      ⟨[.print x], by rw [hself', left_of_none hnone, htodo, List.singleton_append], by
        intro a ha
        rw [List.mem_singleton.mp ha]
        trivial⟩
      (fun _ he => Or.inl he)
    exact ⟨hinv, hi.waiters, hi.calls, hi.halted, hgone, hi.ended, hsound⟩
  | @call w t a op rest hcur htodo hop hs' =>
    obtain ⟨hnew, hexit, hrun, hret, hdeact⟩ := Act.op_kept hop
    have hkept := step_kept hi.inv.world hcur hs' hnew hexit hrun
    have heffect := step_effect hs' hi.inv.world.mainThread
    obtain ⟨hsound, hgone⟩ := hi.advance (Program.mk w (update p.todo t rest) p.out) t
      (fun e he => up_of_step hs' he)
      (fun u hu => ⟨hkept.pending u hu, update_of_ne hu rest p.todo⟩)
      (hi.call hcur htodo hop hs') (by
        intro e he
        by_cases hset : op = .eventSet e
        · right
          refine ⟨hi.inv.parties (hi.inv.world.current_live hcur), rest, ?_⟩
          rw [left_of_none (pending_of_allowed hcur hs'.1 hret), htodo]
          rw [hset] at hop
          cases a <;> cases hop
          rfl
        · exact Or.inl (up_of_new hs' he hset))
    refine ⟨hinv, fun e => waitersInv_step hi.inv.world (hi.waiters e) hs', ?_,
      halted_step heffect hdeact hi.halted, ?_, fun hr => absurd hr hkept.running, hsound⟩
    · intro u o ho
      obtain hold | ⟨rfl, _⟩ := pending_step heffect ho
      · exact hi.calls u o hold
      · exact ⟨a, hop⟩
    · intro u hu hdead
      apply hgone u hu
      rw [← hkept.live]
      exact hdead
  | @exit w t hcur htodo hs' =>
    obtain ⟨hlive, hrun, hpend⟩ := exit_step hi.inv.world hcur hs'
    have hnone := pending_of_allowed hcur hs'.1 (by simp)
    obtain ⟨hsound, hgone⟩ := hi.advance (Program.mk w p.todo p.out) t
      (fun e he => up_of_step hs' he) (fun u _ => ⟨congrFun hpend u, rfl⟩)
      (left_kept (fun e he => up_of_step hs' he) (congrFun hpend t) rfl)
      (fun e he => Or.inl (up_of_new hs' he (by simp)))
    refine ⟨hinv, fun e => waitersInv_step hi.inv.world (hi.waiters e) hs', ?_,
      halted_step (step_effect hs' hi.inv.world.mainThread) (by simp) hi.halted, ?_,
      fun hr => absurd hr hrun, hsound⟩
    · intro u o ho
      exact hi.calls u o ((congrFun hpend u).symm.trans ho)
    · intro u hu hdead
      by_cases hut : u = t
      · rw [hut, left_of_none ((congrFun hpend t).trans hnone)]
        exact htodo
      · apply hgone u hu
        intro hin
        apply hdead
        rw [hlive]
        exact Finset.mem_erase.mpr ⟨hut, hin⟩

theorem Program.Waiting.settled_eq (hi : p.Waiting hs script)
    (hcur : p.world.sched.current = none) :
    (∀ e, p.up e ↔ Raised Act.kind hs script e) ∧
      ∀ t, t ∈ p.world.sched.live ↔ t ∈ hs ∧ ¬ Completes Act.kind hs script t := by
  obtain ⟨hsettled, hdead⟩ := hi.stopped hcur
  refine ⟨hi.sound.up_iff hsettled, ?_⟩
  intro t
  constructor
  · intro hin
    have ht := hi.inv.parties hin
    rw [← hi.sound.left_eq_nil_iff hsettled ht, ← hdead t ht]
    exact ⟨ht, not_not_intro hin⟩
  · rintro ⟨ht, hnot⟩
    rw [← hi.sound.left_eq_nil_iff hsettled ht, ← hdead t ht] at hnot
    exact not_not.mp hnot

theorem PStep.from_main (hi : p.Waiting hs script)
    (hr : p.world.sched.runningThread = some .main) (h : PStep p l p') :
    p.world.sched.live = ∅ := by
  have hcur : p.world.sched.current = none := by
    cases hc : p.world.sched.current with
    | none => rfl
    | some t =>
      rw [current_eq_some.1 hc] at hr
      cases hr
  cases h with
  | goOn hs' => exact (ret_main hi.inv.world hr hs').1
  | print hc | call hc | exit hc =>
    rw [hcur] at hc
    cases hc

end Invariant

theorem Program.Waiting.init {c : Config} {hs : List Handle} {w : World}
    (hstart : Runs Step (World.init c) (startOps hs) w) (script : Handle → List (Act σ)) :
    (Program.mk w script []).Waiting hs.toFinset script := by
  obtain ⟨hf, _, hnone, _⟩ := Fresh.started hstart
  have hup : (Program.mk w script []).up = fun _ => False := by
    funext e
    simp [Program.up, hf.signaled]
  have hleft : (Program.mk w script []).left = script := by
    funext t
    exact left_of_none (hf.pending t)
  refine ⟨hf.inv (inv_of_runs hstart), waitersInv_of_runs hstart, ?_, hf.halted, ?_, ?_, ?_⟩
  · intro t op hop
    cases (hf.pending t).symm.trans hop
  · intro t ht hdead
    exact absurd (hf.live ▸ ht) hdead
  · intro hr
    rw [hf.live, hnone hr]
    rfl
  · rw [hup, hleft]
    exact Sound.init

section Settle
variable {p : Program σ} {hs : Finset Handle} {script : Handle → List (Act σ)}

theorem Program.Waiting.bounded (hi : p.Waiting hs script) :
    ∃ n, ∀ ls q, Runs PStep p ls q → ls.length ≤ n * (ls.countP (fun _ => false) + 1) :=
  bounded_of_invariant (c := 0) hi (fun _ _ _ h hstep => hstep.waiting h)
    fun _ _ _ h hstep => hstep.ahead h.inv

open Classical in
theorem Program.Waiting.settles (hi : p.Waiting hs script) :
    Returns PStep p (fun _ => false) Program.settled
      (hs.filter fun t => ¬ Completes Act.kind hs script t,
        fun e => decide (Raised Act.kind hs script e)) := by
  refine ⟨?_, ?_, hi.bounded⟩
  · intro ls q r hrun hr
    have hq := hrun.invariant hi fun _ _ _ h hstep => hstep.waiting h
    unfold Program.settled at hr
    split at hr
    · rename_i hcur
      obtain ⟨hup, hlive⟩ := hq.settled_eq hcur
      have hthreads : q.world.sched.live = hs.filter fun t => ¬ Completes Act.kind hs script t := by
        ext t
        rw [hlive, Finset.mem_filter]
      have hevents : (fun e => (q.world.events e).signaled) =
          fun e => decide (Raised Act.kind hs script e) := by
        funext e
        rw [Bool.eq_iff_iff, decide_eq_true_iff]
        exact hup e
      rw [← Option.some.inj hr, hthreads, hevents]
    · cases hr
  · intro ls q hrun hnone
    have hq := hrun.invariant hi fun _ _ _ h hstep => hstep.waiting h
    cases hcur : q.world.sched.current with
    | none => simp [Program.settled, hcur] at hnone
    | some t =>
      obtain ⟨l, q', h⟩ := hq.inv.progress hcur
      exact ⟨l, q', h, rfl⟩

theorem Program.Waiting.returns (hi : p.Waiting hs script)
    (hall : ∀ t ∈ hs, Completes Act.kind hs script t) :
    Returns PStep p (fun _ => false) Program.returned () := by
  refine ⟨fun _ _ _ _ _ => rfl, ?_, hi.bounded⟩
  intro ls q hrun hnone
  have hq := hrun.invariant hi fun _ _ _ h hstep => hstep.waiting h
  cases hr : q.world.sched.runningThread with
  | none => simp [Program.returned, hr] at hnone
  | some r =>
    cases r with
    | user t =>
      obtain ⟨l, q', h⟩ := hq.inv.progress (current_eq_some.2 hr)
      exact ⟨l, q', h, rfl⟩
    | main =>
      have hcur : q.world.sched.current = none := by simp [Sched.current, hr]
      have hlive : q.world.sched.live = ∅ := by
        rw [Finset.eq_empty_iff_forall_notMem]
        intro t ht
        obtain ⟨hin, hnot⟩ := ((hq.settled_eq hcur).2 t).1 ht
        exact hnot (hall t hin)
      obtain ⟨q', h⟩ := hq.inv.finish hr hlive
      exact ⟨_, q', h, rfl⟩

theorem Program.Waiting.completes (hi : p.Waiting hs script)
    (h : Returns PStep p (fun _ => false) Program.returned ()) {t : Handle} (ht : t ∈ hs) :
    Completes Act.kind hs script t := by
  obtain ⟨ls, q, hrun, hsettled⟩ := hi.settles.exists_run
  have hq := hrun.invariant hi fun _ _ _ h hstep => hstep.waiting h
  have hcur : q.world.sched.current = none := by
    by_contra hsome
    simp [Program.settled, hsome] at hsettled
  have hlive : q.world.sched.live = ∅ := by
    cases hr : q.world.sched.runningThread with
    | none => exact hq.ended hr
    | some r =>
      cases r with
      | user u => simp [Sched.current, hr] at hcur
      | main =>
        obtain ⟨l, q', hstep, _⟩ := h.goesOn ls q hrun (by simp [Program.returned, hr])
        exact hstep.from_main hq hr
  by_contra hnot
  have hin := ((hq.settled_eq hcur).2 t).2 ⟨ht, hnot⟩
  rw [hlive] at hin
  cases hin

end Settle

/-- Threads that wait for events and set them, in any number and with any start functions: they
come to a stop in which the threads left over are exactly those that wait for an event which no
thread comes to set, and `ut_run` returns exactly when there is none of these. -/
theorem events_settle {c : Config} {hs : List Handle} {w : World}
    (hstart : Runs Step (World.init c) (startOps hs) w) (script : Handle → List (Act σ)) :
    (∃ r, Returns PStep (Program.mk w script []) (fun _ => false) Program.settled r ∧
      (∀ t, t ∈ r.1 ↔ t ∈ hs ∧ ¬ Completes Act.kind hs.toFinset script t) ∧
      ∀ e, r.2 e = true ↔ Raised Act.kind hs.toFinset script e) ∧
    (Returns PStep (Program.mk w script []) (fun _ => false) Program.returned () ↔
      ∀ t ∈ hs, Completes Act.kind hs.toFinset script t) := by
  classical
  have hinit := Program.Waiting.init hstart script
  refine ⟨⟨_, hinit.settles, ?_, ?_⟩, ?_, ?_⟩
  · intro t
    rw [Finset.mem_filter, List.mem_toFinset]
  · intro e
    exact decide_eq_true_iff
  · intro h t ht
    exact hinit.completes h (List.mem_toFinset.mpr ht)
  · intro hall
    apply hinit.returns
    intro t ht
    exact hall t (List.mem_toFinset.mp ht)

/-- The waiter and the notifier of event_test.c. -/
def eventTest (t : Handle) : List (Act Char) :=
  if t = 1 then [.print 'w', .wait 0, .print 'x'] else [.print 'n', .set 0, .print 'm']

theorem eventTest_completes (t : Handle) : Completes Act.kind [1, 2].toFinset eventTest t := by
  intro a ha e hwait
  have hzero : e = 0 := by
    unfold eventTest at ha
    split at ha <;>
      (simp only [List.mem_cons, List.not_mem_nil, or_false] at ha
       obtain rfl | rfl | rfl := ha <;> cases hwait)
    rfl
  have hset : eventTest 2 = [.print 'n'] ++ .set 0 :: [.print 'm'] := rfl
  rw [hzero]
  refine Raised.raise (by decide) hset rfl ?_
  intro b hb e' hb'
  rw [List.mem_singleton.mp hb] at hb'
  cases hb'

theorem events_settle_test : ∃ w, Runs Step (World.init Config.plain) (startOps [1, 2]) w ∧
    Returns PStep (Program.mk w eventTest []) (fun _ => false) Program.returned () := by
  have hrun := runs_of_runAll Allowed exec (startOps [1, 2]) (World.init Config.plain) rfl
  exact ⟨_, hrun, (events_settle hrun eventTest).2.2 fun t _ => eventTest_completes t⟩

end OsCourse.UThread.Programs
