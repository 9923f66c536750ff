import OsCourse.Join.Joined
import OsCourse.Lib.Calls
import OsCourse.Lib.Cycle

/-! When joins block for ever: only when threads wait for each other in a circle. -/
namespace OsCourse.Join
open Calls Function Placement Transition Relation Cycles UThread
variable {b : Build}

/-- Some thread waits, through the joins of others, for its own end. -/
def World.JoinCycle (w : World b) : Prop := ∃ t, TransGen w.BlockedOn t t

theorem World.Inv.all_blocked {w : World b} (hi : w.Inv)
    (hr : w.lib.sched.runningThread = some .main) :
    ∀ t ∈ w.lib.sched.live, ∃ s ∈ w.lib.sched.live, w.BlockedOn t s := by
  intro t ht
  obtain ⟨p, hp⟩ := (hi.partition.mem_live t).1 ht
  cases p with
  | running => simp [Sched.current, hr] at hp
  | ready => simp [hi.drained hr] at hp
  | joining s => exact ⟨s, (hi.targets s t hp).1, hi.mem_joiners.1 hp⟩

theorem World.Inv.numberOfThreads_eq_zero {w : World b} (hi : w.Inv) :
    w.lib.sched.numberOfThreads = 0 ↔ w.lib.sched.live = ∅ := by
  rw [hi.count, List.length_eq_zero_iff, List.eq_nil_iff_forall_not_mem,
    Finset.eq_empty_iff_forall_notMem]
  exact forall_congr' fun t => not_congr (hi.mem_alive t)

theorem World.Inv.zero_or_cycle {w : World b} (hi : w.Inv)
    (hr : w.lib.sched.runningThread = some .main) :
    w.lib.sched.numberOfThreads = 0 ∨ w.JoinCycle := by
  by_cases hn : w.lib.sched.numberOfThreads = 0
  · exact Or.inl hn
  · have hne : w.lib.sched.live.Nonempty := by
      rw [Finset.nonempty_iff_ne_empty]
      exact fun he => hn (hi.numberOfThreads_eq_zero.2 he)
    obtain ⟨t, _, ht⟩ := exists_cycle hne (hi.all_blocked hr)
    exact Or.inr ⟨t, ht⟩

theorem World.Inv.finish {w : World b} (hi : w.Inv)
    (hr : w.lib.sched.runningThread = some .main) (hn : w.lib.sched.numberOfThreads = 0) :
    ∃ w', Step w .ret w' ∧ w'.lib.sched.runningThread = none ∧ w'.lib.sched.live = ∅ := by
  have hend : utRunEnd w.lib.sched =
      .ok { w.lib.sched with runningThread := none, mainThread := none } := by
    simp [utRunEnd, hi.drained hr, isListEmpty, hn]
  have hexec : exec .ret w = .ok { w with lib := { w.lib with sched := { w.lib.sched with
      runningThread := none, mainThread := none } } } := by
    simp only [exec, hr, hend]
    rfl
  have hall : Allowed w .ret := by simp [Allowed, World.midCall, hr, World.admits]
  exact ⟨_, ⟨hall, hexec⟩, rfl, hi.numberOfThreads_eq_zero.1 hn⟩

/-- A step inside `ut_run` of a program: `prog ops w` is its next call in world `w`, when its
threads have made the steps `ops`. -/
def ProgStep (prog : List Op → World b → Op) (p : List Op × World b) (op : Op)
    (p' : List Op × World b) : Prop :=
  Step p.2 op p'.2 ∧ p'.1 = p.1 ++ [op] ∧ p.2.lib.sched.runningThread ≠ none ∧
    (p.2.midCall = false → op = prog p.1 p.2)

/-- The end of `ut_run`, with every thread exited. -/
def returned (p : List Op × World b) : Option Unit :=
  if p.2.lib.sched.runningThread = none ∧ p.2.lib.sched.live = ∅ then some () else none

/-- The calls other than `ut_exit`. -/
def Op.isCall : Op → Bool
  | .utExit | .ret => false
  | _ => true

def World.suspended (w : World b) : Finset Handle :=
  w.lib.sched.live.filter fun t => (w.pending t).isSome

/-- The returns and exits that can still come before a new call is made. -/
def World.ahead (w : World b) : Nat :=
  w.lib.sched.live.card + w.suspended.card +
    if w.lib.sched.runningThread = none then 0 else 1

theorem suspended_exit {w w' : World b} {t : Handle} (hp : w'.pending = w.pending)
    (hl : w'.lib.sched.live = w.lib.sched.live.erase t) :
    w'.suspended.card ≤ w.suspended.card := by
  apply Finset.card_le_card
  intro u hu
  simp only [World.suspended, hp, hl, Finset.mem_filter, Finset.mem_erase] at hu ⊢
  exact ⟨hu.1.2, hu.2⟩

theorem suspended_leave {w w' : World b} {t : Handle} {op : Op}
    (hp : w'.pending = update w.pending t (some op))
    (hl : w'.lib.sched.live = w.lib.sched.live) :
    w'.suspended.card ≤ w.suspended.card + 1 := by
  have hsub : w'.suspended ⊆ insert t w.suspended := by
    intro u hu
    by_cases hut : u = t
    · simp [hut]
    · simpa [World.suspended, hp, hl, hut] using hu
  exact (Finset.card_le_card hsub).trans (Finset.card_insert_le t w.suspended)

theorem suspended_create {w w' : World b} {x : Handle} (hx : x ∉ w.lib.sched.live)
    (hp : w'.pending = update w.pending x none)
    (hl : w'.lib.sched.live = insert x w.lib.sched.live) : w'.suspended = w.suspended := by
  ext u
  by_cases hux : u = x
  · simp [World.suspended, hp, hux, hx]
  · simp [World.suspended, hp, hl, hux]

theorem suspended_resume {w : World b} {t : Handle} (ht : t ∈ w.suspended) :
    (w.resume t).suspended.card + 1 = w.suspended.card := by
  have he : (w.resume t).suspended = w.suspended.erase t := by
    ext u
    simp only [World.suspended, Finset.mem_filter, Finset.mem_erase]
    by_cases hut : u = t <;> simp [World.resume, hut]
  rw [he, Finset.card_erase_add_one ht]

/-- A step that is not a call brings the end nearer; a call puts it off by two at
the most. -/
theorem ahead_step {op : Op} {w w' : World b} (hi : w.Inv) (h : Step w op w')
    (hr : w.lib.sched.runningThread ≠ none) :
    w'.ahead < w.ahead + 3 * op.isCall.toNat := by
  have hcount : ∀ s : Sched, (if s.dispatch.runningThread = none then 0 else 1) = 1 :=
    fun s => if_neg (dispatch_running s)
  unfold World.ahead
  rw [if_neg hr]
  cases step_effect hi h with
  | same hop hret hw =>
    have hc : op.isCall = true := by
      cases op with
      | utExit => exact absurd rfl hop
      | ret => exact absurd (hret rfl) hr
      | _ => rfl
    rw [hw, if_neg hr, hc]
    simp
  | resume t hop hcur hw =>
    subst hop hw
    have hsome : (w.pending t).isSome = true := by
      simpa [World.midCall, current_eq_some.1 hcur] using h.1.1
    have ht : t ∈ w.suspended := by simp [World.suspended, hi.current_live hcur, hsome]
    have hs := suspended_resume ht
    have hlib : (w.resume t).lib = w.lib := rfl
    rw [hlib, if_neg hr]
    simp only [Op.isCall, Bool.toNat_false]
    omega
  | create x hop hnew hw =>
    subst hop
    have hl : w'.lib.sched.live = insert x w.lib.sched.live := by rw [hw]; rfl
    have hp : w'.pending = update w.pending x none := by rw [hw]
    have hrun : w'.lib.sched.runningThread = w.lib.sched.runningThread := by rw [hw]; rfl
    rw [suspended_create hnew hp hl, hl, hrun, if_neg hr, Finset.card_insert_of_notMem hnew]
    simp only [Op.isCall, Bool.toNat_true]
    omega
  | yield t hop hcur hw =>
    subst hop
    have hl : w'.lib.sched.live = w.lib.sched.live := by rw [hw]; simp [Sched.activateAll]
    have hs := suspended_leave (by rw [hw]) hl
    have hrun : (if w'.lib.sched.runningThread = none then 0 else 1) = 1 := by
      rw [hw]
      exact hcount _
    rw [hl, hrun]
    simp only [Op.isCall, Bool.toNat_true]
    omega
  | join t x field hop hcur _ _ _ hw =>
    subst hop
    have hl : w'.lib.sched.live = w.lib.sched.live := by rw [hw]; simp
    have hs := suspended_leave (by rw [hw]) hl
    have hrun : (if w'.lib.sched.runningThread = none then 0 else 1) = 1 := by
      rw [hw]
      exact hcount _
    rw [hl, hrun]
    simp only [Op.isCall, Bool.toNat_true]
    omega
  | exit t field s hop hcur _ hsched hw =>
    subst hop
    have hlive := hi.current_live hcur
    have hl : w'.lib.sched.live = w.lib.sched.live.erase t := by
      rw [hw]
      simp [internalCleanup, hsched, Sched.activateAll]
    have hs := suspended_exit (by rw [hw]) hl
    have hcard := Finset.card_erase_add_one hlive
    have hrun : (if w'.lib.sched.runningThread = none then 0 else 1) = 1 := by
      rw [hw]
      exact hcount s
    rw [hl, hrun]
    simp only [Op.isCall, Bool.toNat_false]
    omega
  | start _ hr' => exact absurd hr' hr
  | finish hop _ _ hw =>
    subst hop
    have hl : w'.lib.sched.live = w.lib.sched.live := by rw [hw]
    have hs : w'.suspended = w.suspended := by rw [hw]; rfl
    have hrun : w'.lib.sched.runningThread = none := by rw [hw]
    rw [hl, hs, if_pos hrun]
    simp only [Op.isCall, Bool.toNat_false]
    omega

theorem user_step_running {op : Op} {w w' : World b} {t : Handle} (hi : w.Inv)
    (h : Step w op w') (hcur : w.lib.sched.current = some t) :
    w'.lib.sched.runningThread ≠ none := by
  have hr := current_eq_some.1 hcur
  have hne : w.lib.sched.runningThread ≠ none := by simp [hr]
  cases step_effect hi h with
  | same _ _ hw => rw [hw]; exact hne
  | resume u _ _ hw => rw [hw]; exact hne
  | create x _ _ hw => rw [hw]; exact hne
  | yield u _ _ hw => rw [hw]; exact dispatch_running _
  | join u x field _ _ _ _ _ hw => rw [hw]; exact dispatch_running _
  | exit u field s _ _ _ _ hw => rw [hw]; exact dispatch_running s
  | start _ hn => exact absurd hn hne
  | finish _ hm => rw [hr] at hm; cases hm

/-- A program for user threads that, inside `ut_run` and from `w` on, makes calls it
may make, no more than `n` of them apart from the exits, and no cycle of joins. -/
structure Behaves (prog : List Op → World b → Op) (n : Nat) (w : World b) : Prop where
  calls : ∀ ops p, Runs (ProgStep prog) ([], w) ops p → p.2.lib.sched.runningThread ≠ none →
    p.2.midCall = false → Allowed p.2 (prog p.1 p.2) ∧ prog p.1 p.2 ≠ .utRun
  bounded : ∀ ops p, Runs (ProgStep prog) ([], w) ops p → ops.countP Op.isCall ≤ n
  acyclic : ∀ ops p, Runs (ProgStep prog) ([], w) ops p → ¬ p.2.JoinCycle

section Programs
variable {prog : List Op → World b → Op} {n : Nat} {w : World b} {p p' : List Op × World b}

def Sound (p : List Op × World b) : Prop :=
  p.2.Inv ∧ (p.2.lib.sched.runningThread = none → p.2.lib.sched.live = ∅)

theorem ProgStep.sound {op : Op} (h : ProgStep prog p op p') (hi : Sound p) : Sound p' := by
  obtain ⟨hstep, _, hr, _⟩ := h
  refine ⟨inv_step hi.1 hstep, fun hnone => ?_⟩
  obtain ⟨c, hc⟩ := Option.ne_none_iff_exists'.1 hr
  cases c with
  | user t => exact absurd hnone (user_step_running hi.1 hstep (current_eq_some.2 hc))
  | main =>
    have hop : op = .ret := hstep.1.1.1 (by simp [World.midCall, hc])
    cases step_effect hi.1 hstep with
    | same _ hret _ => exact absurd (hret hop) hr
    | resume t _ hcur _ => simp [current_eq_some, hc] at hcur
    | create _ hop' | join _ _ _ hop' | exit _ _ _ hop' | yield _ hop' | start hop' =>
      rw [hop] at hop'
      cases hop'
    | finish _ _ hn hw =>
      rw [hw]
      exact hi.1.numberOfThreads_eq_zero.1 hn

theorem Behaves.returns (hb : Behaves prog n w) (hi : w.Inv)
    (hr : w.lib.sched.runningThread ≠ none) :
    Returns (ProgStep prog) ([], w) (fun _ => false) returned () := by
  have hinit : Sound (([], w) : List Op × World b) := ⟨hi, fun hnone => absurd hnone hr⟩
  have hkeep : ∀ (p : List Op × World b) op p', Sound p → ProgStep prog p op p' → Sound p' :=
    fun p op p' hp h => h.sound hp
  refine ⟨fun _ _ _ _ _ => rfl, ?_, ?_⟩
  · intro ops p hrun hnot
    obtain ⟨hp, hlive⟩ := hrun.invariant hinit hkeep
    have hgoing : p.2.lib.sched.runningThread ≠ none := by
      intro hnone
      rw [returned, if_pos ⟨hnone, hlive hnone⟩] at hnot
      cases hnot
    obtain ⟨c, hc⟩ := Option.ne_none_iff_exists'.1 hgoing
    cases c with
    | main =>
      have hn := (hp.zero_or_cycle hc).resolve_right (hb.acyclic ops p hrun)
      obtain ⟨u, hs, _⟩ := hp.finish hc hn
      have hmid : p.2.midCall = true := by simp [World.midCall, hc]
      exact ⟨.ret, (p.1 ++ [.ret], u), ⟨hs, rfl, hgoing, fun hno => by simp [hmid] at hno⟩, rfl⟩
    | user t =>
      have hcur : p.2.lib.sched.current = some t := current_eq_some.2 hc
      -- the next step is the end of the call the thread is in, or its next call
      obtain ⟨op, hall, hop, hprog⟩ : ∃ op, Allowed p.2 op ∧ op ≠ .utRun ∧
          (p.2.midCall = false → op = prog p.1 p.2) := by
        cases hmid : p.2.midCall with
        | true => exact ⟨.ret, ⟨by simp [hmid], rfl⟩, by simp, by simp⟩
        | false =>
          obtain ⟨hall, hop⟩ := hb.calls ops p hrun hgoing hmid
          exact ⟨prog p.1 p.2, hall, hop, fun _ => rfl⟩
      obtain ⟨u, hs⟩ := hp.progress hcur hall hop
      exact ⟨op, (p.1 ++ [op], u), ⟨hs, rfl, hgoing, hprog⟩, rfl⟩
  · obtain ⟨k, hk⟩ := @bounded_of_invariant _ _ _ _ Op.isCall _
      (fun p : List Op × World b => p.2.ahead) 3 hinit hkeep fun p op p' hp h => by
        have hless := ahead_step hp.1 h.1 h.2.2.1
        cases hop : op.isCall <;> rw [hop] at hless <;>
          simp only [Bool.toNat_true, Bool.toNat_false, if_true, Bool.false_eq_true, if_false]
            at hless ⊢ <;> omega
    refine ⟨k * (n + 1), fun ops p hrun => ?_⟩
    have hcalls := hb.bounded ops p hrun
    calc ops.length ≤ k * (ops.countP Op.isCall + 1) := hk ops p hrun
      _ ≤ k * (n + 1) := Nat.mul_le_mul_left k (by omega)
      _ ≤ k * (n + 1) * (ops.countP (fun _ => false) + 1) :=
        Nat.le_mul_of_pos_right _ (Nat.succ_pos _)

end Programs

section Cycles
variable {w w' : World b} {t s : Handle}

/-- A thread that is blocked on a blocked one stays so. -/
theorem World.BlockedOn.stays {op : Op} (hi : w.Inv) (h : Step w op w') (ht : w.BlockedOn t s)
    (hs : ∃ u, w.BlockedOn s u) : w'.BlockedOn t s := by
  obtain ⟨hlive, hpend, hready, hcur⟩ := ht
  obtain ⟨u, _, _, _, hscur⟩ := hs
  -- who is switched in was ready
  have hdispatch : ∀ c : Sched, t ∉ c.readyQueue →
      t ∉ c.dispatch.readyQueue ∧ c.dispatch.current ≠ some t := by
    intro c hc
    rw [← dispatch_front c] at hc
    refine ⟨fun hin => hc (List.mem_append_right _ hin), fun he => hc ?_⟩
    simp [he]
  cases step_effect hi h with
  | same _ _ hw =>
    rw [hw]
    exact ⟨hlive, hpend, hready, hcur⟩
  | resume x _ hx hw =>
    have hne : t ≠ x := fun he => hcur (he ▸ hx)
    rw [hw]
    exact ⟨hlive, by simpa [World.resume, hne] using hpend, hready, hcur⟩
  | create x _ hnew hw =>
    have hne : t ≠ x := fun he => hnew (he ▸ hlive)
    rw [hw]
    refine ⟨?_, by simpa [hne] using hpend, ?_, hcur⟩
    · exact Finset.mem_insert_of_mem hlive
    · exact fun hin => (List.mem_append.1 hin).elim hready fun hx => hne (by simpa using hx)
  | yield x _ hx hw =>
    have hne : t ≠ x := fun he => hcur (he ▸ hx)
    obtain ⟨hr, hc⟩ := hdispatch (w.lib.sched.activateAll [x])
      (by simp [Sched.activateAll, hready, hne])
    rw [hw]
    exact ⟨by simpa [Sched.activateAll] using hlive, by simpa [hne] using hpend, hr, hc⟩
  | join x y field _ hx _ _ _ hw =>
    have hne : t ≠ x := fun he => hcur (he ▸ hx)
    obtain ⟨hr, hc⟩ := hdispatch w.lib.sched hready
    rw [hw]
    exact ⟨by simpa using hlive, by simpa [hne] using hpend, hr, hc⟩
  | exit x field c _ hx _ hsched hw =>
    have hne : t ≠ x := fun he => hcur (he ▸ hx)
    -- the exiting thread is not the one waited for: that one is blocked
    have hwoken : t ∉ w.joiners x := by
      intro hin
      have hsame := (hi.targets x t hin).2
      rw [hpend] at hsame
      cases hsame
      exact hscur hx
    obtain ⟨hr, hc⟩ := hdispatch c (by simp [hsched, Sched.activateAll, hready, hwoken])
    rw [hw]
    refine ⟨?_, hpend, hr, hc⟩
    simp [internalCleanup, hsched, Sched.activateAll, hlive, hne]
  | start _ _ hw =>
    obtain ⟨hr, hc⟩ := hdispatch
      { w.lib.sched with mainThread := some .main, runningThread := some .main } hready
    rw [hw]
    exact ⟨by simpa using hlive, hpend, hr, hc⟩
  | finish _ _ _ hw =>
    rw [hw]
    exact ⟨hlive, hpend, hready, by simp [Sched.current]⟩

theorem World.JoinCycle.stays {op : Op} (hi : w.Inv) (h : Step w op w') (hc : w.JoinCycle) :
    w'.JoinCycle := by
  obtain ⟨t, ht⟩ := hc
  have hout : ∀ {a c}, TransGen w.BlockedOn a c → ∃ u, w.BlockedOn a u := by
    intro a c hac
    obtain ⟨u, hau, _⟩ := TransGen.head'_iff.1 hac
    exact ⟨u, hau⟩
  have hlast := hout ht
  have hpath : ∀ {a}, TransGen w.BlockedOn a t → TransGen w'.BlockedOn a t := by
    intro a hat
    induction hat using TransGen.head_induction_on with
    | single hstep => exact TransGen.single (hstep.stays hi h hlast)
    | head hstep hrest ih => exact TransGen.head (hstep.stays hi h (hout hrest)) ih
  exact ⟨t, hpath ht⟩

end Cycles

section Finished
variable {prog : List Op → World b → Op} {w : World b}

theorem ProgStep.unique {p q q' : List Op × World b} {op op' : Op} (h : ProgStep prog p op q)
    (h' : ProgStep prog p op' q') : op = op' ∧ q = q' := by
  obtain ⟨⟨hall, hexec⟩, hops, _, hprog⟩ := h
  obtain ⟨⟨hall', hexec'⟩, hops', _, hprog'⟩ := h'
  have hsame : op = op' := by
    cases hmid : p.2.midCall with
    | true => rw [hall.1.1 hmid, hall'.1.1 hmid]
    | false => rw [hprog hmid, hprog' hmid]
  subst hsame
  rw [hexec] at hexec'
  exact ⟨rfl, Prod.ext (hops.trans hops'.symm) (Except.ok.inj hexec')⟩

end Finished

end OsCourse.Join
