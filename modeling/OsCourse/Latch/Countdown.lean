import OsCourse.Latch.Model

/-! What the countdown latch promises while its counter stays inside `int`. -/
namespace OsCourse.Latch
open Function Transition Wakeup
variable {T : Type*}

section Counter

theorem cdlMustWait_iff (c : Cdl) : cdlMustWait c = true ↔ 0 < c.counter.toInt := by
  simp [cdlMustWait, Int32.lt_iff_toInt_lt]

theorem cdlSignal_counter (c : Cdl) (h : -2 ^ 31 < c.counter.toInt) :
    (cdlSignal c).2.counter.toInt = c.counter.toInt - 1 := by
  have hle := c.counter.toInt_le
  have hone : (1 : Int32).toInt = 1 := rfl
  rw [Int32.toInt_maxValue] at hle
  unfold cdlSignal
  dsimp only
  rw [Int32.toInt_sub, hone]
  apply Int.bmod_eq_of_le <;> omega

theorem cdlSignal_last (c : Cdl) : (cdlSignal c).1 = true ↔ (cdlSignal c).2.counter.toInt = 0 := by
  have hzero : (0 : Int32).toInt = 0 := rfl
  unfold cdlSignal
  dsimp only
  rw [decide_eq_true_iff, ← Int32.toInt_inj, hzero]

end Counter

structure Inv (initial : Int32) (s : State T) : Prop where
  counter : s.cdl.counter.toInt = initial.toInt - s.decrements
  /-- the signaller that reached zero answers for the threads still blocked -/
  owed : s.cdl.counter.toInt ≤ 0 → ∀ t, s.pc t = .blocked → ∃ u, s.pc u = .broadcasting
  reached : ∀ u, s.pc u = .broadcasting → s.cdl.counter.toInt ≤ 0
  unique : ∀ u v, s.pc u = .broadcasting → s.pc v = .broadcasting → u = v
  passed : ∀ t, s.pc t = .leaving → s.cdl.counter.toInt ≤ 0

theorem init_inv (initial : Int32) : Inv initial (init initial : State T) := by
  refine ⟨?_, ?_, ?_, ?_, ?_⟩
  · simp [init, cdlInit]
  · intro _ t h
    cases h
  · intro u h
    cases h
  · intro u v h
    cases h
  · intro t h
    cases h

theorem signal_counter {initial : Int32} {s : State T} (hi : Inv initial s)
    (hfits : -2 ^ 31 ≤ initial.toInt - (s.decrements + 1 : Nat)) :
    (cdlSignal s.cdl).2.counter.toInt = s.cdl.counter.toInt - 1 := by
  apply cdlSignal_counter
  have := hi.counter
  omega

variable [DecidableEq T] {s s' : State T} {l : Label T}

/-- A thread at a point that owes nothing moves to another such point. -/
theorem Inv.quiet {initial : Int32} (hi : Inv initial s) {t : T} {q : Pc}
    (ht : s.pc t ≠ .broadcasting) (hb : q = .blocked → 0 < s.cdl.counter.toInt)
    (hq : q ≠ .broadcasting) (hl : q = .leaving → s.cdl.counter.toInt ≤ 0) :
    Inv initial { s with pc := update s.pc t q } := by
  refine ⟨hi.counter, ?_, ?_, ?_, ?_⟩
  · intro hc u hu
    have hblocked : ∃ v, s.pc v = .broadcasting := by
      obtain ⟨_, hqb⟩ | ⟨_, hu'⟩ := update_cases hu
      · have := hb hqb
        dsimp only at hc
        omega
      · exact hi.owed hc u hu'
    obtain ⟨v, hv⟩ := hblocked
    have hvt : v ≠ t := fun he => ht (he ▸ hv)
    exact ⟨v, (update_of_ne hvt q s.pc).trans hv⟩
  · intro u hu
    obtain ⟨_, hqb⟩ | ⟨_, hu'⟩ := update_cases hu
    · exact absurd hqb hq
    · exact hi.reached u hu'
  · intro u v hu hv
    obtain ⟨_, hqb⟩ | ⟨_, hu'⟩ := update_cases hu
    · exact absurd hqb hq
    · obtain ⟨_, hqb⟩ | ⟨_, hv'⟩ := update_cases hv
      · exact absurd hqb hq
      · exact hi.unique u v hu' hv'
  · intro u hu
    obtain ⟨_, hql⟩ | ⟨_, hu'⟩ := update_cases hu
    · exact hl hql
    · exact hi.passed u hu'

theorem Step.inv {initial : Int32} (h : Step s l s')
    (hfits : -2 ^ 31 ≤ initial.toInt - s'.decrements) (hi : Inv initial s) : Inv initial s' := by
  cases h with
  | callSignal hpc | callWait hpc =>
    exact hi.quiet (by rw [hpc]; simp) (fun h => by cases h) (by simp) (fun h => by cases h)
  | spurious hpc | leave hpc =>
    exact hi.quiet (by rw [hpc]; simp) (fun h => by cases h) (by simp) (fun h => by cases h)
  | wait hpc hmust =>
    apply hi.quiet
    · intro hb
      rw [hb] at hpc
      cases hpc
    · exact fun _ => (cdlMustWait_iff s.cdl).mp hmust
    · simp
    · intro h
      cases h
  | pass hpc hmust =>
    apply hi.quiet
    · intro hb
      rw [hb] at hpc
      cases hpc
    · intro h
      cases h
    · simp
    · intro _
      by_contra hpos
      have := (cdlMustWait_iff s.cdl).mpr (by omega)
      rw [hmust] at this
      cases this
  | @signalLast t hpc hlast =>
    have hc := signal_counter hi hfits
    have hz := (cdlSignal_last s.cdl).mp hlast
    -- the counter was one, so no broadcast was owed
    have hnone : ∀ u, s.pc u ≠ .broadcasting := fun u hu => by
      have := hi.reached u hu
      omega
    have hcases : ∀ u, update s.pc t .broadcasting u = .broadcasting → u = t := by
      intro u hu
      by_contra hut
      rw [update_of_ne hut] at hu
      exact hnone u hu
    refine ⟨?_, ?_, ?_, ?_, ?_⟩
    · have := hi.counter
      dsimp only
      omega
    · exact fun _ _ _ => ⟨t, update_self t _ s.pc⟩
    · intro u _
      dsimp only
      omega
    · intro u v hu hv
      rw [hcases u hu, hcases v hv]
    · intro u _
      dsimp only
      omega
  | @signal t hpc hnot =>
    have hc := signal_counter hi hfits
    have hz : (cdlSignal s.cdl).2.counter.toInt ≠ 0 := fun he => by
      rw [(cdlSignal_last s.cdl).mpr he] at hnot
      cases hnot
    have hq := hi.quiet (t := t) (q := .idle) (by rw [hpc]; simp) (fun h => by cases h) (by simp)
      (fun h => by cases h)
    refine ⟨?_, ?_, ?_, hq.unique, ?_⟩
    · have := hi.counter
      dsimp only
      omega
    · intro hle u hu
      apply hq.owed _ u hu
      dsimp only at hle ⊢
      omega
    · intro u hu
      have := hq.reached u hu
      dsimp only at this ⊢
      omega
    · intro u hu
      have := hq.passed u hu
      dsimp only at this ⊢
      omega
  | @broadcast t hpc =>
    have hreached := hi.reached t hpc
    have hnone : ∀ u, update (Wakeup.broadcast Pc.wake s.pc) t .idle u ≠ .blocked := by
      rw [forall_update_iff _ fun _ q => q ≠ Pc.blocked]
      refine ⟨by simp, fun u _ hu => ?_⟩
      obtain ⟨hn, he⟩ | ⟨q, hq, he⟩ := broadcast_cases Pc.wake s.pc u
      · rw [he] at hu
        rw [hu] at hn
        cases hn
      · cases hpu : s.pc u <;> rw [hpu] at hq <;> cases hq
        rw [he] at hu
        cases hu
    have hsingle : ∀ u, update (Wakeup.broadcast Pc.wake s.pc) t .idle u ≠ .broadcasting := by
      rw [forall_update_iff _ fun _ q => q ≠ Pc.broadcasting]
      refine ⟨by simp, fun u hut hu => ?_⟩
      obtain ⟨hn, he⟩ | ⟨q, hq, he⟩ := broadcast_cases Pc.wake s.pc u
      · rw [he] at hu
        exact hut (hi.unique u t hu hpc)
      · cases hpu : s.pc u <;> rw [hpu] at hq <;> cases hq
        rw [he] at hu
        cases hu
    exact ⟨hi.counter, fun _ u hu => absurd hu (hnone u), fun u hu => absurd hu (hsingle u),
      fun u _ hu => absurd hu (hsingle u), fun _ _ => hreached⟩

theorem Step.decrements_le (h : Step s l s') : s.decrements ≤ s'.decrements := by
  cases h with
  | signalLast | signal => exact Nat.le_succ _
  | callSignal | broadcast | callWait | wait | pass | spurious | leave => exact Nat.le_refl _

theorem inv_of_runs {initial : Int32} {ls : List (Label T)}
    (hrun : Runs Step (init initial) ls s) (hfits : -2 ^ 31 ≤ initial.toInt - s.decrements) :
    Inv initial s := by
  have himp := hrun.invariant
    (P := fun a : State T => -2 ^ 31 ≤ initial.toInt - a.decrements → Inv initial a)
    (fun _ => init_inv initial) fun a l b ha hstep hb => by
      have hle := hstep.decrements_le
      exact hstep.inv hb (ha (by omega))
  exact himp hfits

theorem Step.blocked_before (h : Step s l s') (hc : s.cdl.counter.toInt ≤ 0) {t : T}
    (ht : s'.pc t = .blocked) : s.pc t = .blocked := by
  have move {u : T} {q : Pc} (hq : q ≠ .blocked) (hu : update s.pc u q t = .blocked) :
      s.pc t = .blocked := by
    by_cases htu : t = u
    · subst htu
      rw [update_self] at hu
      exact absurd hu hq
    · rwa [update_of_ne htu] at hu
  cases h with
  | callSignal | signalLast | signal | callWait | pass | spurious | leave =>
    exact move (by simp) ht
  | wait _ hmust =>
    have := (cdlMustWait_iff s.cdl).mp hmust
    omega
  | @broadcast u hpc =>
    have hne : update (Wakeup.broadcast Pc.wake s.pc) u .idle t = .blocked := ht
    by_cases htu : t = u
    · subst htu
      rw [update_self] at hne
      cases hne
    · rw [update_of_ne htu] at hne
      obtain ⟨_, he⟩ | ⟨q, hq, he⟩ := broadcast_cases Pc.wake s.pc t
      · rwa [he] at hne
      · cases hpt : s.pc t <;> rw [hpt] at hq <;> cases hq

/-- In every run in which the counter stays inside `int`: it is `initial` less the sections of
`cdl_signal` that have run; a `cdl_wait` that returns finds `initial` of them done; once the
counter is at or below zero, a thread is blocked later only if it was blocked then; and while
one is, a single signaller, the one that reached zero, has its broadcast to come. -/
theorem latch_opens {initial : Int32} (ls : List (Label T)) (s : State T)
    (hrun : Runs Step (init initial) ls s) (hfits : -2 ^ 31 ≤ initial.toInt - s.decrements) :
    s.cdl.counter.toInt = initial.toInt - s.decrements ∧
      (∀ t, s.pc t = .leaving → initial.toInt ≤ s.decrements) ∧
      (s.cdl.counter.toInt ≤ 0 → ∀ ms s', Runs Step s ms s' →
        -2 ^ 31 ≤ initial.toInt - s'.decrements →
        ∀ t, s'.pc t = .blocked → s.pc t = .blocked) ∧
      (s.cdl.counter.toInt ≤ 0 → (∃ t, s.pc t = .blocked) →
        ∃ u, s.pc u = .broadcasting ∧ ∀ v, s.pc v = .broadcasting → v = u) := by
  have hi := inv_of_runs hrun hfits
  refine ⟨hi.counter, ?_, ?_, ?_⟩
  · intro t ht
    have h1 := hi.passed t ht
    have h2 := hi.counter
    omega
  · intro hle ms s' hmore hfits' t
    have hkept := hmore.invariant (P := fun a : State T =>
      -2 ^ 31 ≤ initial.toInt - a.decrements →
        Inv initial a ∧ a.cdl.counter.toInt ≤ 0 ∧ (a.pc t = .blocked → s.pc t = .blocked))
      (fun _ => ⟨hi, hle, id⟩) fun a l b ha hstep hb => by
        have hdec := hstep.decrements_le
        obtain ⟨hia, hla, hblocked⟩ := ha (by omega)
        have hib := hstep.inv hb hia
        refine ⟨hib, ?_, fun ht => hblocked (hstep.blocked_before hla ht)⟩
        have h1 := hia.counter
        have h2 := hib.counter
        omega
    exact (hkept hfits').2.2
  · rintro hle ⟨t, ht⟩
    obtain ⟨u, hu⟩ := hi.owed hle t ht
    exact ⟨u, hu, fun v hv => hi.unique v u hv hu⟩

/-- One thread waits for one signal. -/
theorem latch_opens_one :
    (∃ (ls : List (Label Bool)) (s : State Bool), Runs Step (init 1) ls s ∧
      s.pc false = .blocked ∧ s.pc true = .broadcasting ∧
      ∀ v, s.pc v = .broadcasting → v = true) ∧
    ∃ (ls : List (Label Bool)) (s : State Bool), Runs Step (init 1) ls s ∧
      s.pc false = .leaving ∧ 1 ≤ s.decrements := by
  have hasks := Runs.single (s := (init 1 : State Bool)) (l := Label.callWait false)
    (Step.callWait rfl)
  have hwaits := hasks.snoc (l := .test false) (Step.wait rfl rfl)
  have hcalls := hwaits.snoc (l := .callSignal true) (Step.callSignal rfl)
  have hzero := hcalls.snoc (l := .signal true) (Step.signalLast rfl rfl)
  have hsent := hzero.snoc (l := .broadcast true) (Step.broadcast rfl)
  have hpasses := hsent.snoc (l := .test false) (Step.pass rfl rfl)
  obtain ⟨u, hu, hunique⟩ := (latch_opens _ _ hzero (by decide)).2.2.2 (by decide) ⟨false, rfl⟩
  have hdone := (latch_opens _ _ hpasses (by decide)).2.1 false rfl
  exact ⟨⟨_, _, hzero, rfl, rfl, fun v hv => (hunique v hv).trans (hunique true rfl).symm⟩,
    ⟨_, _, hpasses, rfl, Int.ofNat_le.mp hdone⟩⟩

end OsCourse.Latch
