import OsCourse.Queue.Model

/-! The units of the two semaphores against the list and the calls that were granted
but are not finished. -/
namespace OsCourse.Queue
open Ints Function Placement Transition UThread

/-- The threads whose call waits on semaphore `i` and has been granted its unit. -/
def QWorld.granted (q : QWorld) (i : Nat) : Finset Handle :=
  q.world.sched.live.filter fun t =>
    (q.doing t).map Call.waits = some i ∧ t ∉ q.world.waiting (.sem i)

/-- The units of semaphore `i` that were not used yet: kept, or granted. -/
def QWorld.unused (q : QWorld) (i : Nat) : Int :=
  (q.world.sems i).units.toInt + (q.granted i).card

structure SemOf (m : Int32) (q : QWorld) (i : Nat) : Prop where
  inv : ∃ u, SemInv u m (q.world.sems i)
  ones : ∀ wb ∈ (q.world.sems i).waiters, wb.units = 1
  uncut : ∀ k, .cut k ∉ (q.world.sems i).log
  callers : ∀ t ∈ q.world.waiting (.sem i), ∃ c, q.doing t = some c ∧ c.waits = i

/-- A thread that is in a call runs, is ready, or waits on the semaphore of the call. -/
def QWorld.Placed (q : QWorld) : Prop :=
  ∀ t c, q.doing t = some c → t ∈ q.world.sched.live ∧
    (q.world.sched.current = some t ∨ t ∈ q.world.sched.readyQueue ∨
      t ∈ q.world.waiting (.sem c.waits))

structure QInv (m : Int32) (q : QWorld) : Prop where
  world : q.world.Inv
  elem : SemOf m q elemAvaiable
  space : SemOf m q spaceAvaiable
  placed : q.Placed
  elems : q.unused elemAvaiable = q.head.length
  spaces : q.unused spaceAvaiable + q.head.length = m.toInt

/-- With requests of one unit each, a post of one unit serves the first waiter or
keeps the unit. -/
theorem semPost_one {u m : Int32} {sem : Semaphore} (s : Sched) (hi : SemInv u m sem)
    (hones : ∀ wb ∈ sem.waiters, wb.units = 1) (hlt : sem.units.toInt < m.toInt) :
    (sem.waiters = [] ∧ (semPost sem 1 s).1.units.toInt = sem.units.toInt + 1 ∧
      (semPost sem 1 s).1.waiters = [] ∧ (semPost sem 1 s).2 = s ∧
      (semPost sem 1 s).1.log = sem.log ++ [.posted 1]) ∨
    ∃ wb rest, sem.waiters = wb :: rest ∧ sem.units.toInt = 0 ∧
      (semPost sem 1 s).1.units.toInt = 0 ∧ (semPost sem 1 s).1.waiters = rest ∧
      (semPost sem 1 s).2 = s.activateAll [wb.header.thread] ∧
      (semPost sem 1 s).1.log = sem.log ++ [.posted 1,
        .granted (some (.user wb.header.thread)) wb.units, .activated wb.header.thread] := by
  have hone : (1 : Int32).toInt = 1 := rfl
  have hnn := hi.ledger.nonneg
  have hlim := hi.ledger.limit_eq
  have hmax := Int32.toInt_le m
  have hsum : (sem.units + 1).toInt = sem.units.toInt + 1 :=
    toInt_add_of_fits (by decide) (by rw [hone]; omega)
  have hunits : semPostUnits sem 1 =
      { sem with units := sem.units + 1, log := sem.log ++ [.posted 1] } := by
    have hno : ¬ sem.units + 1 > sem.limit := by
      rw [gt_iff_lt, Int32.lt_iff_toInt_lt, hlim, hsum]
      omega
    simp only [semPostUnits, if_neg hno]
  unfold semPost
  rw [hunits]
  cases hw : sem.waiters with
  | nil => exact Or.inl ⟨rfl, hsum, rfl, rfl, rfl⟩
  | cons wb rest =>
    have hunmet := Int32.lt_iff_toInt_lt.1 (hi.unmet wb rest hw)
    have hwb : wb.units = 1 := hones wb (by simp [hw])
    have hzero : sem.units = 0 := by
      rw [hwb, hone] at hunmet
      exact Int32.toInt_inj.1 (by rw [Int32.toInt_zero]; omega)
    right
    refine ⟨wb, rest, rfl, by simp [hzero], ?_⟩
    rw [semPostLoop, if_pos (by simp [hzero]), if_neg (by simp [hzero, hwb]),
      semPostLoop_no_units (by simp [hzero, hwb])]
    simp [hzero, hwb, utActivate]

variable {m : Int32} {q q' : QWorld} {t : Handle} {c : Call} {i j : Nat}

theorem QWorld.Placed.mem_granted (hp : q.Placed) {u : Handle} :
    u ∈ q.granted i ↔
      (∃ d, q.doing u = some d ∧ d.waits = i) ∧ u ∉ q.world.waiting (.sem i) := by
  simp only [QWorld.granted, Finset.mem_filter, Option.map_eq_some_iff]
  constructor
  · exact And.right
  · intro h
    obtain ⟨d, hd, _⟩ := h.1
    exact ⟨(hp u d hd).1, h⟩

/-- A semaphore that a step did not use keeps what it had, if the threads that wait on
it are in the calls they were in. -/
theorem SemOf.same (h : SemOf m q i) (hs : q'.world.sems i = q.world.sems i)
    (hd : ∀ u ∈ q.world.waiting (.sem i), q'.doing u = q.doing u) : SemOf m q' i := by
  refine ⟨by rw [hs]; exact h.inv, by rw [hs]; exact h.ones, by rw [hs]; exact h.uncut, ?_⟩
  intro u hu
  rw [waiting_sem, hs] at hu
  rw [hd u hu]
  exact h.callers u hu

section Granted
variable (hp : q.Placed) (hp' : q'.Placed)
include hp hp'

theorem granted_same (hw : q'.world.waiting (.sem i) = q.world.waiting (.sem i))
    (hd : ∀ u, (∃ d, q'.doing u = some d ∧ d.waits = i) ↔ ∃ d, q.doing u = some d ∧ d.waits = i) :
    q'.granted i = q.granted i := by
  ext u
  rw [hp.mem_granted, hp'.mem_granted, hd, hw]

theorem unused_same (hs : q'.world.sems i = q.world.sems i)
    (hd : ∀ u, (∃ d, q'.doing u = some d ∧ d.waits = i) ↔ ∃ d, q.doing u = some d ∧ d.waits = i) :
    q'.unused i = q.unused i := by
  have hg := granted_same hp hp' (by rw [waiting_sem, waiting_sem, hs]) hd
  unfold QWorld.unused
  rw [hg, hs]

theorem granted_taken (hw : q'.world.waiting (.sem i) = q.world.waiting (.sem i))
    (hfresh : t ∉ q.world.waiting (.sem i)) (hself : ∃ d, q'.doing t = some d ∧ d.waits = i)
    (hother : ∀ v, v ≠ t → q'.doing v = q.doing v) : q'.granted i = insert t (q.granted i) := by
  ext v
  rw [Finset.mem_insert, hp'.mem_granted, hp.mem_granted, hw]
  by_cases hv : v = t
  · rw [hv]
    exact ⟨fun _ => Or.inl rfl, fun _ => ⟨hself, hfresh⟩⟩
  · simp [hv, hother v hv]

theorem granted_blocked (hw : q'.world.waiting (.sem i) = q.world.waiting (.sem i) ++ [t])
    (hfree : q.doing t = none) (hother : ∀ v, v ≠ t → q'.doing v = q.doing v) :
    q'.granted i = q.granted i := by
  ext v
  rw [hp'.mem_granted, hp.mem_granted, hw]
  by_cases hv : v = t
  · simp [hv, hfree]
  · simp [hv, hother v hv]

theorem granted_woken (hw : q.world.waiting (.sem i) = t :: q'.world.waiting (.sem i))
    (hcall : ∃ d, q.doing t = some d ∧ d.waits = i) (hgone : t ∉ q'.world.waiting (.sem i))
    (hd : ∀ u, (∃ d, q'.doing u = some d ∧ d.waits = i) ↔ ∃ d, q.doing u = some d ∧ d.waits = i) :
    q'.granted i = insert t (q.granted i) := by
  ext v
  rw [Finset.mem_insert, hp'.mem_granted, hp.mem_granted, hd, hw, List.mem_cons, not_or]
  by_cases hv : v = t
  · rw [hv]
    exact ⟨fun _ => Or.inl rfl, fun _ => ⟨hcall, hgone⟩⟩
  · simp [hv]

theorem granted_used (hw : q'.world.waiting (.sem i) = q.world.waiting (.sem i))
    (hself : q'.doing t = none) (hother : ∀ v, v ≠ t → q'.doing v = q.doing v) :
    q'.granted i = (q.granted i).erase t := by
  ext v
  rw [Finset.mem_erase, hp'.mem_granted, hp.mem_granted, hw]
  by_cases hv : v = t
  · simp [hv, hself]
  · simp [hv, hother v hv]

end Granted

theorem unused_insert (hg : q'.granted i = insert t (q.granted i)) (hnew : t ∉ q.granted i) :
    q'.unused i = (q'.world.sems i).units.toInt + (q.granted i).card + 1 := by
  unfold QWorld.unused
  rw [hg, Finset.card_insert_of_notMem hnew]
  push_cast
  omega

theorem calling_other {d' : Option Call} (hd : q'.doing = update q.doing t d')
    (hold : ¬∃ d, q.doing t = some d ∧ d.waits = i) (hnew : ¬∃ d, d' = some d ∧ d.waits = i)
    (u : Handle) :
    (∃ d, q'.doing u = some d ∧ d.waits = i) ↔ ∃ d, q.doing u = some d ∧ d.waits = i := by
  rw [hd]
  by_cases hu : u = t
  · rw [hu, update_self]
    exact ⟨fun h => absurd h hnew, fun h => absurd h hold⟩
  · rw [update_of_ne hu]

theorem QInv.running_free (hi : QInv m q) (hcur : q.world.sched.current = some t) (i : Nat) :
    t ∉ q.world.waiting (.sem i) :=
  hi.world.current_not_waiting hcur _

theorem enter_sem (hi : QInv m q) (hp' : q'.Placed) (hcur : q.world.sched.current = some t)
    (hfree : q.doing t = none) (hs : Step q.world (.semWait c.waits 1) q'.world)
    (hd : q'.doing = update q.doing t (some c)) (h : SemOf m q c.waits) :
    SemOf m q' c.waits ∧ q'.unused c.waits = q.unused c.waits := by
  have hwait := semWait_step hs
  have hfresh := hi.running_free hcur c.waits
  obtain ⟨u, hsem⟩ := h.inv
  have hinv := semWait_inv hsem (by decide) hwait
  have hother : ∀ v, v ≠ t → q'.doing v = q.doing v := fun v hv => by simp [hd, hv]
  have hself : q'.doing t = some c := by simp [hd]
  obtain ⟨hw, hle, _, hsem'⟩ | ⟨t', _, hcur', _, hsem'⟩ := semWait_cases hwait
  · have hwaiting : q'.world.waiting (.sem c.waits) = [] := by simp [hsem', hw]
    have hwaiting0 : q.world.waiting (.sem c.waits) = [] := by simp [hw]
    have hg := granted_taken hi.placed hp' (hwaiting.trans hwaiting0.symm) hfresh
      ⟨c, hself, rfl⟩ hother
    have hnew : t ∉ q.granted c.waits := by simp [hi.placed.mem_granted, hfree]
    have hunits : (q'.world.sems c.waits).units.toInt = (q.world.sems c.waits).units.toInt - 1 := by
      rw [hsem']
      exact toInt_sub_of_fits (by decide) (Int32.le_iff_toInt_le.1 hle)
    refine ⟨⟨⟨u, hinv⟩, by simp [hsem', hw], ?_, by simp [hwaiting]⟩, ?_⟩
    · simpa [hsem'] using h.uncut
    · rw [unused_insert hg hnew, hunits]
      unfold QWorld.unused
      omega
  · have ht : t' = t := by simpa using hcur'.symm.trans hcur
    subst ht
    have hwaiting : q'.world.waiting (.sem c.waits) = q.world.waiting (.sem c.waits) ++ [t'] := by
      simp [hsem']
    have hg := granted_blocked hi.placed hp' hwaiting hfree hother
    refine ⟨⟨⟨u, hinv⟩, ?_, ?_, ?_⟩, ?_⟩
    · intro wb hwb
      have hmem : wb ∈ (q.world.sems c.waits).waiters ∨ wb = ⟨⟨t'⟩, 1⟩ := by
        simpa [hsem'] using hwb
      exact hmem.elim (h.ones wb) fun he => by rw [he]
    · simpa [hsem'] using h.uncut
    · intro v hv
      rw [hwaiting, List.mem_append, List.mem_singleton] at hv
      obtain hv | hv := hv
      · have hne : v ≠ t' := fun he => hfresh (he ▸ hv)
        rw [hother v hne]
        exact h.callers v hv
      · exact ⟨c, hv ▸ hself, rfl⟩
    · unfold QWorld.unused
      rw [hg, hsem']

theorem post_sem (hi : QInv m q) (hp' : q'.Placed) (hcur : q.world.sched.current = some t)
    (hdo : q.doing t = some c) (hs : Step q.world (.semPost j 1) q'.world)
    (hd : q'.doing = update q.doing t none) (hj : c.waits ≠ j) (h : SemOf m q j)
    (hlt : (q.world.sems j).units.toInt < m.toInt) :
    SemOf m q' j ∧ q'.unused j = q.unused j + 1 := by
  obtain ⟨u, hsem⟩ := h.inv
  have hpost : q'.world.sems j = (semPost (q.world.sems j) 1 q.world.sched).1 :=
    congrArg Prod.fst (semPost_step hs)
  have hmax := Int32.toInt_le m
  have hone : (1 : Int32).toInt = 1 := rfl
  have hinv : SemInv u m (q'.world.sems j) := by
    rw [hpost]
    exact semPost_inv q.world.sched hsem (by decide) (by rw [hone]; omega)
  have hfresh := hi.running_free hcur j
  have hnot : ¬ ∃ d, q.doing t = some d ∧ d.waits = j := by
    intro ⟨d, hdt, hdj⟩
    rw [hdo, Option.some.injEq] at hdt
    exact hj (hdt ▸ hdj)
  have hcalls := calling_other hd hnot nofun
  obtain ⟨hw, hunits, hw', _, hlog⟩ | ⟨wb, rest, hw, hzero, hunits, hw', _, hlog⟩ :=
    semPost_one q.world.sched hsem h.ones hlt
  · rw [← hpost] at hunits hw' hlog
    have hwaiting : q'.world.waiting (.sem j) = [] := by simp [hw']
    have hwaiting0 : q.world.waiting (.sem j) = [] := by simp [hw]
    have hg := granted_same hi.placed hp' (hwaiting.trans hwaiting0.symm) hcalls
    refine ⟨⟨⟨u, hinv⟩, by simp [hw'], ?_, by simp [hwaiting]⟩, ?_⟩
    · simpa [hlog] using h.uncut
    · unfold QWorld.unused
      rw [hg, hunits]
      omega
  · rw [← hpost] at hunits hw' hlog
    have hwaiting : q.world.waiting (.sem j) =
        wb.header.thread :: q'.world.waiting (.sem j) := by simp [hw, hw']
    have hnd := hi.world.partition.nodup (.waiters (.sem j))
    rw [slots_waiters, hwaiting, List.nodup_cons] at hnd
    have hg := granted_woken hi.placed hp' hwaiting (h.callers _ (by simp [hwaiting])) hnd.1 hcalls
    have hnew : wb.header.thread ∉ q.granted j := by
      simp [hi.placed.mem_granted, hwaiting]
    refine ⟨⟨⟨u, hinv⟩, ?_, ?_, ?_⟩, ?_⟩
    · intro x hx
      rw [hw'] at hx
      exact h.ones x (by simp [hw, hx])
    · simpa [hlog] using h.uncut
    · intro v hv
      have hin : v ∈ q.world.waiting (.sem j) := hwaiting ▸ List.mem_cons_of_mem _ hv
      exact (hcalls v).mpr (h.callers v hin)
    · rw [unused_insert hg hnew, hunits]
      unfold QWorld.unused
      omega

theorem used_sem (hi : QInv m q) (hp' : q'.Placed) (hcur : q.world.sched.current = some t)
    (hdo : q.doing t = some c) (hs : Step q.world (.semPost j 1) q'.world)
    (hd : q'.doing = update q.doing t none) (hj : c.waits ≠ j) (h : SemOf m q c.waits) :
    SemOf m q' c.waits ∧ q'.unused c.waits = q.unused c.waits - 1 := by
  have hsame : q'.world.sems c.waits = q.world.sems c.waits :=
    (step_frame hs).1 _ (by simpa [Op.touches] using Ne.symm hj)
  have hfresh := hi.running_free hcur c.waits
  have hother : ∀ v, v ≠ t → q'.doing v = q.doing v := fun v hv => by simp [hd, hv]
  have hin : t ∈ q.granted c.waits := hi.placed.mem_granted.2 ⟨⟨c, hdo, rfl⟩, hfresh⟩
  have hg := granted_used hi.placed hp' (i := c.waits) (by rw [waiting_sem, waiting_sem, hsame])
    (by simp [hd]) hother
  have hcard := Finset.card_erase_add_one hin
  refine ⟨h.same hsame fun u hu => hother u fun he => hfresh (he ▸ hu), ?_⟩
  unfold QWorld.unused
  rw [hg, hsame, ← hcard]
  push_cast
  omega

theorem SemOf.nonneg (h : SemOf m q i) : 0 ≤ (q.world.sems i).units.toInt := by
  obtain ⟨u, hu⟩ := h.inv
  exact hu.ledger.nonneg

theorem units_le_unused (q : QWorld) (i : Nat) :
    (q.world.sems i).units.toInt ≤ q.unused i := by
  unfold QWorld.unused
  omega

theorem QInv.unused_pos (hi : QInv m q) (hcur : q.world.sched.current = some t)
    (hdo : q.doing t = some c) :
    (q.world.sems c.waits).units.toInt + 1 ≤ q.unused c.waits := by
  have hin : t ∈ q.granted c.waits :=
    hi.placed.mem_granted.2 ⟨⟨c, hdo, rfl⟩, hi.running_free hcur c.waits⟩
  have hpos := Finset.card_pos.2 ⟨t, hin⟩
  unfold QWorld.unused
  omega

theorem QEffect.step (he : QEffect q q') : ∃ op, Step q.world op q'.world := by
  cases he with
  | lib op _ hs => exact ⟨op, hs⟩
  | enter t c _ _ hs => exact ⟨_, hs⟩
  | put t msg _ _ hs => exact ⟨_, hs⟩
  | get t node head _ _ _ hs => exact ⟨_, hs⟩

theorem placed_step (hi : QInv m q) (he : QEffect q q') : q'.Placed := by
  have hpost : ∀ {t j}, q.world.sched.current = some t → Step q.world (.semPost j 1) q'.world →
      q'.doing = update q.doing t none → q'.Placed := by
    intro t j hcur hs hd u d hdu
    have hut : u ≠ t := by
      intro he
      simp [hd, he] at hdu
    rw [hd, update_of_ne hut] at hdu
    obtain ⟨hlive, hin⟩ := hi.placed u d hdu
    exact place_step (step_effect hs hi.world.mainThread) hlive hin
      fun _ => ⟨by simp, by simp, by simp [Op.waitsOn]⟩
  cases he with
  | lib op hend hs _ _ h =>
    intro u d hdu
    have hdoing : q'.doing = q.doing := by rw [h]
    rw [hdoing] at hdu
    obtain ⟨hlive, hin⟩ := hi.placed u d hdu
    refine place_step (step_effect hs hi.world.mainThread) hlive hin fun hcur => ?_
    -- the running thread is in a call, so it can only return from its `sem_wait`
    have hmid : q.world.midCall = true := by
      cases hm : q.world.midCall with
      | true => rfl
      | false => simp [QWorld.ending, hm, hcur, hdu] at hend
    rw [hs.1.1.1 hmid]
    exact ⟨by simp, by simp, by simp [Op.waitsOn]⟩
  | enter t c hcur hfree hs h =>
    intro u d hdu
    have hdoing : q'.doing = update q.doing t (some c) := by rw [h]
    rw [hdoing] at hdu
    have he := step_effect hs hi.world.mainThread
    by_cases hut : u = t
    · subst hut
      have hdc : c = d := by simpa using hdu
      subst hdc
      exact place_step he (hi.world.current_live hcur) (Or.inl hcur)
        fun _ => ⟨by simp, by simp, by simp [Op.waitsOn]⟩
    · rw [update_of_ne hut] at hdu
      obtain ⟨hlive, hin⟩ := hi.placed u d hdu
      refine place_step he hlive hin fun hc => ?_
      exact absurd (by simpa using hc.symm.trans hcur) hut
  | put t msg hcur hdo hs h => exact hpost hcur hs (by rw [h])
  | get t node head hcur hdo _ hs h => exact hpost hcur hs (by rw [h])

theorem lib_sem {op : Op} (hs : Step q.world op q'.world)
    (ht : op.touches ≠ some (.sem i)) (hp : q.Placed) (hp' : q'.Placed)
    (hd : q'.doing = q.doing) (h : SemOf m q i) :
    SemOf m q' i ∧ q'.unused i = q.unused i := by
  have hsame := (step_frame hs).1 i ht
  exact ⟨h.same hsame fun u _ => by rw [hd], unused_same hp hp' hsame fun u => by rw [hd]⟩

theorem enter_other (hi : QInv m q) (hp' : q'.Placed) (hcur : q.world.sched.current = some t)
    (hfree : q.doing t = none) (hs : Step q.world (.semWait c.waits 1) q'.world)
    (hd : q'.doing = update q.doing t (some c)) (hi' : c.waits ≠ i) (h : SemOf m q i) :
    SemOf m q' i ∧ q'.unused i = q.unused i := by
  have hsame : q'.world.sems i = q.world.sems i :=
    (step_frame hs).1 i (by simpa [Op.touches] using hi')
  have hfresh := hi.running_free hcur i
  have hcalls := calling_other (i := i) hd (by simp [hfree]) (by simp [hi'])
  refine ⟨h.same hsame fun u hu => ?_, unused_same hi.placed hp' hsame hcalls⟩
  have hne : u ≠ t := fun he => hfresh (he ▸ hu)
  simp [hd, hne]

theorem qinv_step (hi : QInv m q) (he : QEffect q q') : QInv m q' := by
  obtain ⟨op, hstep⟩ := he.step
  have hp' := placed_step hi he
  have hw' := inv_step hi.world hstep
  have helems := hi.elems
  have hspaces := hi.spaces
  have hne : spaceAvaiable ≠ elemAvaiable := by decide
  cases he with
  | lib op _ hs helem hspace h =>
    have hd : q'.doing = q.doing := by rw [h]
    have hhead : q'.head = q.head := by rw [h]
    obtain ⟨he, hue⟩ := lib_sem hs helem hi.placed hp' hd hi.elem
    obtain ⟨hsp, hus⟩ := lib_sem hs hspace hi.placed hp' hd hi.space
    exact ⟨hw', he, hsp, hp', by rw [hue, hhead, helems], by rw [hus, hhead, hspaces]⟩
  | enter t c hcur hfree hs h =>
    have hd : q'.doing = update q.doing t (some c) := by rw [h]
    have hhead : q'.head = q.head := by rw [h]
    cases c with
    | put msg =>
      obtain ⟨hsp, hus⟩ := enter_sem hi hp' hcur hfree hs hd hi.space
      obtain ⟨he, hue⟩ := enter_other hi hp' hcur hfree hs hd hne hi.elem
      exact ⟨hw', he, hsp, hp', by rw [hue, hhead, helems], by rw [hhead]; exact hus ▸ hspaces⟩
    | get =>
      obtain ⟨he, hue⟩ := enter_sem hi hp' hcur hfree hs hd hi.elem
      obtain ⟨hsp, hus⟩ := enter_other hi hp' hcur hfree hs hd hne.symm hi.space
      exact ⟨hw', he, hsp, hp', by rw [hhead]; exact hue.trans helems, by rw [hus, hhead, hspaces]⟩
  | put t msg hcur hdo hs h =>
    have hd : q'.doing = update q.doing t none := by rw [h]
    have hhead : q'.head = q.head ++ [nodeCreate msg] := by rw [h]
    have hpos := hi.unused_pos hcur hdo
    have hnn := hi.space.nonneg
    have hle := units_le_unused q elemAvaiable
    have hlt : (q.world.sems elemAvaiable).units.toInt < m.toInt := by
      simp only [Call.waits] at hpos
      omega
    obtain ⟨he, hue⟩ := post_sem hi hp' hcur hdo hs hd hne hi.elem hlt
    obtain ⟨hsp, hus⟩ := used_sem hi hp' hcur hdo hs hd hne hi.space
    simp only [Call.waits] at hus hsp
    have hlen : q'.head.length = q.head.length + 1 := by simp [hhead]
    exact ⟨hw', he, hsp, hp', by rw [hue, hlen]; push_cast; omega,
      by rw [hus, hlen]; push_cast; omega⟩
  | get t node head hcur hdo hhead hs h =>
    have hd : q'.doing = update q.doing t none := by rw [h]
    have hhead' : q'.head = head := by rw [h]
    have hpos := hi.unused_pos hcur hdo
    have hnn := hi.elem.nonneg
    have hle := units_le_unused q spaceAvaiable
    have hlt : (q.world.sems spaceAvaiable).units.toInt < m.toInt := by
      simp only [Call.waits] at hpos
      omega
    obtain ⟨hsp, hus⟩ := post_sem hi hp' hcur hdo hs hd hne.symm hi.space hlt
    obtain ⟨he, hue⟩ := used_sem hi hp' hcur hdo hs hd hne.symm hi.elem
    simp only [Call.waits] at hue he
    have hlen : q.head.length = q'.head.length + 1 := by simp [hhead, hhead']
    exact ⟨hw', he, hsp, hp', by rw [hue, helems, hlen]; push_cast; omega,
      by rw [hus]; omega⟩

theorem qinv_init {m : Int32} (hm : 1 ≤ m.toInt) (c : Config) : QInv m (queueInit m c) := by
  have hgranted : ∀ i, (queueInit m c).granted i = ∅ := fun i => rfl
  have hsem : ∀ u i, 0 ≤ u.toInt → u.toInt ≤ m.toInt →
      (queueInit m c).world.sems i = semInit u m → SemOf m (queueInit m c) i := by
    intro u i h0 h1 hs
    refine ⟨⟨u, by rw [hs]; exact semInv_init h0 h1⟩, ?_, ?_, ?_⟩ <;> simp [hs, semInit]
  refine ⟨inv_init _, hsem 0 _ (by decide) (by rw [Int32.toInt_zero]; omega) rfl,
    hsem m _ (by omega) le_rfl rfl, fun t c h => (by cases h), ?_, ?_⟩
  · unfold QWorld.unused
    rw [hgranted]
    rfl
  · unfold QWorld.unused
    rw [hgranted]
    simp [queueInit, World.init, semInit]

theorem qinv_of_runs {m : Int32} (hm : 1 ≤ m.toInt) {c : Config} {ops : List QOp} {q : QWorld}
    (h : Runs QStep (queueInit m c) ops q) : QInv m q :=
  h.invariant (qinv_init hm c) fun _ _ _ hi hs => qinv_step hi (qstep_effect hs)

end OsCourse.Queue
