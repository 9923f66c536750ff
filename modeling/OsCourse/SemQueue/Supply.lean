import OsCourse.Lib.History
import OsCourse.Lib.Tally
import OsCourse.SemQueue.Model

/-! When the calls of `queue_get` find a node. The units that `queue_init` gives to
`elem_avaiable` let calls pass that no node has been inserted for. -/
namespace OsCourse.SemQueue
open Function History Tally Transition
variable {T : Type*}

/-- Past `sem_wait`, and still to remove a node. -/
def Pc.isGetting : Pc → Nat
  | .getting _ => 1
  | _ => 0

/-- Holding a unit of `space_avaiable` for which the list has no node. -/
def Pc.holdsSpace : Pc → Nat
  | .putting _ _ | .got _ _ => 1
  | _ => 0

/-- Having taken a unit of `elem_avaiable` and no node yet, or inserted a node and posted no
unit yet. -/
def Pc.owesElem : Pc → Nat
  | .getting _ | .put => 1
  | _ => 0

theorem Pc.isGetting_le (pc : Pc) : pc.isGetting ≤ pc.owesElem := by
  cases pc with
  | getting => exact le_rfl
  | idle | putCalled | putting | put | getCalled | got | copying => exact Nat.zero_le _

/-- The node that a call of `queue_get` has removed and not returned yet. -/
def Pc.hand : Pc → List Node
  | .got _ node | .copying _ node => node.toList
  | _ => []

theorem returned_update [DecidableEq T] {removed returned : List (T × Node)} {pcs : T → Pc}
    {t : T} {pc : Pc}
    (h : ∀ u, entries u removed = entries u returned ++ (pcs u).hand)
    (hhand : pc.hand = (pcs t).hand) :
    ∀ u, entries u removed = entries u returned ++ (update pcs t pc u).hand := by
  intro u
  by_cases hu : u = t
  · rw [hu, update_self, hhand]
    exact h t
  · rw [update_of_ne hu]
    exact h u

theorem Pc.eq_getting {pc : Pc} (h : 0 < pc.isGetting) : ∃ capacity, pc = .getting capacity := by
  cases pc with
  | getting capacity => exact ⟨capacity, rfl⟩
  | idle | putCalled | putting | put | getCalled | got | copying => cases h

section Runs
variable [Fintype T] [DecidableEq T] {s s' : State T} {l : Label T} {ls : List (Label T)}
  {maxSize : Nat}

/-- A call of `queue_get` passes its `sem_wait` only while the list holds more nodes than there
are calls that have passed it before and are still to remove one. -/
def Counted (s : State T) : Label T → Prop
  | .waitElem _ => tally Pc.isGetting s.pc < s.head.length
  | _ => True

/-- However the calls of `queue_get` that have passed their `sem_wait` go on, they never
remove from an empty list. -/
def Supplied (s : State T) : Prop :=
  ∀ ls s', Runs (fun a l b => Step a l b ∧ ∃ t, l = .lockGet t) s ls s' →
    ∀ t capacity, s'.pc t = .getting capacity → s'.head ≠ []

structure Correct (maxSize : Nat) (s : State T) : Prop where
  supplied : Supplied s
  length_le : s.head.length ≤ maxSize
  fifo : s.inserted = s.removed.map Prod.snd ++ s.head
  returned : ∀ t, entries t s.removed = entries t s.returned ++ (s.pc t).hand

structure Sound (maxSize : Nat) (s : State T) : Prop where
  promised : tally Pc.isGetting s.pc ≤ s.head.length
  space : s.spaceAvaiable + tally Pc.holdsSpace s.pc + s.head.length = maxSize
  fifo : s.inserted = s.removed.map Prod.snd ++ s.head
  returned : ∀ t, entries t s.removed = entries t s.returned ++ (s.pc t).hand

theorem Sound.head_ne_nil (hs : Sound maxSize s) {t : T} {capacity : Int32}
    (hpc : s.pc t = .getting capacity) : s.head ≠ [] := by
  intro hnil
  have hle := le_tally Pc.isGetting s.pc t
  have hone : (s.pc t).isGetting = 1 := by rw [hpc]; rfl
  have hpromised := hs.promised
  rw [hnil, List.length_nil] at hpromised
  omega

theorem Sound.removes (hs : Sound maxSize s) {t : T} {capacity : Int32} {node : Option Node}
    {rest : List Node} (hpc : s.pc t = .getting capacity)
    (hremove : removeListFirst s.head = (node, rest)) :
    ∃ n, s.head = n :: rest ∧ node = some n := by
  obtain ⟨n, tail, hhead⟩ := List.exists_cons_of_ne_nil (hs.head_ne_nil hpc)
  rw [hhead] at hremove
  cases hremove
  exact ⟨n, hhead, rfl⟩

theorem fresh_sound (elem : Nat) : Sound maxSize (State.fresh elem maxSize : State T) := by
  refine ⟨?_, ?_, rfl, fun _ => rfl⟩
  · rw [State.fresh, tally_const]
    exact Nat.zero_le _
  · rw [State.fresh, tally_const]
    rfl

theorem Sound.move (hs : Sound maxSize s) {t : T} {pc : Pc} {elem space : Nat}
    (hgetting : tally Pc.isGetting s.pc + pc.isGetting ≤
      s.head.length + (s.pc t).isGetting)
    (hspace : space + pc.holdsSpace = s.spaceAvaiable + (s.pc t).holdsSpace)
    (hhand : pc.hand = (s.pc t).hand) :
    Sound maxSize
      { s with elemAvaiable := elem, spaceAvaiable := space, pc := update s.pc t pc } where
  promised := by
    have hg := tally_update Pc.isGetting s.pc t pc
    dsimp only
    omega
  space := by
    have hh := tally_update Pc.holdsSpace s.pc t pc
    have hold := hs.space
    dsimp only
    omega
  fifo := hs.fifo
  returned := returned_update hs.returned hhand

theorem Step.sound (h : Step s l s') (hc : Counted s l) (hs : Sound maxSize s) :
    Sound maxSize s' := by
  have hpromised := hs.promised
  have hspace := hs.space
  have moved (t : T) (pc : Pc) := And.intro (tally_update Pc.isGetting s.pc t pc)
    (tally_update Pc.holdsSpace s.pc t pc)
  cases h with
  | callPut hpc | postElem hpc | callGet hpc | postSpace hpc =>
    apply hs.move <;> rw [hpc]
    exacts [hpromised, rfl, rfl]
  | waitSpace hpc hunits =>
    apply hs.move <;> rw [hpc]
    exacts [hpromised, hunits.symm, rfl]
  | waitElem hpc hunits =>
    apply hs.move <;> rw [hpc]
    exacts [hc, rfl, rfl]
  | @lockPut t msg size hpc =>
    obtain ⟨hg, hh⟩ := moved t .put
    rw [hpc] at hg hh
    dsimp only [Pc.isGetting, Pc.holdsSpace] at hg hh
    refine ⟨?_, ?_, ?_, returned_update hs.returned (by rw [hpc]; rfl)⟩
    · dsimp only
      rw [List.length_append, List.length_singleton]
      omega
    · dsimp only
      rw [List.length_append, List.length_singleton]
      omega
    · dsimp only
      rw [hs.fifo, List.append_assoc]
  | @lockGet t capacity node rest hpc hremove =>
    obtain ⟨n, hhead, rfl⟩ := hs.removes hpc hremove
    obtain ⟨hg, hh⟩ := moved t (.got capacity (some n))
    rw [hpc] at hg hh
    rw [hhead, List.length_cons] at hpromised hspace
    dsimp only [Pc.isGetting, Pc.holdsSpace] at hg hh
    have hfifo := hs.fifo
    rw [hhead] at hfifo
    refine ⟨?_, ?_, ?_, ?_⟩
    · dsimp only
      omega
    · dsimp only
      omega
    · dsimp only [Option.toList, List.map_singleton]
      rw [hfifo, List.map_append, List.append_assoc]
      rfl
    · intro u
      have hold := hs.returned u
      dsimp only [Option.toList, List.map_singleton]
      by_cases hu : u = t
      · rw [hu, hpc] at hold
        rw [hu, entries_snoc_self, update_self, hold]
        exact List.append_assoc _ _ _
      · rwa [entries_snoc_ne (Ne.symm hu), update_of_ne hu]
  | @ret t capacity node hpc =>
    obtain ⟨hg, hh⟩ := moved t .idle
    rw [hpc] at hg hh
    dsimp only [Pc.isGetting, Pc.holdsSpace] at hg hh
    refine ⟨?_, ?_, hs.fifo, ?_⟩
    · dsimp only
      omega
    · dsimp only
      omega
    · intro u
      have hold := hs.returned u
      dsimp only
      by_cases hu : u = t
      · rw [hu, hpc] at hold
        rw [hu, entries_snoc_self, update_self, hold]
        exact (List.append_nil _).symm
      · rwa [entries_snoc_ne (Ne.symm hu), update_of_ne hu]

theorem Sound.supplied (hs : Sound maxSize s) : Supplied s := by
  intro ls s' hrun t capacity hpc
  have hsound : Sound maxSize s' := by
    apply hrun.invariant hs
    rintro a l b ha ⟨hstep, u, rfl⟩
    exact hstep.sound trivial ha
  exact hsound.head_ne_nil hpc

theorem Sound.correct (hs : Sound maxSize s) : Correct maxSize s where
  supplied := hs.supplied
  length_le := by
    have := hs.space
    omega
  fifo := hs.fifo
  returned := hs.returned

/-- More calls than nodes: those that go first leave the list empty to one of them. -/
theorem starved {head : List Node} (hhead : s.head = head)
    (hlt : head.length < tally Pc.isGetting s.pc) :
    ∃ ls s', Runs (fun a l b => Step a l b ∧ ∃ t, l = .lockGet t) s ls s' ∧
      ∃ t capacity, s'.pc t = .getting capacity ∧ s'.head = [] := by
  induction head generalizing s with
  | nil =>
    obtain ⟨t, ht⟩ := exists_of_tally hlt
    obtain ⟨capacity, hpc⟩ := Pc.eq_getting ht
    exact ⟨[], s, Runs.nil s, t, capacity, hpc, hhead⟩
  | cons node rest ih =>
    obtain ⟨t, ht⟩ := exists_of_tally (Nat.lt_of_le_of_lt (Nat.zero_le _) hlt)
    obtain ⟨capacity, hpc⟩ := Pc.eq_getting ht
    have hremove : removeListFirst s.head = (some node, rest) := by
      rw [hhead]
      rfl
    obtain ⟨s1, hstep, hhead1, hpc1⟩ : ∃ s1, Step s (.lockGet t) s1 ∧ s1.head = rest ∧
        s1.pc = update s.pc t (.got capacity (some node)) :=
      ⟨_, Step.lockGet hpc hremove, rfl, rfl⟩
    have hmoved := tally_update Pc.isGetting s.pc t (.got capacity (some node))
    rw [hpc] at hmoved
    dsimp only [Pc.isGetting] at hmoved
    rw [List.length_cons] at hlt
    obtain ⟨ls, s', hrun, hend⟩ := ih hhead1 (by rw [hpc1]; omega)
    exact ⟨_, s', (Runs.single ⟨hstep, t, rfl⟩).append hrun, hend⟩

theorem Supplied.promised (hs : Supplied s) : tally Pc.isGetting s.pc ≤ s.head.length := by
  by_contra hlt
  obtain ⟨ls, s', hrun, t, capacity, hpc, hnil⟩ := starved rfl (Nat.lt_of_not_le hlt)
  exact hs ls s' hrun t capacity hpc hnil

/-- A call that passes its `sem_wait` with no node for it may remove from the empty list. -/
theorem Step.counted (h : Step s l s') (hs : Supplied s') : Counted s l := by
  have hpromised := hs.promised
  cases h with
  | @waitElem t capacity units hpc hunits =>
    have hmoved := tally_update Pc.isGetting s.pc t (.getting capacity)
    rw [hpc] at hmoved
    dsimp only [Pc.isGetting] at hmoved hpromised
    dsimp only [Counted]
    omega
  | callPut | waitSpace | lockPut | postElem | callGet | lockGet | postSpace | ret => trivial

/-- The runs in which each call of `queue_get` passes its `sem_wait` only when there is a node
for it are those in which the queue is correct all along. -/
theorem correct_iff (maxSize : Nat) (ls : List (Label T)) (s : State T) :
    Runs (fun a l b => Step a l b ∧ Counted a l) (queueInit maxSize) ls s ↔
      Runs (fun a l b => Step a l b ∧ Correct maxSize b) (queueInit maxSize) ls s := by
  apply Runs.iff_of (P := Sound maxSize) (Q := fun _ => True)
  · exact fresh_sound _
  · trivial
  · intro a l b ha hstep
    have hsound := hstep.1.sound hstep.2 ha
    exact ⟨⟨hstep.1, hsound.correct⟩, hsound⟩
  · intro a l b _ hstep
    exact ⟨⟨hstep.1, hstep.1.counted hstep.2.supplied⟩, trivial⟩

/-- The units of `elem_avaiable`, with those taken and to come, exceed the nodes by as many as
there were at the start. -/
def Accounted (elem : Nat) (s : State T) : Prop :=
  s.elemAvaiable + tally Pc.owesElem s.pc = s.head.length + elem

theorem Step.accounted {elem : Nat} (h : Step s l s') (hs : Sound maxSize s)
    (ha : Accounted elem s) : Accounted elem s' := by
  unfold Accounted at ha ⊢
  have moved := tally_update Pc.owesElem s.pc
  cases h with
  | callPut hpc | waitSpace hpc _ | callGet hpc | postSpace hpc | ret hpc =>
    rw [tally_same (by rw [hpc]; rfl)]
    exact ha
  | @lockPut t msg size hpc =>
    have howes := moved t .put
    rw [hpc] at howes
    dsimp only [Pc.owesElem] at howes ⊢
    rw [List.length_append, List.length_singleton]
    omega
  | @postElem t hpc =>
    have howes := moved t .idle
    rw [hpc] at howes
    dsimp only [Pc.owesElem] at howes ⊢
    omega
  | @waitElem t capacity units hpc hunits =>
    have howes := moved t (.getting capacity)
    rw [hpc] at howes
    dsimp only [Pc.owesElem] at howes ⊢
    omega
  | @lockGet t capacity node rest hpc hremove =>
    obtain ⟨n, hhead, rfl⟩ := hs.removes hpc hremove
    have howes := moved t (.got capacity (some n))
    rw [hpc] at howes
    rw [hhead, List.length_cons] at ha
    dsimp only [Pc.owesElem] at howes ⊢
    omega

theorem Step.counted_of_accounted (h : Step s l s') (ha : Accounted 0 s) : Counted s l := by
  unfold Accounted at ha
  have hle : tally Pc.isGetting s.pc ≤ tally Pc.owesElem s.pc :=
    tally_le fun t => (s.pc t).isGetting_le
  cases h with
  | waitElem hpc hunits =>
    dsimp only [Counted]
    omega
  | callPut | waitSpace | lockPut | postElem | callGet | lockGet | postSpace | ret => trivial

omit [DecidableEq T] in
theorem fresh_accounted : Accounted 0 (State.fresh 0 maxSize : State T) := by
  unfold Accounted State.fresh
  rw [tally_const]
  rfl

theorem correct_of_zero (hrun : Runs Step (State.fresh 0 maxSize) ls s) : Correct maxSize s := by
  have hboth : Sound maxSize s ∧ Accounted 0 s := by
    apply hrun.invariant (P := fun a : State T => Sound maxSize a ∧ Accounted 0 a)
    · exact ⟨fresh_sound 0, fresh_accounted⟩
    · rintro a l b ⟨hs, ha⟩ hstep
      exact ⟨hstep.sound (hstep.counted_of_accounted ha) hs, hstep.accounted hs ha⟩
  exact hboth.1.correct

/-- One call of `queue_get` passes the `sem_wait` of a queue that holds nothing. -/
theorem get_from_empty : ¬∀ (ls : List (Label Unit)) (s : State Unit),
    Runs Step (queueInit 1) ls s → Correct 1 s := by
  intro hall
  have hcall := Runs.single (s := (queueInit 1 : State Unit)) (l := Label.callGet () 128)
    (Step.callGet rfl)
  have hpassed := hcall.snoc (l := Label.waitElem ()) (Step.waitElem rfl rfl)
  exact (hall _ _ hpassed).supplied [] _ (Runs.nil _) () 128 rfl rfl

end Runs

end OsCourse.SemQueue
