import OsCourse.MemChan.Channel

/-! The two condition variables of the channel: while somebody waits, each item, or each free
slot, has a wakeup on its way. -/
namespace OsCourse.MemChan
open Function Ints Transition Wakeup Tally

section Size
variable {cap n : Nat} {rb rb' : MemChannel}

/-- A channel of `cap` slots, `n` of them in use. -/
structure Sized (cap n : Nat) (rb : MemChannel) : Prop where
  capacity : rb.capacity = Int32.ofNat cap
  size : rb.size = Int32.ofNat n
  le : n ≤ cap

theorem Sized.full (h : Sized cap n rb) (hcap : cap < 2 ^ 31) {item : Nat → UInt8}
    (hput : mcPut rb item = none) : n = cap := by
  have hle := h.le
  rw [mcPut_none, h.size, h.capacity, ofNat_inj (by omega) hcap] at hput
  exact hput

theorem Sized.empty (h : Sized cap n rb) (hcap : cap < 2 ^ 31) (hget : mcGet rb = none) :
    n = 0 := by
  have hle := h.le
  have hzero : (0 : Int32) = Int32.ofNat 0 := rfl
  rw [mcGet_none, h.size, hzero, ofNat_inj (by omega) (by omega)] at hget
  exact hget

theorem Sized.put (h : Sized cap n rb) {item : Nat → UInt8} (hput : mcPut rb item = some rb') :
    n < cap ∧ Sized cap (n + 1) rb' := by
  unfold mcPut at hput
  split at hput
  · cases hput
  · rename_i hnot
    have hlt : n < cap := by
      apply Nat.lt_of_le_of_ne h.le
      intro he
      apply hnot
      rw [h.size, h.capacity, he]
    cases hput
    refine ⟨hlt, h.capacity, ?_, hlt⟩
    dsimp only
    rw [h.size]
    exact (Int32.ofNat_add n 1).symm

theorem Sized.get (h : Sized cap n rb) {item : List UInt8}
    (hget : mcGet rb = some (item, rb')) : ∃ m, n = m + 1 ∧ Sized cap m rb' := by
  have hle := h.le
  unfold mcGet at hget
  split at hget
  · cases hget
  · rename_i hnot
    have hne : n ≠ 0 := fun he => hnot (by rw [h.size, he]; rfl)
    obtain ⟨m, rfl⟩ := Nat.exists_eq_succ_of_ne_zero hne
    cases hget
    refine ⟨m, rfl, h.capacity, ?_, by omega⟩
    dsimp only
    rw [h.size, Nat.succ_eq_add_one, Int32.ofNat_add]
    exact Int32.add_sub_cancel _ _

theorem create_sized {shmemCreate : String → UInt64 → Option (Int → UInt8)}
    {pid elemSize : Int32} {name : String}
    (h : mcCreate shmemCreate pid elemSize (Int32.ofNat cap) name = some rb) :
    Sized cap 0 rb := by
  obtain ⟨buf, _, rfl⟩ := Option.map_eq_some_iff.mp h
  exact ⟨rfl, rfl, Nat.zero_le cap⟩

end Size

section Points

def Pc.isGetBlocked : Pc → Nat
  | .getBlocked => 1
  | _ => 0

def Pc.isGetWoken : Pc → Nat
  | .getWoken => 1
  | _ => 0

def Pc.isPutSignal : Pc → Nat
  | .putSignal => 1
  | _ => 0

def Pc.isPutBlocked : Pc → Nat
  | .putBlocked _ => 1
  | _ => 0

def Pc.isPutWoken : Pc → Nat
  | .putWoken _ => 1
  | _ => 0

def Pc.isGetSignal : Pc → Nat
  | .getSignal => 1
  | _ => 0

variable {P : Type*} [Fintype P]

/-- The gauge of `hasItems`. -/
def itemsGauge (pc : P → Pc) (n : Nat) : Gauge :=
  gaugeOf Pc.isGetBlocked Pc.isGetWoken Pc.isPutSignal pc n

/-- The gauge of `hasSpace`. -/
def spaceGauge (pc : P → Pc) (n : Nat) : Gauge :=
  gaugeOf Pc.isPutBlocked Pc.isPutWoken Pc.isGetSignal pc n

theorem Pc.weights_toPut {q : Pc} {item : Nat → UInt8} (h : q.toPut = some item) :
    q.isGetBlocked = 0 ∧ q.isGetWoken = 0 ∧ q.isPutSignal = 0 ∧ q.isPutBlocked = 0 ∧
      q.isPutWoken ≤ 1 ∧ q.isGetSignal = 0 := by
  cases q with
  | putting => exact ⟨rfl, rfl, rfl, rfl, Nat.zero_le 1, rfl⟩
  | putWoken => exact ⟨rfl, rfl, rfl, rfl, Nat.le_refl 1, rfl⟩
  | idle | putBlocked | putSignal | getting | getBlocked | getWoken | getSignal => cases h

theorem Pc.weights_toGet {q : Pc} (h : q.toGet = true) :
    q.isGetBlocked = 0 ∧ q.isGetWoken ≤ 1 ∧ q.isPutSignal = 0 ∧ q.isPutBlocked = 0 ∧
      q.isPutWoken = 0 ∧ q.isGetSignal = 0 := by
  cases q with
  | getting => exact ⟨rfl, Nat.zero_le 1, rfl, rfl, rfl, rfl⟩
  | getWoken => exact ⟨rfl, Nat.le_refl 1, rfl, rfl, rfl, rfl⟩
  | idle | putting | putBlocked | putWoken | putSignal | getBlocked | getSignal => cases h

theorem Pc.wakeHasItems_some {q q' : Pc} (h : q.wakeHasItems = some q') :
    q = .getBlocked ∧ q' = .getWoken := by
  cases q <;> cases h
  exact ⟨rfl, rfl⟩

theorem Pc.wakeHasSpace_some {q q' : Pc} (h : q.wakeHasSpace = some q') :
    ∃ item, q = .putBlocked item ∧ q' = .putWoken item := by
  cases q <;> cases h
  exact ⟨_, rfl, rfl⟩

theorem Pc.wakes_items (q : Pc) (h : 0 < q.isGetBlocked) : q.wakeHasItems ≠ none := by
  cases q with
  | getBlocked => simp [Pc.wakeHasItems]
  | idle | putting | putBlocked | putWoken | putSignal | getting | getWoken | getSignal =>
    cases h

theorem Pc.wakes_space (q : Pc) (h : 0 < q.isPutBlocked) : q.wakeHasSpace ≠ none := by
  cases q with
  | putBlocked => simp [Pc.wakeHasSpace]
  | idle | putting | putWoken | putSignal | getting | getBlocked | getWoken | getSignal =>
    cases h

end Points

section Moves
variable {P : Type*} [Fintype P] [DecidableEq P] {s s' : State P} {l : Label P} {cap n : Nat}

/-- Every step of the processes is a move of both gauges. -/
theorem Step.moves (h : Step s l s') (hcap : cap < 2 ^ 31) (hn : Sized cap n s.chan) :
    ∃ n', Sized cap n' s'.chan ∧ (itemsGauge s.pc n).Move (itemsGauge s'.pc n') ∧
      (spaceGauge s.pc (cap - n)).Move (spaceGauge s'.pc (cap - n')) := by
  have hle := hn.le
  cases h with
  | callPut hpc | callGet hpc =>
    refine ⟨n, hn, ?_, ?_⟩
    · exact gaugeOf_keep (by rw [hpc]; rfl) (by rw [hpc]; rfl) (by rw [hpc]; rfl)
    · exact gaugeOf_keep (by rw [hpc]; rfl) (by rw [hpc]; rfl) (by rw [hpc]; rfl)
  | waitSpace hpc hput =>
    obtain ⟨h1, h2, h3, _⟩ := Pc.weights_toPut hpc
    have hfull := hn.full hcap hput
    exact ⟨n, hn, gaugeOf_keep h1 h2 h3, Gauge.Move.sleep (Nat.sub_eq_zero_of_le hfull.ge)⟩
  | put hpc hput =>
    obtain ⟨h1, h2, h3, h4, h5, h6⟩ := Pc.weights_toPut hpc
    obtain ⟨hlt, hn'⟩ := hn.put hput
    refine ⟨n + 1, hn', ?_, ?_⟩
    · exact gaugeOf_produce rfl h1 h2 (by rw [h3]; rfl)
    · exact gaugeOf_take (by omega) h4 h5 h6
  | spuriousPut hpc =>
    refine ⟨n, hn, ?_, ?_⟩
    · exact gaugeOf_keep (by rw [hpc]; rfl) (by rw [hpc]; rfl) (by rw [hpc]; rfl)
    · exact gaugeOf_wake (by rw [hpc]; rfl) (by rw [hpc]; rfl) (by rw [hpc]; rfl)
  | signalItems hpc hsig =>
    refine ⟨n, hn, ?_, ?_⟩
    · apply gaugeOf_signal hsig Pc.wakes_items _ _ (by rw [hpc]; rfl) (by rw [hpc]; rfl)
        (by rw [hpc]; rfl) (by rw [hpc]; rfl)
      · intro p q hpq
        obtain ⟨rfl, rfl⟩ := Pc.wakeHasItems_some hpq
        exact ⟨rfl, rfl⟩
      · intro p q hpq
        obtain ⟨rfl, rfl⟩ := Pc.wakeHasItems_some hpq
        rfl
    · apply gaugeOf_apart hsig _ (by rw [hpc]; rfl)
      intro p q hpq
      obtain ⟨rfl, rfl⟩ := Pc.wakeHasItems_some hpq
      rfl
  | waitItems hpc hget =>
    obtain ⟨_, _, _, h4, h5, h6⟩ := Pc.weights_toGet hpc
    exact ⟨n, hn, Gauge.Move.sleep (hn.empty hcap hget), gaugeOf_keep h4 h5 h6⟩
  | get hpc hget =>
    obtain ⟨h1, h2, h3, h4, h5, h6⟩ := Pc.weights_toGet hpc
    obtain ⟨m, hm, hn'⟩ := hn.get hget
    refine ⟨m, hn', ?_, ?_⟩
    · exact gaugeOf_take hm h1 h2 h3
    · exact gaugeOf_produce (by omega) h4 h5 (by rw [h6]; rfl)
  | spuriousGet hpc =>
    refine ⟨n, hn, ?_, ?_⟩
    · exact gaugeOf_wake (by rw [hpc]; rfl) (by rw [hpc]; rfl) (by rw [hpc]; rfl)
    · exact gaugeOf_keep (by rw [hpc]; rfl) (by rw [hpc]; rfl) (by rw [hpc]; rfl)
  | signalSpace hpc hsig =>
    refine ⟨n, hn, ?_, ?_⟩
    · apply gaugeOf_apart hsig _ (by rw [hpc]; rfl)
      intro p q hpq
      obtain ⟨item, rfl, rfl⟩ := Pc.wakeHasSpace_some hpq
      rfl
    · apply gaugeOf_signal hsig Pc.wakes_space _ _ (by rw [hpc]; rfl) (by rw [hpc]; rfl)
        (by rw [hpc]; rfl) (by rw [hpc]; rfl)
      · intro p q hpq
        obtain ⟨item, rfl, rfl⟩ := Pc.wakeHasSpace_some hpq
        exact ⟨rfl, rfl⟩
      · intro p q hpq
        obtain ⟨item, rfl, rfl⟩ := Pc.wakeHasSpace_some hpq
        rfl

theorem covered_of_runs {shmemCreate : String → UInt64 → Option (Int → UInt8)}
    {pid elemSize : Int32} {name : String} {rb : MemChannel} (hcap : cap < 2 ^ 31)
    (hcreate : mcCreate shmemCreate pid elemSize (Int32.ofNat cap) name = some rb)
    {ls : List (Label P)} (hrun : Runs Step (init rb) ls s) :
    ∃ n, Sized cap n s.chan ∧ (itemsGauge s.pc n).Covered ∧
      (spaceGauge s.pc (cap - n)).Covered := by
  apply hrun.invariant (P := fun a : State P => ∃ n, Sized cap n a.chan ∧
    (itemsGauge a.pc n).Covered ∧ (spaceGauge a.pc (cap - n)).Covered)
  · have hgets : tally Pc.isGetBlocked (fun _ : P => Pc.idle) = 0 :=
      (tally_const Pc.isGetBlocked Pc.idle).trans (Nat.mul_zero _)
    have hputs : tally Pc.isPutBlocked (fun _ : P => Pc.idle) = 0 :=
      (tally_const Pc.isPutBlocked Pc.idle).trans (Nat.mul_zero _)
    refine ⟨0, create_sized hcreate, fun hb => ?_, fun hb => ?_⟩
    · exact absurd hgets (Nat.pos_iff_ne_zero.mp hb)
    · exact absurd hputs (Nat.pos_iff_ne_zero.mp hb)
  · rintro a l b ⟨n, hn, hitems, hspace⟩ hstep
    obtain ⟨n', hn', hmove, hmove'⟩ := hstep.moves hcap hn
    exact ⟨n', hn', hmove.covered hitems, hmove'.covered hspace⟩

/-- In every run, in a state where nobody is to signal and nobody woken has still to look: a
blocked getter means that the channel is empty and a blocked putter that it is full, so that
getters and putters are not blocked together. -/
theorem blocked_means (hpos : 1 ≤ cap) (hcap : cap < 2 ^ 31)
    (shmemCreate : String → UInt64 → Option (Int → UInt8)) (pid elemSize : Int32)
    (name : String) (rb : MemChannel)
    (hcreate : mcCreate shmemCreate pid elemSize (Int32.ofNat cap) name = some rb)
    (ls : List (Label P)) (s : State P) (hrun : Runs Step (init rb) ls s)
    (hsignal : ∀ p, s.pc p ≠ .putSignal ∧ s.pc p ≠ .getSignal)
    (hwoken : ∀ p, s.pc p ≠ .getWoken ∧ ∀ item, s.pc p ≠ .putWoken item) :
    ((∃ p, s.pc p = .getBlocked) → s.chan.size = 0) ∧
      ((∃ p item, s.pc p = .putBlocked item) → s.chan.size = s.chan.capacity) ∧
      ¬((∃ p, s.pc p = .getBlocked) ∧ ∃ p item, s.pc p = .putBlocked item) := by
  obtain ⟨n, hn, hitems, hspace⟩ := covered_of_runs hcap hcreate hrun
  have hzero : tally Pc.isPutSignal s.pc = 0 ∧ tally Pc.isGetSignal s.pc = 0 ∧
      tally Pc.isGetWoken s.pc = 0 ∧ tally Pc.isPutWoken s.pc = 0 := by
    refine ⟨tally_eq_zero.mpr fun p => ?_, tally_eq_zero.mpr fun p => ?_,
      tally_eq_zero.mpr fun p => ?_, tally_eq_zero.mpr fun p => ?_⟩
    · cases hpc : s.pc p with
      | putSignal => exact absurd hpc (hsignal p).1
      | idle | putting | putBlocked | putWoken | getting | getBlocked | getWoken | getSignal => rfl
    · cases hpc : s.pc p with
      | getSignal => exact absurd hpc (hsignal p).2
      | idle | putting | putBlocked | putWoken | putSignal | getting | getBlocked | getWoken => rfl
    · cases hpc : s.pc p with
      | getWoken => exact absurd hpc (hwoken p).1
      | idle | putting | putBlocked | putWoken | putSignal | getting | getBlocked | getSignal => rfl
    · cases hpc : s.pc p with
      | putWoken item => exact absurd hpc ((hwoken p).2 item)
      | idle | putting | putBlocked | putSignal | getting | getBlocked | getWoken | getSignal => rfl
  have hempty : (∃ p, s.pc p = .getBlocked) → n = 0 := by
    rintro ⟨p, hpc⟩
    have hle := le_tally Pc.isGetBlocked s.pc p
    rw [hpc] at hle
    exact hitems.empty hle hzero.1 hzero.2.2.1
  have hfull : (∃ p item, s.pc p = .putBlocked item) → cap - n = 0 := by
    rintro ⟨p, item, hpc⟩
    have hle := le_tally Pc.isPutBlocked s.pc p
    rw [hpc] at hle
    exact hspace.empty hle hzero.2.1 hzero.2.2.2
  have hle := hn.le
  refine ⟨fun hget => ?_, fun hput => ?_, fun hboth => ?_⟩
  · rw [hn.size, hempty hget]
    rfl
  · have := hfull hput
    rw [hn.size, hn.capacity, show n = cap by omega]
  · have h1 := hempty hboth.1
    have h2 := hfull hboth.2
    omega

end Moves

/-- A getter waits on a new channel, and a putter on a full one. -/
theorem blocked_means_one :
    (∃ (ls : List (Label Bool)) (s : State Bool),
      Runs Step (init ⟨0, 0, 1, 4, 0, 1, fun _ => 0⟩) ls s ∧ s.pc true = .getBlocked ∧
        s.chan.size = 0) ∧
    ∃ (ls : List (Label Bool)) (s : State Bool),
      Runs Step (init ⟨0, 0, 1, 4, 0, 1, fun _ => 0⟩) ls s ∧
        (∃ item, s.pc true = .putBlocked item) ∧ s.chan.size = s.chan.capacity := by
  have hcreate : mcCreate (fun _ _ => some fun _ => 0) 1 4 (Int32.ofNat 1) "c" =
    some ⟨0, 0, 1, 4, 0, 1, fun _ => 0⟩ := rfl
  have hasks := Runs.single (s := (init ⟨0, 0, 1, 4, 0, 1, fun _ => 0⟩ : State Bool))
    (l := Label.callGet true) (Step.callGet rfl)
  have hwaits := hasks.snoc (l := Label.lockGet true) (Step.waitItems rfl rfl)
  have hcall := Runs.single (s := (init ⟨0, 0, 1, 4, 0, 1, fun _ => 0⟩ : State Bool))
    (l := Label.callPut false fun _ => 7) (Step.callPut rfl)
  have hput := hcall.snoc (l := Label.lockPut false) (Step.put rfl rfl)
  have hsent := hput.snoc (l := Label.signalItems false none)
    (Step.signalItems rfl (Signal.nobody fun p => by cases p <;> rfl))
  have hcall' := hsent.snoc (l := Label.callPut true fun _ => 8) (Step.callPut rfl)
  have hstays := hcall'.snoc (l := Label.lockPut true) (Step.waitSpace rfl rfl)
  have hempty := (blocked_means (by decide) (by decide) _ 1 4 "c" _ hcreate _ _ hwaits
    (fun p => by cases p <;> exact ⟨nofun, nofun⟩)
    (fun p => by cases p <;> exact ⟨nofun, nofun⟩)).1 ⟨true, rfl⟩
  have hfull := (blocked_means (by decide) (by decide) _ 1 4 "c" _ hcreate _ _ hstays
    (fun p => by cases p <;> exact ⟨nofun, nofun⟩)
    (fun p => by cases p <;> exact ⟨nofun, nofun⟩)).2.1 ⟨true, _, rfl⟩
  exact ⟨⟨_, _, hwaits, rfl, hempty⟩, ⟨_, _, hstays, ⟨_, rfl⟩, hfull⟩⟩

end OsCourse.MemChan
