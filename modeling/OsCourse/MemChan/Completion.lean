import OsCourse.Lib.Exchange
import OsCourse.MemChan.Signals

/-! Processes that use a memory channel a number of times each, only to put or only to get: when
all of them come to their ends. -/
namespace OsCourse.MemChan
open Calls Exchange Function Transition Wakeup Tally

inductive Act where
  | put (item : Nat → UInt8)
  | get

def Act.isPut : Act → Bool
  | .put _ => true
  | .get => false

def Act.isGet : Act → Bool
  | .put _ => false
  | .get => true

/-- The call that a process is in, until its item is in the channel or out of it. -/
def Pc.act : Pc → Option Act
  | .putting item | .putBlocked item | .putWoken item => some (.put item)
  | .getting | .getBlocked | .getWoken => some .get
  | .idle | .putSignal | .getSignal => none

def Pc.isIdle : Pc → Bool
  | .idle => true
  | _ => false

def Label.isCall {P : Type*} : Label P → Bool
  | .callPut _ _ | .callGet _ => true
  | _ => false

def Label.isSpurious {P : Type*} : Label P → Bool
  | .spuriousPut _ | .spuriousGet _ => true
  | _ => false

/-- `todo` is what each process has not begun yet. -/
structure Program (P : Type*) where
  state : State P
  todo : P → List Act

/-- What a process still has to put and to get, the call it is in included. -/
def Program.left {P : Type*} (a : Program P) (p : P) : List Act :=
  (a.state.pc p).act.toList ++ a.todo p

section Steps
variable {P : Type*} [DecidableEq P]

inductive PStep : Program P → Label P → Program P → Prop
  | callPut {a : Program P} {s' : State P} {p : P} {item : Nat → UInt8} {rest : List Act} :
      a.todo p = .put item :: rest → Step a.state (.callPut p item) s' →
      PStep a (.callPut p item) ⟨s', update a.todo p rest⟩
  | callGet {a : Program P} {s' : State P} {p : P} {rest : List Act} :
      a.todo p = .get :: rest → Step a.state (.callGet p) s' →
      PStep a (.callGet p) ⟨s', update a.todo p rest⟩
  | run {a : Program P} {s' : State P} {l : Label P} : l.isCall = false → Step a.state l s' →
      PStep a l { a with state := s' }

variable [Fintype P]

/-- When all processes have made their calls: the number of items left in the channel. -/
def Program.result (a : Program P) : Option Int32 :=
  if ∀ p, (a.state.pc p).isIdle = true ∧ (a.todo p).isEmpty = true then some a.state.chan.size
  else none

def Program.trade (cap : Nat) (a : Program P) : Trade P :=
  { cap := cap
    inside := a.state.chan.size.toInt.toNat
    puts := fun p => (a.left p).countP Act.isPut
    gets := fun p => (a.left p).countP Act.isGet }

/-- A bound for the steps of a process that is at `q`: the signal that it sends may make one
more of another. -/
def Pc.weight : Pc → Nat
  | .idle => 0
  | .putSignal | .getSignal => 2
  | .putBlocked _ | .getBlocked => 3
  | .putWoken _ | .getWoken => 4
  | .putting _ | .getting => 5

def Program.ahead (a : Program P) : Nat :=
  tally Pc.weight a.state.pc + Finset.univ.sum fun p => 6 * (a.todo p).length

end Steps

section Points

theorem Pc.act_wakeHasItems (q q' : Pc) (h : q.wakeHasItems = some q') : q'.act = q.act := by
  obtain ⟨rfl, rfl⟩ := Pc.wakeHasItems_some h
  rfl

theorem Pc.act_wakeHasSpace (q q' : Pc) (h : q.wakeHasSpace = some q') : q'.act = q.act := by
  obtain ⟨item, rfl, rfl⟩ := Pc.wakeHasSpace_some h
  rfl

theorem Pc.act_toPut {q : Pc} {item : Nat → UInt8} (h : q.toPut = some item) :
    q.act = some (.put item) ∧ 4 ≤ q.weight := by
  cases q <;> cases h <;> exact ⟨rfl, by simp [Pc.weight]⟩

theorem Pc.act_toGet {q : Pc} (h : q.toGet = true) : q.act = some .get ∧ 4 ≤ q.weight := by
  cases q <;> cases h <;> exact ⟨rfl, by decide⟩

end Points

section Sizes
variable {cap n : Nat} {rb : MemChannel}

theorem Sized.toNat (h : Sized cap n rb) (hcap : cap < 2 ^ 31) : rb.size.toInt.toNat = n := by
  have hle := h.le
  rw [h.size, Int32.toInt_ofNat_of_lt (by omega), Int.toNat_natCast]

end Sizes

section Moves
variable {P : Type*} [DecidableEq P] {s s' : State P} {l : Label P} {cap n : Nat}

theorem act_update {pc : P → Pc} {p : P} {q : Pc} (h : q.act = (pc p).act) (y : P) :
    (update pc p q y).act = (pc y).act := by
  by_cases hy : y = p
  · rw [hy, update_self, h]
  · rw [update_of_ne hy]

theorem act_signal {wake : Pc → Option Pc} {pc pc' : P → Pc} {o : Option P} {p : P}
    (h : Signal wake pc o pc') (hwake : ∀ q q', wake q = some q' → q'.act = q.act)
    (hp : (pc p).act = none) (y : P) : (update pc' p .idle y).act = (pc y).act := by
  have hall := h.apply Pc.act hwake
  rw [act_update (by rw [hall, hp]; rfl), hall]

theorem Step.acts (h : Step s l s') (hl : l.isCall = false) (hcap : cap < 2 ^ 31)
    (hn : Sized cap n s.chan) :
    ((∀ y, (s'.pc y).act = (s.pc y).act) ∧ s'.chan = s.chan) ∨
      ∃ x c, (s.pc x).act = some c ∧ (s'.pc x).act = none ∧
        (∀ y, y ≠ x → s'.pc y = s.pc y) ∧
        s'.chan.size.toInt.toNat + c.isGet.toNat = n + c.isPut.toNat := by
  cases h with
  | callPut | callGet => cases hl
  | waitSpace hpc => exact Or.inl ⟨act_update (Pc.act_toPut hpc).1.symm, rfl⟩
  | waitItems hpc => exact Or.inl ⟨act_update (Pc.act_toGet hpc).1.symm, rfl⟩
  | spuriousPut hpc | spuriousGet hpc =>
    exact Or.inl ⟨act_update (by rw [hpc]; rfl), rfl⟩
  | signalItems hpc hsig =>
    exact Or.inl ⟨act_signal hsig Pc.act_wakeHasItems (by rw [hpc]; rfl), rfl⟩
  | signalSpace hpc hsig =>
    exact Or.inl ⟨act_signal hsig Pc.act_wakeHasSpace (by rw [hpc]; rfl), rfl⟩
  | @put p item rb hpc hput =>
    obtain ⟨_, hn'⟩ := hn.put hput
    refine Or.inr ⟨p, .put item, (Pc.act_toPut hpc).1, by simp [Pc.act],
      fun y hy => update_of_ne hy _ _, ?_⟩
    simp only [hn'.toNat hcap]
    rfl
  | @get p item rb hpc hget =>
    obtain ⟨k, rfl, hn'⟩ := hn.get hget
    refine Or.inr ⟨p, .get, (Pc.act_toGet hpc).1, by simp [Pc.act],
      fun y hy => update_of_ne hy _ _, ?_⟩
    simp only [hn'.toNat hcap]
    rfl

section Weights
variable [Fintype P]

theorem tally_less {pc : P → Pc} {p : P} {q : Pc} (h : q.weight < (pc p).weight) :
    tally Pc.weight (update pc p q) + 1 ≤ tally Pc.weight pc := by
  have := tally_update Pc.weight pc p q
  omega

theorem tally_signal {wake : Pc → Option Pc} {pc pc' : P → Pc} {o : Option P} {p : P}
    (h : Signal wake pc o pc') (hwake : ∀ q q', wake q = some q' → q'.weight = q.weight + 1)
    (hp : wake (pc p) = none) (hw : (pc p).weight = 2) :
    tally Pc.weight (update pc' p .idle) + 1 ≤ tally Pc.weight pc := by
  have hsame := h.of_none hp
  have hidle := tally_update Pc.weight pc' p .idle
  rw [hsame, hw] at hidle
  have hzero : Pc.idle.weight = 0 := rfl
  cases h with
  | nobody => omega
  | @one t q hq =>
    have hone := tally_update Pc.weight pc t q
    have hq' := hwake _ _ hq
    omega

theorem Step.weight (h : Step s l s') (hl : l.isCall = false) :
    tally Pc.weight s'.pc + 1 ≤ tally Pc.weight s.pc + if l.isSpurious then 2 else 0 := by
  cases h with
  | callPut | callGet => cases hl
  | waitSpace hpc | put hpc =>
    have hw := (Pc.act_toPut hpc).2
    exact tally_less (Nat.lt_of_lt_of_le (by simp [Pc.weight]) hw)
  | waitItems hpc | get hpc =>
    have hw := (Pc.act_toGet hpc).2
    exact tally_less (Nat.lt_of_lt_of_le (by simp [Pc.weight]) hw)
  | @spuriousPut p item hpc =>
    have h := tally_update Pc.weight s.pc p (.putWoken item)
    rw [hpc] at h
    simp only [Pc.weight, Label.isSpurious, if_true] at h ⊢
    omega
  | @spuriousGet p hpc =>
    have h := tally_update Pc.weight s.pc p .getWoken
    rw [hpc] at h
    simp only [Pc.weight, Label.isSpurious, if_true] at h ⊢
    omega
  | signalItems hpc hsig =>
    apply tally_signal hsig _ (by rw [hpc]; rfl) (by rw [hpc]; rfl)
    intro q q' hq
    obtain ⟨rfl, rfl⟩ := Pc.wakeHasItems_some hq
    rfl
  | signalSpace hpc hsig =>
    apply tally_signal hsig _ (by rw [hpc]; rfl) (by rw [hpc]; rfl)
    intro q q' hq
    obtain ⟨item, rfl, rfl⟩ := Pc.wakeHasSpace_some hq
    rfl

end Weights

end Moves

section Programs
variable {P : Type*} [DecidableEq P] [Fintype P] {a b : Program P} {l : Label P}
  {cap puts gets : Nat}

structure Program.Inv (cap puts gets : Nat) (a : Program P) : Prop where
  sized : Sized cap (a.trade cap).inside a.state.chan
  items : (itemsGauge a.state.pc (a.trade cap).inside).Covered
  space : (spaceGauge a.state.pc (cap - (a.trade cap).inside)).Covered
  oneSided : ∀ p, OneSided Act.isPut Act.isGet (a.left p)
  account : (a.trade cap).inside + Finset.univ.sum (a.trade cap).puts + gets =
    puts + Finset.univ.sum (a.trade cap).gets

omit [Fintype P] in
theorem PStep.step (h : PStep a l b) : Step a.state l b.state := by
  cases h with
  | callPut _ hs | callGet _ hs | run _ hs => exact hs

omit [Fintype P] in
theorem PStep.left (h : PStep a l b) (hcap : cap < 2 ^ 31) {n : Nat}
    (hn : Sized cap n a.state.chan) :
    ((∀ y, b.left y = a.left y) ∧ b.state.chan = a.state.chan) ∨
      ∃ x c, a.left x = c :: b.left x ∧ (∀ y, y ≠ x → b.left y = a.left y) ∧
        b.state.chan.size.toInt.toNat + c.isGet.toNat = n + c.isPut.toNat := by
  cases h with
  | @callPut s' p item rest htodo hs =>
    left
    cases hs with
    | callPut hpc =>
      refine ⟨fun y => ?_, rfl⟩
      by_cases hy : y = p
      · subst hy
        simp [Program.left, hpc, htodo, Pc.act]
      · simp [Program.left, hy]
  | @callGet s' p rest htodo hs =>
    left
    cases hs with
    | callGet hpc =>
      refine ⟨fun y => ?_, rfl⟩
      by_cases hy : y = p
      · subst hy
        simp [Program.left, hpc, htodo, Pc.act]
      · simp [Program.left, hy]
  | @run s' l hl hs =>
    obtain ⟨hsame, hchan⟩ | ⟨x, c, hx, hx', hothers, hlen⟩ := hs.acts hl hcap hn
    · exact Or.inl ⟨fun y => by simp only [Program.left, hsame y], hchan⟩
    · refine Or.inr ⟨x, c, by simp [Program.left, hx, hx'], fun y hy => ?_, hlen⟩
      simp only [Program.left, hothers y hy]

theorem Program.Inv.step (hi : a.Inv cap puts gets) (h : PStep a l b) (hcap : cap < 2 ^ 31) :
    b.Inv cap puts gets := by
  obtain ⟨n, hn, hitems, hspace⟩ := h.step.moves hcap hi.sized
  have hb : (b.trade cap).inside = n := hn.toNat hcap
  rw [← hb] at hn hitems hspace
  obtain ⟨hsame, hchan⟩ | ⟨x, c, hx, hothers, hlen⟩ := h.left hcap hi.sized
  · have hinside : (b.trade cap).inside = (a.trade cap).inside := by
      simp only [Program.trade, hchan]
    have hputs : (b.trade cap).puts = (a.trade cap).puts := by
      funext y
      simp only [Program.trade, hsame y]
    have hgets : (b.trade cap).gets = (a.trade cap).gets := by
      funext y
      simp only [Program.trade, hsame y]
    refine ⟨hn, hitems.covered hi.items, hspace.covered hi.space, ?_, ?_⟩
    · intro y
      rw [hsame y]
      exact hi.oneSided y
    · rw [hinside, hputs, hgets]
      exact hi.account
  · refine ⟨hn, hitems.covered hi.items, hspace.covered hi.space, ?_, ?_⟩
    · intro y
      by_cases hy : y = x
      · have hone := hi.oneSided x
        rw [hx] at hone
        rw [hy]
        exact hone.tail
      · rw [hothers y hy]
        exact hi.oneSided y
    · have hputs := sum_move (f := (a.trade cap).puts) (g := (b.trade cap).puts)
        (Finset.mem_univ x) fun y hy => by simp only [Program.trade, hothers y hy]
      have hgets := sum_move (f := (a.trade cap).gets) (g := (b.trade cap).gets)
        (Finset.mem_univ x) fun y hy => by simp only [Program.trade, hothers y hy]
      have hacc := hi.account
      simp only [Program.trade, hx, List.countP_cons] at *
      cases c <;> simp [Act.isPut, Act.isGet] at * <;> omega

theorem PStep.ahead (h : PStep a l b) :
    b.ahead + 1 ≤ a.ahead + if l.isSpurious then 2 else 0 := by
  unfold Program.ahead
  cases h with
  | @callPut s' p item rest htodo hs =>
    have hsum := sum_move (f := fun y => 6 * (a.todo y).length)
      (g := fun y => 6 * (update a.todo p rest y).length) (Finset.mem_univ p)
      fun y hy => by simp only [update_of_ne hy]
    simp only [htodo, update_self, List.length_cons] at hsum
    cases hs with
    | callPut hpc =>
      have hmove := tally_update Pc.weight a.state.pc p (.putting item)
      rw [hpc] at hmove
      simp only [Pc.weight, Label.isSpurious] at hmove ⊢
      omega
  | @callGet s' p rest htodo hs =>
    have hsum := sum_move (f := fun y => 6 * (a.todo y).length)
      (g := fun y => 6 * (update a.todo p rest y).length) (Finset.mem_univ p)
      fun y hy => by simp only [update_of_ne hy]
    simp only [htodo, update_self, List.length_cons] at hsum
    cases hs with
    | callGet hpc =>
      have hmove := tally_update Pc.weight a.state.pc p .getting
      rw [hpc] at hmove
      simp only [Pc.weight, Label.isSpurious] at hmove ⊢
      omega
  | run hl hs =>
    have hless := hs.weight hl
    dsimp only
    omega

omit [Fintype P] in
theorem exists_lockPut {p : P} {item : Nat → UInt8} (h : (a.state.pc p).toPut = some item) :
    ∃ l b, PStep a l b ∧ l.isSpurious = false := by
  cases hput : mcPut a.state.chan item with
  | none => exact ⟨_, _, PStep.run rfl (Step.waitSpace h hput), rfl⟩
  | some rb => exact ⟨_, _, PStep.run rfl (Step.put h hput), rfl⟩

omit [Fintype P] in
theorem exists_lockGet {p : P} (h : (a.state.pc p).toGet = true) :
    ∃ l b, PStep a l b ∧ l.isSpurious = false := by
  cases hget : mcGet a.state.chan with
  | none => exact ⟨_, _, PStep.run rfl (Step.waitItems h hget), rfl⟩
  | some r =>
    obtain ⟨item, rb⟩ := r
    exact ⟨_, _, PStep.run rfl (Step.get h hget), rfl⟩

/-- What a process that cannot go on is doing: it waits, or it is at its end. -/
inductive Rests (a : Program P) (p : P) : Prop
  | putting {item : Nat → UInt8} : a.state.pc p = .putBlocked item → Rests a p
  | getting : a.state.pc p = .getBlocked → Rests a p
  | finished : a.state.pc p = .idle → a.todo p = [] → Rests a p

omit [Fintype P] in
theorem rests_of_no_step (hno : ¬ ∃ l b, PStep a l b ∧ l.isSpurious = false) (p : P) :
    Rests a p := by
  cases hpc : a.state.pc p with
  | putBlocked item => exact Rests.putting hpc
  | getBlocked => exact Rests.getting hpc
  | putting item | putWoken item =>
    exact absurd (exists_lockPut (a := a) (p := p) (by rw [hpc]; rfl)) hno
  | getting | getWoken =>
    exact absurd (exists_lockGet (a := a) (p := p) (by rw [hpc]; rfl)) hno
  | putSignal =>
    obtain ⟨o, pc', hsig⟩ := exists_signal Pc.wakeHasItems a.state.pc
    exact absurd ⟨_, _, PStep.run rfl (Step.signalItems hpc hsig), rfl⟩ hno
  | getSignal =>
    obtain ⟨o, pc', hsig⟩ := exists_signal Pc.wakeHasSpace a.state.pc
    exact absurd ⟨_, _, PStep.run rfl (Step.signalSpace hpc hsig), rfl⟩ hno
  | idle =>
    cases htodo : a.todo p with
    | nil => exact Rests.finished hpc htodo
    | cons c rest =>
      cases c with
      | put item => exact absurd ⟨_, _, PStep.callPut htodo (Step.callPut hpc), rfl⟩ hno
      | get => exact absurd ⟨_, _, PStep.callGet htodo (Step.callGet hpc), rfl⟩ hno

omit [DecidableEq P] in
/-- With nobody to signal and nobody woken, who waits does so for good reason. -/
theorem Program.Inv.stuck (hi : a.Inv cap puts gets) (hrest : ∀ p, Rests a p) :
    (a.trade cap).Stuck Finset.univ := by
  have hquiet : ∀ w : Pc → Nat, (∀ item, w (.putBlocked item) = 0) → w .getBlocked = 0 →
      w .idle = 0 → tally w a.state.pc = 0 := by
    intro w hput hget hidle
    apply tally_eq_zero.mpr
    intro p
    cases hrest p with
    | putting hpc => rw [hpc, hput]
    | getting hpc => rw [hpc, hget]
    | finished hpc => rw [hpc, hidle]
  have hle := hi.sized.le
  refine ⟨?_, ?_⟩
  · intro p _ hpos
    have hput : 0 < (a.left p).countP Act.isPut := hpos
    have hone := hi.oneSided p
    cases hrest p with
    | finished hpc htodo =>
      simp [Program.left, hpc, htodo, Pc.act] at hput
    | getting hpc =>
      have hget : 0 < (a.left p).countP Act.isGet := by
        simp [Program.left, hpc, Pc.act, Act.isGet]
      unfold OneSided at hone
      omega
    | putting hpc =>
      have hblocked := le_tally Pc.isPutBlocked a.state.pc p
      rw [hpc] at hblocked
      have hempty := hi.space.empty hblocked
        (hquiet Pc.isGetSignal (fun _ => rfl) rfl rfl) (hquiet Pc.isPutWoken (fun _ => rfl) rfl rfl)
      have hcap : (a.trade cap).cap = cap := rfl
      simp only [spaceGauge, gaugeOf] at hempty
      omega
  · intro p _ hpos
    have hget : 0 < (a.left p).countP Act.isGet := hpos
    have hone := hi.oneSided p
    cases hrest p with
    | finished hpc htodo =>
      simp [Program.left, hpc, htodo, Pc.act] at hget
    | putting hpc =>
      have hput : 0 < (a.left p).countP Act.isPut := by
        simp [Program.left, hpc, Pc.act, Act.isPut]
      unfold OneSided at hone
      omega
    | getting hpc =>
      have hblocked := le_tally Pc.isGetBlocked a.state.pc p
      rw [hpc] at hblocked
      exact hi.items.empty hblocked
        (hquiet Pc.isPutSignal (fun _ => rfl) rfl rfl) (hquiet Pc.isGetWoken (fun _ => rfl) rfl rfl)

omit [DecidableEq P] in
theorem done_of_ends
    (h : ∀ p, (a.state.pc p).isIdle = true ∧ (a.todo p).isEmpty = true) :
    (a.trade cap).Done Finset.univ := by
  intro p _
  obtain ⟨hidle, hempty⟩ := h p
  have hleft : a.left p = [] := by
    cases hpc : a.state.pc p with
    | idle => simpa [Program.left, hpc, Pc.act] using hempty
    | putting | putBlocked | putWoken | putSignal | getting | getBlocked | getWoken | getSignal =>
      rw [hpc] at hidle
      cases hidle
  simp [Program.trade, hleft]

omit [DecidableEq P] in
theorem ends_of_done (hrest : ∀ p, Rests a p) (h : (a.trade cap).Done Finset.univ) :
    ∀ p, (a.state.pc p).isIdle = true ∧ (a.todo p).isEmpty = true := by
  intro p
  obtain ⟨hputs, hgets⟩ := h p (Finset.mem_univ p)
  cases hrest p with
  | finished hpc htodo =>
    rw [hpc, htodo]
    exact ⟨rfl, rfl⟩
  | putting hpc => simp [Program.trade, Program.left, hpc, Pc.act, Act.isPut] at hputs
  | getting hpc => simp [Program.trade, Program.left, hpc, Pc.act, Act.isGet] at hgets

def total (kind : Act → Bool) (script : P → List Act) : Nat :=
  Finset.univ.sum fun p => (script p).countP kind

omit [DecidableEq P] in
theorem Program.Inv.init {rb : MemChannel} (hn : Sized cap 0 rb) (hcap : cap < 2 ^ 31)
    {script : P → List Act} (hone : ∀ p, OneSided Act.isPut Act.isGet (script p)) :
    (Program.mk (MemChan.init rb) script).Inv cap (total Act.isPut script)
      (total Act.isGet script) := by
  have hinside : ((Program.mk (MemChan.init rb) script).trade cap).inside = 0 := hn.toNat hcap
  have hnone : ∀ w : Pc → Nat, w .idle = 0 → tally w (fun _ : P => Pc.idle) = 0 :=
    fun w hw => tally_eq_zero.mpr fun _ => hw
  refine ⟨by rw [hinside]; exact hn, fun hb => ?_, fun hb => ?_, hone, ?_⟩
  · exact absurd (hnone Pc.isGetBlocked rfl) (Nat.pos_iff_ne_zero.mp hb)
  · exact absurd (hnone Pc.isPutBlocked rfl) (Nat.pos_iff_ne_zero.mp hb)
  · rw [hinside, Nat.zero_add]
    rfl

/-- Processes that only put to a channel or only get from it, a number of times each: whatever
the order of their steps and the spurious wakeups, all of them come to their ends, with the other
items left in the channel, exactly when there is a put for each get and the channel has room for
the other puts. No run is endless apart from the spurious wakeups. -/
theorem channel_returns_iff (hpos : 1 ≤ cap) (hcap : cap < 2 ^ 31)
    {shmemCreate : String → UInt64 → Option (Int → UInt8)} {pid elemSize : Int32}
    {name : String} {rb : MemChannel}
    (hcreate : mcCreate shmemCreate pid elemSize (Int32.ofNat cap) name = some rb)
    {script : P → List Act} (hone : ∀ p, OneSided Act.isPut Act.isGet (script p)) :
    (Returns PStep ⟨MemChan.init rb, script⟩ Label.isSpurious Program.result
        (Int32.ofNat (total Act.isPut script - total Act.isGet script)) ↔
      total Act.isGet script ≤ total Act.isPut script ∧
        total Act.isPut script ≤ total Act.isGet script + cap) ∧
    ∃ n, ∀ ls a, Runs PStep ⟨MemChan.init rb, script⟩ ls a →
      ls.length ≤ n * (ls.countP Label.isSpurious + 1) := by
  refine ⟨?_, bounded_of_measure (c := 2) fun a l b h => h.ahead⟩
  apply returns_iff Finset.univ 2
    (Program.Inv cap (total Act.isPut script) (total Act.isGet script))
    (Program.trade cap) Program.ahead
  · exact hpos
  · exact Program.Inv.init (create_sized hcreate) hcap hone
  · intro a l b hi h
    exact hi.step h hcap
  · intro a hi
    exact ⟨⟨hi.account, hi.sized.le⟩, rfl⟩
  · intro a y hi hy
    unfold Program.result at hy
    split at hy
    · rename_i hend
      have hdone : (a.trade cap).Done Finset.univ := done_of_ends hend
      refine ⟨?_, hdone⟩
      obtain ⟨hputs, hgets⟩ := Trade.done_iff.mp hdone
      have hacc := hi.account
      have hinside : (a.trade cap).inside =
          total Act.isPut script - total Act.isGet script := by omega
      rw [← hinside, ← hi.sized.size]
      exact (Option.some.inj hy).symm
    · cases hy
  · intro a hi hnone
    by_cases hgo : ∃ l b, PStep a l b ∧ l.isSpurious = false
    · exact Or.inl hgo
    · have hrest := rests_of_no_step hgo
      refine Or.inr ⟨hi.stuck hrest, fun hdone => ?_⟩
      rw [Program.result, if_pos (ends_of_done hrest hdone)] at hnone
      cases hnone
  · intro a l b _ h
    exact h.ahead

end Programs

/-- One process puts three items, the other gets two, over a channel of one item; with nobody
to get them, three puts do not end. -/
theorem channel_returns_iff_three :
    Returns PStep (Program.mk (init ⟨0, 0, 1, 4, 0, 1, fun _ => 0⟩)
        fun p : Bool => if p then [.get, .get] else [.put fun _ => 7, .put fun _ => 8,
          .put fun _ => 9])
      Label.isSpurious Program.result 1 ∧
    ¬ Returns PStep (Program.mk (init ⟨0, 0, 1, 4, 0, 1, fun _ => 0⟩)
        fun p : Bool => if p then [] else [.put fun _ => 7, .put fun _ => 8, .put fun _ => 9])
      Label.isSpurious Program.result (Int32.ofNat 3) := by
  have hcreate : mcCreate (fun _ _ => some fun _ => 0) 1 4 (Int32.ofNat 1) "c" =
    some ⟨0, 0, 1, 4, 0, 1, fun _ => 0⟩ := rfl
  refine ⟨?_, fun h => ?_⟩
  · refine (channel_returns_iff (by decide) (by decide) hcreate fun p => ?_).1.mpr (by decide)
    cases p
    · exact Or.inr rfl
    · exact Or.inl rfl
  · have hfit := (channel_returns_iff (by decide) (by decide) hcreate fun p => by
      cases p
      · exact Or.inr rfl
      · exact Or.inl rfl).1.mp h
    exact absurd hfit (by decide)

end OsCourse.MemChan
