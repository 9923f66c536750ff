import OsCourse.Join.Joined

/-! Joins on threads that are gone. `ut_alive` looks for the address of the descriptor,
and an allocation may have given that address to another thread since. -/
namespace OsCourse.Join
open Function History Transition UThread
variable {b : Build}

/-- Creation number `g` of the history returned `h`. -/
def CreatedAs (log : List JoinStep) (g : Nat) (h : Handle) : Prop :=
  log[g]? = some (.created h)

instance (log : List JoinStep) (g : Nat) (h : Handle) : Decidable (CreatedAs log g h) :=
  inferInstanceAs (Decidable (_ = _))

/-- The thread of creation `g`, which returned `h`, has executed `ut_exit`. -/
def Gone (log : List JoinStep) (g : Nat) (h : Handle) : Prop := .exited h ∈ log.drop (g + 1)

instance (log : List JoinStep) (g : Nat) (h : Handle) : Decidable (Gone log g h) :=
  inferInstanceAs (Decidable (_ ∈ _))

/-- A later creation returned `h` again, for a thread that has not exited. -/
def Reused (log : List JoinStep) (g : Nat) (h : Handle) : Prop :=
  ∃ g', g < g' ∧ CreatedAs log g' h ∧ ¬ Gone log g' h

/-- A call, and for a join the creation whose handle the caller holds. -/
abbrev Call := Op × Nat

def HoldsHandle (w : World b) : Call → Prop
  | (.utJoin h, g) => CreatedAs w.log g h
  | _ => True

instance (w : World b) (c : Call) : Decidable (HoldsHandle w c) :=
  match c with
  | (.utJoin h, g) => inferInstanceAs (Decidable (CreatedAs w.log g h))
  | (.utCreate _, _) | (.utYield, _) | (.utExit, _) | (.utRun, _) | (.ret, _) => isTrue trivial

def CallStep (w : World b) (c : Call) (w' : World b) : Prop :=
  Step w c.1 w' ∧ HoldsHandle w c

/-- A join on a thread that is gone finds its address with no living thread. -/
def FreshStep (w : World b) (c : Call) (w' : World b) : Prop :=
  CallStep w c w' ∧ ∀ h, c.1 = .utJoin h → Gone w.log c.2 h → ¬ Reused w.log c.2 h

def Returned (w w' : World b) : Prop :=
  w'.lib.sched.current = w.lib.sched.current ∧
  w'.lib.sched.readyQueue = w.lib.sched.readyQueue ∧ ∀ k, w'.joiners k = w.joiners k

def ReturningStep (w : World b) (c : Call) (w' : World b) : Prop :=
  CallStep w c w' ∧ ∀ h, c.1 = .utJoin h → Gone w.log c.2 h → Returned w w'

def Recorded (w : World b) : Prop :=
  ∀ h, h ∈ w.lib.sched.live ↔ Unended (.created h) (.exited h) w.log

theorem recorded_init (b : Build) : Recorded (World.init b) := by
  intro h
  simp [World.init, utInit, UThread.utInit, Unended]

theorem recorded_same {w w' : World b} (hw : Recorded w)
    (hlive : w'.lib.sched.live = w.lib.sched.live) (hlog : w'.log = w.log) : Recorded w' := by
  intro h
  rw [hlive, hlog]
  exact hw h

theorem recorded_snoc {w w' : World b} {e : JoinStep} (hw : Recorded w)
    (hlive : w'.lib.sched.live = w.lib.sched.live) (hlog : w'.log = w.log ++ [e])
    (hc : ∀ h, e ≠ .created h) (he : ∀ h, e ≠ .exited h) : Recorded w' := by
  intro h
  rw [hlive, hlog, unended_snoc (by simp), hw h]
  simp [hc h, he h]

theorem recorded_step {op : Op} {w w' : World b} (hw : Recorded w) (he : Effect op w w') :
    Recorded w' := by
  cases he with
  | same _ _ h => rw [h]; exact hw
  | resume t _ _ h =>
    subst h
    obtain hlog | ⟨x, _, hlog⟩ := resume_log w t
    · exact recorded_same hw rfl hlog
    · exact recorded_snoc hw rfl hlog (by simp) (by simp)
  | create x _ _ h =>
    subst h
    intro k
    rw [unended_snoc (by simp), ← hw k]
    simp [utCreate, UThread.utCreate, utActivate, Sched.activateAll, eq_comm]
  | yield t _ _ h => exact recorded_same hw (by simp [h, Sched.activateAll]) (by rw [h])
  | join t x field _ _ _ _ _ h =>
    exact recorded_snoc hw (by simp [h]) (by rw [h]) (by simp) (by simp)
  | exit t field s _ _ _ hs h =>
    subst h
    intro k
    rw [unended_snoc (by simp), ← hw k]
    simp [internalCleanup, hs, Sched.activateAll, eq_comm]
  | start _ _ h => exact recorded_same hw (by simp [h]) (by rw [h])
  | finish _ _ _ h => exact recorded_same hw (by simp [h]) (by rw [h])

theorem reused_iff {w : World b} {g : Nat} {h : Handle} (hw : Recorded w)
    (hgone : Gone w.log g h) : Reused w.log g h ↔ h ∈ w.lib.sched.live := by
  rw [hw h]
  constructor
  · intro hre
    obtain ⟨g', _, hc, hg'⟩ := hre
    exact ⟨g', hc, hg'⟩
  · intro hun
    exact hun.later hgone

theorem join_returned {h : Handle} {w w' : World b} (he : Effect (.utJoin h) w w')
    (hdead : h ∉ w.lib.sched.live) : Returned w w' := by
  cases he with
  | same _ _ hw =>
    subst hw
    exact ⟨rfl, rfl, fun _ => rfl⟩
  | join t x field hop _ halive =>
    cases hop
    exact absurd halive hdead
  | resume _ hop | create _ hop | yield _ hop | exit _ _ _ hop | start hop | finish hop => cases hop

theorem join_not_returned {h : Handle} {w w' : World b} (hi : w.Inv)
    (hs : Step w (.utJoin h) w') (hlive : h ∈ w.lib.sched.live) : ¬ Returned w w' := by
  intro hr
  obtain ⟨l, hl, hw⟩ := bind_ok hs.2
  cases hw
  have halive : utAlive h w.lib = true := utAlive_iff.2 ((hi.mem_alive h).2 hlive)
  unfold utJoin at hl
  rw [if_neg (by simpa using halive)] at hl
  obtain ⟨⟨field, s⟩, hwait, hl⟩ := bind_ok hl
  cases hl
  obtain ⟨t, _, _, _, hj⟩ := waitExit_cases (hi.unset h hlive) hwait
  have hsame := hr.2.2 h
  have hnew : b.joiners field = b.joiners (w.lib.field h) := by
    simpa [World.joiners, World.leave] using hsame
  rw [hj] at hnew
  exact absurd (congrArg List.length hnew) (by simp)

theorem stale_join_returned_iff {h : Handle} {g : Nat} {w w' : World b} (hi : w.Inv)
    (hw : Recorded w) (hs : Step w (.utJoin h) w') (hgone : Gone w.log g h) :
    Returned w w' ↔ ¬ Reused w.log g h := by
  rw [reused_iff hw hgone]
  constructor
  · intro hr hlive
    exact join_not_returned hi hs hlive hr
  · intro hdead
    exact join_returned (step_effect hi hs) hdead

/-- In both builds, the runs in which joins on threads that are gone find their addresses
with no living thread are those in which each of these joins returns at once. -/
theorem stale_joins_return (b : Build) (calls : List Call) (w : World b) :
    Runs FreshStep (World.init b) calls w ↔ Runs ReturningStep (World.init b) calls w := by
  have hinit : (World.init b).Inv ∧ Recorded (World.init b) := ⟨inv_init b, recorded_init b⟩
  have hkeep : ∀ (a : World b) c a', a.Inv ∧ Recorded a → CallStep a c a' →
      a'.Inv ∧ Recorded a' := fun a c a' ha hs =>
    ⟨inv_step ha.1 hs.1, recorded_step ha.2 (step_effect ha.1 hs.1)⟩
  apply Runs.iff_of (P := fun w => w.Inv ∧ Recorded w) (Q := fun w => w.Inv ∧ Recorded w)
    hinit hinit
  · intro a c a' ha hstep
    refine ⟨⟨hstep.1, ?_⟩, hkeep a c a' ha hstep.1⟩
    intro h hop hgone
    exact (stale_join_returned_iff ha.1 ha.2 (hop ▸ hstep.1.1) hgone).mpr (hstep.2 h hop hgone)
  · intro a c a' ha hstep
    refine ⟨⟨hstep.1, ?_⟩, hkeep a c a' ha hstep.1⟩
    intro h hop hgone
    exact (stale_join_returned_iff ha.1 ha.2 (hop ▸ hstep.1.1) hgone).mp (hstep.2 h hop hgone)

/-- Thread 1 exits, the next creation gets its descriptor, and thread 2, which holds the
handle of the first creation, joins: it waits for the new thread. -/
theorem stale_join_blocks : ∃ w w' : World .withEvent,
    Runs CallStep (World.init .withEvent)
      [(.utCreate 1, 0), (.utCreate 2, 0), (.utRun, 0), (.utExit, 0), (.utCreate 1, 0)] w ∧
    CallStep w (.utJoin 1, 0) w' ∧ Gone w.log 0 1 ∧ ¬ Returned w w' ∧
    w.lib.sched.readyQueue = [1] ∧ w'.lib.sched.readyQueue = [] ∧ w'.joiners 1 = [2] := by
  have hrun := runs_of_runAll
    (fun (w : World .withEvent) (c : Call) => Allowed w c.1 ∧ HoldsHandle w c)
    (fun c w => exec c.1 w)
    [(.utCreate 1, 0), (.utCreate 2, 0), (.utRun, 0), (.utExit, 0), (.utCreate 1, 0)]
    (World.init .withEvent) rfl
  have hcalls : Runs CallStep _ _ _ := hrun.mono fun _ _ _ h => ⟨⟨h.1.1, h.2⟩, h.1.2⟩
  refine ⟨_, _, hcalls, ⟨⟨by decide, rfl⟩, by decide⟩, by decide, ?_, rfl, rfl, rfl⟩
  intro hr
  have hready := hr.2.1
  cases hready

end OsCourse.Join
