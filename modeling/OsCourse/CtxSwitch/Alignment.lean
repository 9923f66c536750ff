import OsCourse.CtxSwitch.Dispatch

/-! The alignment of the stack where ctxswitch.s enters C functions: `internal_start`, by the
`ret` to a new thread, and `internal_cleanup`, by the call in `internal_exit`. -/
namespace OsCourse.CtxSwitch
open Function Machine Transition
variable {L : Layout} {S0 S S' : Sys} {ops : List Op} {op : Op} {c next : Nat} {T N : Thread}

/-- The stack pointer is as the calling convention has it at the entry of a function. -/
def AtEntry (m : State Reg) : Prop := m.reg .rsp % 16 = 8

/-- `malloc` aligns the stacks that it gives to `ut_create`, and C code calls the two routines
by the convention. -/
def Conforms (L : Layout) (S : Sys) : Op → Prop
  | .utCreate _ stack _ _ => stack % 16 = 0
  | .contextSwitch _ => AtEntry (step .rsp (.call L.contextSwitch) S.machine)
  | .internalExit _ => AtEntry (step .rsp (.call L.internalExit) S.machine)
  | .compute | .utRun _ _ | .utRunReturn => True

def Thread.Fresh (N : Thread) : Prop := ∃ function argument, N.status = .fresh function argument

/-- The machine is at the entry of the C function at `f`. -/
structure Entered (f : Nat) (m : State Reg) : Prop where
  rip : m.rip = f
  aligned : AtEntry m

/-- A new thread that the step dispatches enters `internal_start`. -/
def StartsAligned (L : Layout) (S : Sys) (next : Nat) (S' : Sys) : Prop :=
  ∀ N, S.threads next = some N → N.Fresh → Entered L.internalStart S'.machine

/-- `internal_exit` enters `internal_cleanup`. -/
def CleansAligned (L : Layout) (S : Sys) : Prop :=
  ∃ m, run .rsp L.code 3 (step .rsp (.call L.internalExit) S.machine) = some m ∧
    Entered L.internalCleanup m

def EntersAligned (L : Layout) (S : Sys) (op : Op) (S' : Sys) : Prop :=
  match op with
  | .contextSwitch next => StartsAligned L S next S'
  | .internalExit next => StartsAligned L S next S' ∧ CleansAligned L S
  | .compute | .utCreate _ _ _ _ | .utRun _ _ | .utRunReturn => True

def ConformingStep (L : Layout) (S : Sys) (op : Op) (S' : Sys) : Prop :=
  Step L S op S' ∧ Conforms L S op

/-- `internal_exit` goes on with a thread that has not run yet. -/
def FreshExitStep (L : Layout) (S : Sys) (op : Op) (S' : Sys) : Prop :=
  ConformingStep L S op S' ∧
    ∀ next N, op = .internalExit next → S.threads next = some N → N.Fresh

def AlignedStep (L : Layout) (S : Sys) (op : Op) (S' : Sys) : Prop :=
  ConformingStep L S op S' ∧ EntersAligned L S op S'

/-- What alignment is left in the context of a thread: that of its stack at first, and then
that of its own last call. -/
def Thread.Aligned (T : Thread) : Prop :=
  match T.status with
  | .running => True
  | .fresh _ _ => T.stack.lo % 16 = 0
  | .out m => m.reg .rsp % 16 = 0

def Sys.Aligned (S : Sys) : Prop := ∀ t T, S.threads t = some T → T.Aligned

theorem Thread.Aligned.running : Thread.Aligned { N with status := .running } := trivial

theorem Sys.Calls.rsp_aligned {target : Nat} (hc : S.Calls L c next T N)
    (he : AtEntry (step .rsp (.call target) S.machine)) : S.machine.reg .rsp % 16 = 0 := by
  have hlow := hc.low
  rw [AtEntry, call_sp] at he
  omega

theorem Step.aligned (h : Step L S op S') (hc : Conforms L S op) (ha : S.Aligned) :
    S'.Aligned := by
  intro t U hU
  cases h with
  | compute hm => exact ha t U hU
  | utCreate hd hb hap =>
    obtain ⟨-, rfl⟩ | ⟨-, hold⟩ := insert_threads hU
    · exact hc
    · exact ha t U hold
  | utRun hr hd hA hap =>
    obtain ⟨-, rfl⟩ | ⟨-, hold⟩ := insert_threads hU
    · trivial
    · exact ha t U hold
  | @utRunReturn d T hr hT hmain =>
    have hne : t ≠ d := by
      rintro rfl
      simp at hU
    exact ha t U ((update_of_ne hne _ _).symm.trans hU)
  | contextSwitch hcall hm =>
    obtain ⟨-, rfl⟩ | ⟨-, -, hout⟩ | ⟨-, -, hold⟩ := switchTo_threads hU
    · exact Thread.Aligned.running
    · cases hout
      exact hcall.rsp_aligned hc
    · exact ha t U hold
  | internalExit hcall hT hm hm' hm'' =>
    obtain ⟨-, rfl⟩ | ⟨-, -, hnone⟩ | ⟨-, -, hold⟩ := switchTo_threads hU
    · exact Thread.Aligned.running
    · cases hnone
    · exact ha t U hold

theorem Thread.Fresh.saved (hf : N.Fresh) (ha : N.Aligned) {ctx : Context} {sp : Nat}
    (hs : N.saved L = some (ctx, sp)) : ctx = initContext L ∧ sp % 16 = 8 := by
  obtain ⟨function, argument, hstatus⟩ := hf
  rw [Thread.Aligned, hstatus] at ha
  rw [Thread.saved, hstatus] at hs
  cases hs
  refine ⟨rfl, ?_⟩
  dsimp only at ha
  simp only [stackSize]
  omega

theorem Thread.Aligned.saved (ha : N.Aligned) (hf : ¬N.Fresh) {ctx : Context} {sp : Nat}
    (hs : N.saved L = some (ctx, sp)) : sp % 16 = 0 := by
  cases hstatus : N.status with
  | running =>
    rw [Thread.saved, hstatus] at hs
    cases hs
  | fresh function argument => exact absurd ⟨function, argument, hstatus⟩ hf
  | out m =>
    rw [Thread.Aligned, hstatus] at ha
    rw [Thread.saved, hstatus] at hs
    cases hs
    exact ha

theorem Loaded.enters {sp : Nat} {ctx : Context} {m : State Reg} (hl : Loaded ctx sp m)
    (hf : N.Fresh) (ha : N.Aligned) (hs : N.saved L = some (ctx, sp)) :
    Entered L.internalStart m := by
  obtain ⟨rfl, hsp⟩ := hf.saved ha hs
  refine ⟨hl.rip, ?_⟩
  rw [AtEntry, hl.rsp]
  exact hsp

/-- `internal_cleanup` is entered one word below the context of the next thread, which only
for a new thread is where a call leaves the stack pointer. -/
theorem cleansAligned_iff (hinv : Inv L S) (ha : S.Aligned) (hc : S.Calls L c next T N) :
    CleansAligned L S ↔ N.Fresh := by
  obtain ⟨ctx, sp, hsaved⟩ := Thread.saved_of_not_running (L := L) hc.saved
  obtain ⟨hlo, -, -, -⟩ := (hinv.ok next N hc.target).saved ctx sp hsaved
  constructor
  · rintro ⟨m, hrun, hentered⟩
    by_contra hf
    have hsp := (ha next N hc.target).saved hf hsaved
    have hrsp := (hc.exiting hinv hsaved hrun).rsp
    have hentry : m.reg .rsp % 16 = 8 := hentered.aligned
    simp only [sizeofContext] at hrsp
    omega
  · intro hf
    have hsp := (hf.saved (ha next N hc.target) hsaved).2
    obtain ⟨m, hrun, hm⟩ := hc.internalExit hinv hsaved
    refine ⟨m, hrun, hm.rip, ?_⟩
    rw [AtEntry, hm.rsp]
    simp only [sizeofContext]
    omega

theorem Step.starts (hinv : Inv L S) (ha : S.Aligned) (h : Step L S op S')
    (hd : op.Dispatches next) : StartsAligned L S next S' := by
  intro N hN hf
  obtain ⟨function, argument, hstatus⟩ := hf
  have hne : N.status ≠ .running := by
    rw [hstatus]
    exact nofun
  obtain ⟨ctx, sp, hsaved⟩ := Thread.saved_of_not_running (L := L) hne
  cases h with
  | compute | utCreate | utRun | utRunReturn => exact hd.elim
  | @contextSwitch c _ T N' m hc hm =>
    cases hd
    obtain rfl := Option.some.inj (hc.target.symm.trans hN)
    have hloaded := (hc.switched hinv hm).loads hinv hc hsaved
    exact hloaded.enters ⟨_, _, hstatus⟩ (ha _ _ hN) hsaved
  | @internalExit c _ T N' m m' m'' hc hT hm hm' hm'' =>
    cases hd
    obtain rfl := Option.some.inj (hc.target.symm.trans hN)
    have hex := hc.exiting hinv hsaved hm
    obtain ⟨hret, -, -, hloaded⟩ := hex.return hinv hc hsaved hm'
    obtain rfl : restore m' = m'' := Option.some.inj (hret.symm.trans hm'')
    exact hloaded.enters ⟨_, _, hstatus⟩ (ha _ _ hN) hsaved

theorem start_aligned (hs : S0.Start L) : S0.Aligned := by
  intro t T hT
  rw [hs.threads t] at hT
  cases hT

theorem ConformingStep.keeps (h : ConformingStep L S op S') (hS : Inv L S ∧ S.Aligned) :
    Inv L S' ∧ S'.Aligned :=
  ⟨inv_step hS.1 h.1, h.1.aligned h.2 hS.2⟩

/-- All that a conforming step enters is aligned, but for `internal_cleanup` above a thread
that has run. -/
theorem ConformingStep.entersAligned_iff (hinv : Inv L S) (ha : S.Aligned)
    (h : ConformingStep L S op S') : EntersAligned L S op S' ↔
      ∀ next N, op = .internalExit next → S.threads next = some N → N.Fresh := by
  obtain ⟨hstep, -⟩ := h
  cases hstep with
  | compute | utCreate | utRun | utRunReturn => exact ⟨fun _ => nofun, fun _ => trivial⟩
  | contextSwitch hc hm =>
    exact ⟨fun _ => nofun, fun _ => (Step.contextSwitch hc hm).starts hinv ha rfl⟩
  | @internalExit c next T N m m' m'' hc hT hm hm' hm'' =>
    have hcleans := cleansAligned_iff hinv ha hc
    have hstarts := (Step.internalExit hc hT hm hm' hm'').starts hinv ha rfl
    constructor
    · rintro ⟨-, hcleaned⟩ next' N' hop hN'
      cases hop
      obtain rfl := Option.some.inj (hc.target.symm.trans hN')
      exact hcleans.mp hcleaned
    · intro hfresh
      exact ⟨hstarts, hcleans.mpr (hfresh next N rfl hc.target)⟩

/-- The runs in which a thread that exits is always followed by a new one are those in which
every C function is entered with an aligned stack. -/
theorem aligned_iff (L : Layout) {S0 : Sys} (hs : S0.Start L) (ops : List Op) (S : Sys) :
    Runs (FreshExitStep L) S0 ops S ↔ Runs (AlignedStep L) S0 ops S := by
  have hinit : Inv L S0 ∧ S0.Aligned := ⟨inv_start hs, start_aligned hs⟩
  apply Runs.iff_of (P := fun S => Inv L S ∧ S.Aligned) (Q := fun S => Inv L S ∧ S.Aligned)
    hinit hinit
  · intro A op B hA hstep
    have hiff := hstep.1.entersAligned_iff hA.1 hA.2
    exact ⟨⟨hstep.1, hiff.mpr hstep.2⟩, hstep.1.keeps hA⟩
  · intro A op B hA hstep
    have hiff := hstep.1.entersAligned_iff hA.1 hA.2
    exact ⟨⟨hstep.1, hiff.mp hstep.2⟩, hstep.1.keeps hA⟩

/-- The program calls `context_switch` by the convention. -/
def alignedCall : Sys :=
  { smallCall with
    machine := { smallCall.machine with reg := update smallCall.machine.reg .rsp 100992 } }

theorem smallStart_start : smallStart.Start smallLayout := ⟨fun _ => rfl, rfl, rfl⟩

theorem alignedCall_runs : Runs (ConformingStep smallLayout) smallStart
    [.utCreate 2048 40000 7 8, .utRun 3000 ⟨100000, 101000⟩, .compute, .compute] alignedCall := by
  have hconform : ∀ op ∈ [Op.utCreate 2048 40000 7 8, .utRun 3000 ⟨100000, 101000⟩, .compute],
      ∀ S, Conforms smallLayout S op := by
    intro op hop S
    simp only [List.mem_cons, List.not_mem_nil, or_false] at hop
    obtain rfl | rfl | rfl := hop
    · exact (by decide : 40000 % 16 = 0)
    · trivial
    · trivial
  have hrun : Runs (ConformingStep smallLayout) smallStart _ smallCall :=
    smallCall_runs.mono_labels hconform fun A op B hop hstep => ⟨hstep, hop A⟩
  have hkeeps : smallCall.Keeps smallLayout alignedCall.machine.mem :=
    ⟨fun _ _ _ _ _ _ => rfl, fun _ _ _ _ _ => rfl, rfl⟩
  exact hrun.snoc ⟨Step.compute hkeeps, trivial⟩

theorem alignedCall_calls : alignedCall.Calls smallLayout 3000 2048 smallMain smallThread := by
  have hcell : alignedCall.machine.mem smallLayout.runningThread = 3000 := by
    simp [alignedCall, smallCall, smallLayout]
  refine ⟨rfl, rfl, rfl, by simp [smallThread], hcell.symm, rfl, by decide, by decide⟩

theorem alignedCall_inv : Inv smallLayout alignedCall :=
  inv_run smallStart_start (alignedCall_runs.mono fun _ _ _ h => h.1)

theorem alignedCall_conforms : Conforms smallLayout alignedCall (.contextSwitch 2048) := by
  rw [Conforms, AtEntry, call_sp]
  rfl

/-- The first switch enters `internal_start` aligned. -/
theorem aligned_iff_first : ∃ S, Runs (AlignedStep smallLayout) smallStart
    [.utCreate 2048 40000 7 8, .utRun 3000 ⟨100000, 101000⟩, .compute, .compute,
      .contextSwitch 2048] S := by
  obtain ⟨m, hm, -⟩ := alignedCall_calls.contextSwitch alignedCall_inv
  have hrun := alignedCall_runs.snoc
    ⟨Step.contextSwitch alignedCall_calls hm, alignedCall_conforms⟩
  have hfresh : ∀ A op B, (∀ next, op ≠ .internalExit next) →
      ConformingStep smallLayout A op B → FreshExitStep smallLayout A op B :=
    fun A op B hop h => ⟨h, fun next _ he => absurd he (hop next)⟩
  exact ⟨_, (aligned_iff smallLayout smallStart_start _ _).mp
    (hrun.mono_labels (by simp) hfresh)⟩

/-- The registers of the new thread when it is about to call `internal_exit`. -/
def exitRegs : Reg → Nat
  | .rdi => 2048
  | .rsi => 3000
  | .rsp => 72704
  | _ => 0

def exitCall (m : State Reg) : Sys :=
  { alignedCall.switchTo 3000 2048 (some { smallMain with status := .out alignedCall.machine })
      smallThread m with
    machine := { m with reg := exitRegs } }

theorem exitCall_rsp (m : State Reg) : (exitCall m).machine.reg .rsp = 72704 := rfl

theorem exitCall_calls {m : State Reg} (hm : m.mem 1000 = 2048) :
    (exitCall m).Calls smallLayout 2048 3000 { smallThread with status := .running }
      { smallMain with status := .out alignedCall.machine } where
  running := rfl
  current := rfl
  target := rfl
  saved := nofun
  rdi := hm.symm
  rsi := rfl
  low := by
    rw [exitCall_rsp]
    decide
  high := by
    rw [exitCall_rsp]
    decide

/-- The new thread exits, and the thread that called `ut_run` goes on. -/
theorem cleanup_misaligned : ¬∀ (L : Layout) (S0 : Sys) (ops : List Op) (S : Sys) (op : Op)
    (S' : Sys), S0.Start L → Runs (ConformingStep L) S0 ops S → ConformingStep L S op S' →
    EntersAligned L S op S' := by
  intro hall
  obtain ⟨m, hm, hsw⟩ := alignedCall_calls.contextSwitch alignedCall_inv
  have hswitched := alignedCall_runs.snoc
    ⟨Step.contextSwitch alignedCall_calls hm, alignedCall_conforms⟩
  have hcomputed : Runs (ConformingStep smallLayout) smallStart _ (exitCall m) :=
    hswitched.snoc ⟨Step.compute ⟨fun _ _ _ _ _ _ => rfl, fun _ _ _ _ _ => rfl, rfl⟩, trivial⟩
  have hinv := inv_run smallStart_start (hcomputed.mono fun _ _ _ h => h.1)
  have hcalls := exitCall_calls hsw.runningThread
  obtain ⟨m1, hrun, hex⟩ := hcalls.internalExit hinv rfl
  -- `internal_cleanup` returns at once
  have hclean : (exitCall m).Cleaned smallLayout 2048 3000 m1 (step .rsp .ret m1) :=
    ⟨rfl, by simp [step], fun _ _ _ _ _ _ _ => rfl, fun _ _ _ _ _ => rfl,
      fun _ _ _ _ _ _ => rfl, rfl⟩
  obtain ⟨hret, -⟩ := hex.return hinv hcalls rfl hclean
  have hstep := Step.internalExit hcalls rfl hrun hclean hret
  have hconforms : Conforms smallLayout (exitCall m) (.internalExit 3000) := by
    rw [Conforms, AtEntry, call_sp, exitCall_rsp]
  have henters := hall _ _ _ _ _ _ smallStart_start hcomputed ⟨hstep, hconforms⟩
  obtain ⟨-, m', hrun', hentered⟩ := henters
  have haligned : m'.reg .rsp % 16 = 8 := hentered.aligned
  rw [(hcalls.exiting hinv rfl hrun').rsp] at haligned
  exact absurd haligned (by decide)

end OsCourse.CtxSwitch
