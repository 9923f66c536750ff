import OsCourse.CtxSwitch.Switching

/-! Every dispatch, in every run: a new thread enters `internal_start`, and a thread
that was switched out goes on after its own call. -/
namespace OsCourse.CtxSwitch
open Function Machine Transition
variable {L : Layout} {S0 S S' : Sys} {ops : List Op} {op : Op} {c next t : Nat} {T N : Thread}

/-- `op`, taken from `S1`, is a step of the run, and `t` was not dispatched after it. -/
def LastStep (L : Layout) (S0 : Sys) (ops : List Op) (S : Sys) (t : Nat) (op : Op) (S1 : Sys) :
    Prop :=
  ∃ before after S2, ops = before ++ op :: after ∧ Runs (Step L) S0 before S1 ∧
    Step L S1 op S2 ∧ Runs (Step L) S2 after S ∧ ∀ o ∈ after, ¬ o.Dispatches t

/-- `t` was created or called `context_switch`, and was not dispatched since. -/
def Since (L : Layout) (S0 : Sys) (ops : List Op) (S : Sys) (t : Nat) : Prop :=
  (∃ b function argument S1, LastStep L S0 ops S t (.utCreate t b function argument) S1) ∨
    ∃ x S1, LastStep L S0 ops S t (.contextSwitch x) S1 ∧ S1.running = some t

/-- What a caller sees when its call returns: its registers, its stack, and the
instruction after the call. -/
structure Resumed (call : State Reg) (stack : Area) (m : State Reg) : Prop where
  regs : ∀ r ∈ [Reg.rbx, .rbp, .r12, .r13, .r14, .r15, .rsp], m.reg r = call.reg r
  rip : m.rip = call.rip + 1
  frames : ∀ a, stack.Has a → call.reg .rsp ≤ a → m.mem a = call.mem a

/-- `m` is the machine right after the dispatch of `t`, at the end of the run. -/
structure Dispatched (L : Layout) (S0 : Sys) (ops : List Op) (S : Sys) (t : Nat) (stack : Area)
    (m : State Reg) : Prop where
  runningThread : m.mem L.runningThread = t
  first : ∀ b function argument S1, LastStep L S0 ops S t (.utCreate t b function argument) S1 →
    m.rip = L.internalStart ∧ m.reg .rsp = b + stackSize - 8 ∧
      m.mem (t + functionField) = function ∧ m.mem (t + argumentField) = argument
  later : ∀ x S1, LastStep L S0 ops S t (.contextSwitch x) S1 → S1.running = some t →
    Resumed S1.machine stack m
  since : Since L S0 ops S t

theorem LastStep.now {S1 : Sys} (h : Runs (Step L) S0 ops S1) (hs : Step L S1 op S) :
    LastStep L S0 (ops ++ [op]) S t op S1 :=
  ⟨ops, [], S, rfl, h, hs, Runs.nil S, by simp⟩

theorem LastStep.snoc {S1 : Sys} {op' : Op} (h : LastStep L S0 ops S t op S1)
    (hs : Step L S op' S') (ho : ¬ op'.Dispatches t) :
    LastStep L S0 (ops ++ [op']) S' t op S1 := by
  obtain ⟨before, after, S2, rfl, hrun, hstep, hafter, hall⟩ := h
  refine ⟨before, after ++ [op'], S2, by simp, hrun, hstep, Runs.snoc hafter hs, ?_⟩
  intro o hmem
  rw [List.mem_append, List.mem_singleton] at hmem
  cases hmem with
  | inl hold => exact hall o hold
  | inr hnew => exact hnew ▸ ho

theorem suspended_step (hinv : Inv L S) (hN : S.threads t = some N) (hst : N.status ≠ .running)
    (h : Step L S op S') (ho : ¬ op.Dispatches t) : S'.threads t = some N := by
  have hnr : ∀ d, S.running = some d → t ≠ d := by
    intro d hr he
    exact hst ((hinv.running t N hN).2 (he ▸ hr))
  have hnew : ∀ d, S.Free L (descriptorArea d) → t ≠ d := by
    intro d hd he
    rw [he, hd.not_thread] at hN
    cases hN
  cases h with
  | compute hm => exact hN
  | utCreate hd hb hap => exact (update_of_ne (hnew _ hd) _ _).trans hN
  | utRun hr hd hA hap => exact (update_of_ne (hnew _ hd) _ _).trans hN
  | utRunReturn hr hT hmain => exact (update_of_ne (hnr _ hr) _ _).trans hN
  | contextSwitch hc hm =>
    exact (update_of_ne (Ne.symm ho) _ _).trans ((update_of_ne (hnr _ hc.running) _ _).trans hN)
  | internalExit hc hT hm hm' hm'' =>
    exact (update_of_ne (Ne.symm ho) _ _).trans ((update_of_ne (hnr _ hc.running) _ _).trans hN)

theorem suspended_run (hinv : Inv L S) (hN : S.threads t = some N) (hst : N.status ≠ .running)
    (h : Runs (Step L) S ops S') (ho : ∀ o ∈ ops, ¬ o.Dispatches t) :
    S'.threads t = some N := by
  have hboth : Inv L S' ∧ S'.threads t = some N := by
    apply h.invariant_of ho ⟨hinv, hN⟩
    intro A o B hq hA hstep
    exact ⟨inv_step hA.1 hstep, suspended_step hA.1 hA.2 hst hstep hq⟩
  exact hboth.2

theorem inv_run (hs : S0.Start L) (h : Runs (Step L) S0 ops S) : Inv L S :=
  h.invariant (inv_start hs) fun _ _ _ hinv hstep => inv_step hinv hstep

theorem LastStep.created {b function argument : Nat} {S1 : Sys} (hs : S0.Start L)
    (h : LastStep L S0 ops S t (.utCreate t b function argument) S1) :
    S.threads t = some ⟨blockOfStack b, true, .fresh function argument⟩ := by
  obtain ⟨before, after, S2, -, hrun, hstep, hafter, hall⟩ := h
  have hinv := inv_step (inv_run hs hrun) hstep
  apply suspended_run hinv _ (by simp) hafter hall
  cases hstep with
  | utCreate hd hb hap => exact update_self _ _ _

theorem LastStep.switched {x : Nat} {S1 : Sys} (hs : S0.Start L)
    (h : LastStep L S0 ops S t (.contextSwitch x) S1) (hr : S1.running = some t) :
    ∃ T, S.threads t = some T ∧ T.status = .out S1.machine := by
  obtain ⟨before, after, S2, -, hrun, hstep, hafter, hall⟩ := h
  have hinv1 := inv_run hs hrun
  have hinv2 := inv_step hinv1 hstep
  cases hstep with
  | @contextSwitch c _ T N m hc hm =>
    obtain rfl := Option.some.inj (hc.running.symm.trans hr)
    refine ⟨{ T with status := .out S1.machine }, suspended_run hinv2 ?_ ?_ hafter hall, rfl⟩
    · simp only [Sys.switchTo, update_of_ne (Ne.symm (hc.ne hinv1)), update_self]
    · simp

theorem suspended_before (h : Step L S op S') (hN : S'.threads t = some N)
    (hst : N.status ≠ .running) : (S.threads t = some N ∧ ¬ op.Dispatches t) ∨
      (∃ b function argument, op = .utCreate t b function argument) ∨
      ∃ x, op = .contextSwitch x ∧ S.running = some t := by
  cases h with
  | compute hm => exact Or.inl ⟨hN, id⟩
  | utCreate hd hb hap =>
    obtain ⟨rfl, -⟩ | ⟨-, hold⟩ := insert_threads hN
    · exact Or.inr (Or.inl ⟨_, _, _, rfl⟩)
    · exact Or.inl ⟨hold, id⟩
  | utRun hr hd hA hap =>
    obtain ⟨-, rfl⟩ | ⟨-, hold⟩ := insert_threads hN
    · exact absurd rfl hst
    · exact Or.inl ⟨hold, id⟩
  | @utRunReturn d T hr hT hmain =>
    have hne : t ≠ d := by
      intro he
      rw [he] at hN
      simp at hN
    exact Or.inl ⟨(update_of_ne hne _ _).symm.trans hN, id⟩
  | contextSwitch hc hm =>
    obtain ⟨-, rfl⟩ | ⟨-, rfl, -⟩ | ⟨hn, -, hold⟩ := switchTo_threads hN
    · exact absurd rfl hst
    · exact Or.inr (Or.inr ⟨_, rfl, hc.running⟩)
    · exact Or.inl ⟨hold, Ne.symm hn⟩
  | internalExit hc hT hm hm' hm'' =>
    obtain ⟨-, rfl⟩ | ⟨-, -, hnone⟩ | ⟨hn, -, hold⟩ := switchTo_threads hN
    · exact absurd rfl hst
    · cases hnone
    · exact Or.inl ⟨hold, Ne.symm hn⟩

theorem suspended_since (hs : S0.Start L) (h : Runs (Step L) S0 ops S) :
    ∀ t N, S.threads t = some N → N.status ≠ .running → Since L S0 ops S t := by
  induction h with
  | nil =>
    intro t N hN
    rw [hs.threads t] at hN
    cases hN
  | snoc hrun hstep ih =>
    intro t N hN hst
    obtain ⟨hold, ho⟩ | ⟨b, function, argument, rfl⟩ | ⟨x, rfl, hr⟩ :=
      suspended_before hstep hN hst
    · cases ih t N hold hst with
      | inl hcreate =>
        obtain ⟨b, function, argument, S1, hlast⟩ := hcreate
        exact Or.inl ⟨b, function, argument, S1, hlast.snoc hstep ho⟩
      | inr hswitch =>
        obtain ⟨x, S1, hlast, hr⟩ := hswitch
        exact Or.inr ⟨x, S1, hlast.snoc hstep ho, hr⟩
    · exact Or.inl ⟨b, function, argument, _, LastStep.now hrun hstep⟩
    · exact Or.inr ⟨x, _, LastStep.now hrun hstep, hr⟩

theorem dispatched_of_loaded (hs : S0.Start L) (h : Runs (Step L) S0 ops S)
    (hN : S.threads t = some N) (hst : N.status ≠ .running) {m : State Reg}
    (hrunning : m.mem L.runningThread = t)
    (hfields : ∀ f ∈ fields, m.mem (t + f) = S.machine.mem (t + f))
    (hframes : ∀ ctx sp, N.saved L = some (ctx, sp) → ∀ a, N.stack.Has a →
      sp - sizeofContext ≤ a → m.mem a = S.machine.mem a)
    (hload : ∀ ctx sp, N.saved L = some (ctx, sp) → Loaded ctx sp m) :
    Dispatched L S0 ops S t N.stack m := by
  have hok := ((inv_run hs h).ok t N hN).frame hfields hframes
  refine ⟨hrunning, ?_, ?_, suspended_since hs h t N hN hst⟩
  · intro b function argument S1 hlast
    obtain rfl := Option.some.inj (hN.symm.trans (hlast.created hs))
    obtain ⟨-, hfunction, hargument⟩ := hok.fresh function argument rfl
    have hl := hload (initContext L) (b + stackSize - 8) rfl
    exact ⟨hl.rip, hl.rsp, hfunction, hargument⟩
  · intro x S1 hlast hr
    obtain ⟨T, hT, hout⟩ := hlast.switched hs hr
    obtain rfl := Option.some.inj (hN.symm.trans hT)
    have hl := hload (callContext S1.machine) (S1.machine.reg .rsp) (by rw [Thread.saved, hout])
    refine ⟨?_, hl.rip, hok.frames _ hout⟩
    simp [hl.rbx, hl.rbp, hl.r12, hl.r13, hl.r14, hl.r15, hl.rsp, callContext]

theorem Switched.loads (hinv : Inv L S) (hc : S.Calls L c next T N) {m : State Reg}
    (hm : Switched L S c next T m) {ctx : Context} {sp : Nat}
    (hsaved : N.saved L = some (ctx, sp)) : Loaded ctx sp m := by
  have hne := hc.ne hinv
  have hok := (hinv.ok next N hc.target).frame (hm.fields hinv hc hc.target hne)
    fun _ _ _ a ha _ => hm.frames hinv hc hc.target ha fun he => absurd he hne
  obtain ⟨hlo, -, hcell, hctx⟩ := hok.saved ctx sp hsaved
  exact hm.loaded ctx sp hcell (by simp only [sizeofContext]; omega) hctx

theorem contextSwitch_dispatches (hs : S0.Start L) (h : Runs (Step L) S0 ops S)
    (hc : S.Calls L c next T N) :
    ∃ m, run .rsp L.code 16 (step .rsp (.call L.contextSwitch) S.machine) = some m ∧
      Dispatched L S0 ops S next N.stack m := by
  have hinv := inv_run hs h
  have hne := hc.ne hinv
  obtain ⟨m, hrun, hm⟩ := hc.contextSwitch hinv
  have hfields := hm.fields hinv hc hc.target hne
  have hframes : ∀ ctx sp, N.saved L = some (ctx, sp) → ∀ a, N.stack.Has a →
      sp - sizeofContext ≤ a → m.mem a = S.machine.mem a :=
    fun _ _ _ a ha _ => hm.frames hinv hc hc.target ha fun he => absurd he hne
  exact ⟨m, hrun, dispatched_of_loaded hs h hc.target hc.saved hm.runningThread hfields
    hframes fun ctx sp hsaved => hm.loads hinv hc hsaved⟩

theorem Exiting.freed (hinv : Inv L S) (hc : S.Calls L c next T N) (hT : T.created = true)
    {sp : Nat} {m : State Reg} (hm : Exiting L S c next sp m) :
    internalCleanup m = [T.stack, descriptorArea c] := by
  obtain ⟨hblock, hstack⟩ := (hinv.ok c T hc.current).created hT
  have hcell := hm.frame _ _ _ (area_descriptor hc.current)
    (descriptorArea_has (f := stackField) (by simp [CtxSwitch.fields])) (by simp) (by simp)
    (by simp)
  rw [internalCleanup, hm.rdi, hcell, hstack, ← hblock]

/-- What lies on the stack of the next thread lies in no block that was freed. -/
theorem Inv.outside_freed (hinv : Inv L S) (hc : S.Calls L c next T N) {a : Nat}
    (ha : N.stack.Has a) : ∀ B ∈ [T.stack, descriptorArea c], a + 8 ≤ B.lo ∨ B.hi ≤ a := by
  intro B hB
  rw [List.mem_cons, List.mem_singleton] at hB
  cases hB with
  | inl he =>
    rw [he]
    exact (hinv.apart _ _ _ _ (by simpa using hc.ne hinv) (area_stack hc.target)
      (area_stack hc.current)).outside ha
  | inr he =>
    rw [he]
    exact (hinv.apart _ _ _ _ (by simp) (area_stack hc.target)
      (area_descriptor hc.current)).outside ha

theorem internalExit_dispatches (hs : S0.Start L) (h : Runs (Step L) S0 ops S)
    (hc : S.Calls L c next T N) (hT : T.created = true) :
    ∃ m, run .rsp L.code 3 (step .rsp (.call L.internalExit) S.machine) = some m ∧
      m.rip = L.internalCleanup ∧ internalCleanup m = [T.stack, descriptorArea c] ∧
      ∀ m', S.Cleaned L c next m m' →
        ∃ m'' l, run .rsp L.code 7 m' = some m'' ∧ Dispatched L S0 ops S next N.stack m'' ∧
          m''.touched = m'.touched ++ l ∧
          ∀ a ∈ m.reg .rsp :: l, ∀ B ∈ internalCleanup m, a + 8 ≤ B.lo ∨ B.hi ≤ a := by
  have hinv := inv_run hs h
  have hne := hc.ne hinv
  obtain ⟨ctx, sp, hsaved⟩ := Thread.saved_of_not_running (L := L) hc.saved
  obtain ⟨m, hrun, hm⟩ := hc.internalExit hinv hsaved
  obtain ⟨hlo, hhi, -, -⟩ := (hinv.ok next N hc.target).saved ctx sp hsaved
  have hfreed := hm.freed hinv hc hT
  refine ⟨m, hrun, hm.rip, hfreed, fun m' hm' => ?_⟩
  obtain ⟨hret, hrsp, hkept, hload⟩ := hm.return hinv hc hsaved hm'
  obtain ⟨l, htouched, hl⟩ := restore_touched m'
  rw [hrsp] at hl
  have hsame : ∀ ctx' sp', N.saved L = some (ctx', sp') → ctx = ctx' ∧ sp = sp' := by
    intro ctx' sp' hsaved'
    simpa [hsaved] using hsaved'
  refine ⟨restore m', l, hret, ?_, htouched, ?_⟩
  · apply dispatched_of_loaded hs h hc.target hc.saved
    · rw [restore_mem, hm'.runningThread, hm.runningThread]
    · rw [restore_mem]
      exact hm.fields hm' hc.target hne
    · intro ctx' sp' hsaved'
      obtain ⟨rfl, rfl⟩ := hsame ctx' sp' hsaved'
      rw [restore_mem]
      exact hkept
    · intro ctx' sp' hsaved'
      obtain ⟨rfl, rfl⟩ := hsame ctx' sp' hsaved'
      exact hload
  · intro a ha
    rw [hfreed]
    apply hinv.outside_freed hc
    rw [List.mem_cons] at ha
    simp only [sizeofContext] at hl
    cases ha with
    | inl he =>
      rw [he, hm.rsp]
      simp only [sizeofContext]
      exact ⟨by omega, by omega⟩
    | inr hmem =>
      obtain ⟨hle, hlt⟩ := hl a hmem
      exact ⟨by omega, by omega⟩

/-- In every run, `context_switch` and `internal_exit` dispatch the thread they are
given, and once `internal_cleanup` was called `internal_exit` stays off the blocks
that it freed. -/
theorem dispatch_restores (L : Layout) {S0 S : Sys} {ops : List Op} (hs : S0.Start L)
    (h : Runs (Step L) S0 ops S) {c next : Nat} {T N : Thread} (hc : S.Calls L c next T N) :
    (∃ m, run .rsp L.code 16 (step .rsp (.call L.contextSwitch) S.machine) = some m ∧
      Dispatched L S0 ops S next N.stack m) ∧
    (T.created = true →
      ∃ m, run .rsp L.code 3 (step .rsp (.call L.internalExit) S.machine) = some m ∧
        m.rip = L.internalCleanup ∧ internalCleanup m = [T.stack, descriptorArea c] ∧
        ∀ m', S.Cleaned L c next m m' →
          ∃ m'' l, run .rsp L.code 7 m' = some m'' ∧ Dispatched L S0 ops S next N.stack m'' ∧
            m''.touched = m'.touched ++ l ∧
            ∀ a ∈ m.reg .rsp :: l, ∀ B ∈ internalCleanup m, a + 8 ≤ B.lo ∨ B.hi ≤ a) :=
  ⟨contextSwitch_dispatches hs h hc, internalExit_dispatches hs h hc⟩

/-- A program that created one thread, at 2048 with its stack at 40000, and called
`ut_run`, whose descriptor stands at 3000. -/
def smallLayout : Layout :=
  { contextSwitch := 0
    internalExit := 16
    internalCleanup := 100
    internalStart := 200
    runningThread := 1000
    apart := Or.inl (Nat.le_refl 16) }

def smallStart : Sys :=
  { machine := { reg := fun _ => 0, rip := 300, mem := fun _ => 0, touched := [] }
    threads := fun _ => none
    running := none }

def smallThread : Thread :=
  { stack := blockOfStack 40000, created := true, status := .fresh 7 8 }

def smallCreated : Sys :=
  { machine := { smallStart.machine with mem := utCreate smallLayout 2048 40000 7 8 fun _ => 0 }
    threads := update smallStart.threads 2048 (some smallThread)
    running := none }

def smallMain : Thread := { stack := ⟨100000, 101000⟩, created := false, status := .running }

def smallCall : Sys :=
  { machine :=
      { reg := fun r =>
          match r with
          | .rdi => 3000
          | .rsi => 2048
          | .rsp => 101000
          | _ => 0
        rip := 400
        mem := update (utCreate smallLayout 2048 40000 7 8 fun _ => 0) 1000 3000
        touched := [] }
    threads := update (update (fun _ => none) 2048 (some smallThread)) 3000 (some smallMain)
    running := some 3000 }

theorem smallCall_runs : Runs (Step smallLayout) smallStart
    [.utCreate 2048 40000 7 8, .utRun 3000 ⟨100000, 101000⟩, .compute] smallCall := by
  have hfree : ∀ A : Area, 1008 ≤ A.lo → smallStart.Free smallLayout A := by
    intro A hA p B hB
    cases p with
    | runningThread =>
      obtain rfl : Area.mk 1000 1008 = B := by simpa [Sys.area, smallLayout] using hB
      exact Or.inl hA
    | descriptor t => simp [Sys.area, smallStart] at hB
    | stack t => simp [Sys.area, smallStart] at hB
  have hcreate : Step smallLayout smallStart (.utCreate 2048 40000 7 8) smallCreated :=
    Step.utCreate (hfree _ (by decide)) (hfree _ (by decide)) (Or.inl (by decide))
  have hfree1 : ∀ A : Area, 2096 ≤ A.lo → (blockOfStack 40000).Apart A →
      smallCreated.Free smallLayout A := by
    intro A hlo hA p B hB
    cases p with
    | runningThread =>
      obtain rfl : Area.mk 1000 1008 = B := by simpa [Sys.area, smallLayout] using hB
      exact Or.inl (by simp only; omega)
    | descriptor t =>
      obtain ⟨D, hD, rfl⟩ := Option.map_eq_some_iff.1 hB
      obtain ⟨rfl, -⟩ | ⟨-, hold⟩ := insert_threads hD
      · exact Or.inl hlo
      · cases hold
    | stack t =>
      obtain ⟨D, hD, rfl⟩ := Option.map_eq_some_iff.1 hB
      obtain ⟨rfl, rfl⟩ | ⟨-, hold⟩ := insert_threads hD
      · exact hA
      · cases hold
  have hrun := Step.utRun (L := smallLayout) (S := smallCreated) (d := 3000)
    (A := ⟨100000, 101000⟩) rfl (hfree1 _ (by decide) (Or.inr (by decide)))
    (hfree1 _ (by decide) (Or.inl (by decide))) (Or.inl (by decide))
  exact Runs.snoc (Runs.snoc (Runs.single hcreate) hrun) (Step.compute (m := smallCall.machine)
    ⟨fun _ _ _ _ _ _ => rfl, fun _ _ _ _ _ => rfl, rfl⟩)

theorem smallCall_calls : smallCall.Calls smallLayout 3000 2048 smallMain smallThread := by
  have hcell : smallCall.machine.mem smallLayout.runningThread = 3000 := by
    simp [smallCall, smallLayout]
  refine ⟨rfl, rfl, rfl, by simp [smallThread], hcell.symm, rfl, by decide, by decide⟩

/-- The first switch enters `internal_start`. -/
theorem dispatch_restores_first :
    ∃ m, run .rsp smallLayout.code 16 (step .rsp (.call 0) smallCall.machine) = some m ∧
      m.rip = 200 ∧ m.reg .rsp = 72760 := by
  have hstart : smallStart.Start smallLayout := ⟨fun _ => rfl, rfl, rfl⟩
  obtain ⟨m, hm, hdisp⟩ := (dispatch_restores smallLayout hstart smallCall_runs smallCall_calls).1
  refine ⟨m, hm, ?_⟩
  obtain ⟨b, function, argument, S1, hlast⟩ | ⟨x, S1, hlast, hr⟩ := hdisp.since
  · have hthread := hlast.created hstart
    have hsmall := smallCall_calls.target.symm.trans hthread
    obtain rfl : 40000 = b := by
      simp [smallThread, blockOfStack] at hsmall
      omega
    obtain ⟨hrip, hrsp, -⟩ := hdisp.first 40000 function argument S1 hlast
    exact ⟨hrip, hrsp⟩
  · obtain ⟨T, hT, hout⟩ := hlast.switched hstart hr
    have hsmall := smallCall_calls.target.symm.trans hT
    obtain rfl := Option.some.inj hsmall
    simp [smallThread] at hout

end OsCourse.CtxSwitch
