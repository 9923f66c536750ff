import OsCourse.CtxSwitch.Saved

/-! The two calls from a state of the invariant, and the invariant along every step. -/
namespace OsCourse.CtxSwitch
open Function Machine
variable {L : Layout} {S S' : Sys} {c next : Nat} {T N : Thread}

theorem Sys.Calls.ne (hinv : Inv L S) (hc : S.Calls L c next T N) : next ≠ c := by
  intro he
  apply hc.saved
  rw [hinv.running next N hc.target, hc.running, he]

theorem Sys.Calls.rdi_eq (hinv : Inv L S) (hc : S.Calls L c next T N) :
    S.machine.reg .rdi = c := by
  rw [hc.rdi, hinv.runningThread, hc.running]
  rfl

/-- The memory and the registers once `context_switch` returned on the next stack. -/
structure Switched (L : Layout) (S : Sys) (c next : Nat) (T : Thread) (m : State Reg) : Prop where
  runningThread : m.mem L.runningThread = next
  context : m.mem (c + contextField) = S.machine.reg .rsp - sizeofContext
  saved : ContextAt m.mem (S.machine.reg .rsp - sizeofContext) (callContext S.machine)
  frame : ∀ p A a, S.area L p = some A → A.Has a → p ≠ .runningThread →
    (p = .stack c → S.machine.reg .rsp ≤ a) → a ≠ c + contextField → m.mem a = S.machine.mem a
  loaded : ∀ ctx sp, m.mem (next + contextField) = sp - sizeofContext → sizeofContext ≤ sp →
    ContextAt m.mem (sp - sizeofContext) ctx → Loaded ctx sp m

theorem Sys.Calls.contextSwitch (hinv : Inv L S) (hc : S.Calls L c next T N) :
    ∃ m, run .rsp L.code 16 (step .rsp (.call L.contextSwitch) S.machine) = some m ∧
      Switched L S c next T m := by
  have hlow := hc.low
  have hhigh := hc.high
  have hrdi := hc.rdi_eq hinv
  obtain ⟨s, hs, hrip, hsp, hreg, hmem⟩ := call_entry L.contextSwitch S.machine
  have hentry : entryContext s = callContext S.machine := by
    simp [entryContext, callContext, hreg, hsp, hmem]
  -- everything the call writes on the stack lies in the stack of `c`
  have hstack : ∀ p A a, S.area L p = some A → A.Has a →
      (p = .stack c → S.machine.reg .rsp ≤ a) →
      a + 8 ≤ S.machine.reg .rsp - 56 ∨ S.machine.reg .rsp ≤ a := by
    intro p A a hp ha hle
    by_cases hne : p = .stack c
    · exact Or.inr (hle hne)
    have hlo := hinv.words hne hp (area_stack hc.current) ha
      (b := S.machine.reg .rsp - 56) ⟨by omega, by omega⟩
    have hout := (hinv.apart _ _ _ _ hne hp (area_stack hc.current)).outside ha
    omega
  have hvar := hstack .runningThread _ _ rfl (runningThread_has L) (by simp)
  have hcurr := hstack (.descriptor c) _ c (area_descriptor hc.current)
    (descriptorArea_has_context _) (by simp)
  have hnext := hstack (.descriptor next) _ next (area_descriptor hc.target)
    (descriptorArea_has_context _) (by simp)
  have hne : c ≠ L.runningThread := by
    have hw := hinv.words (q := .runningThread) (by simp) (area_descriptor hc.current) rfl
      (descriptorArea_has_context _) (runningThread_has L)
    simp only [contextField] at hw
    omega
  obtain ⟨m, hrun, hsaved, hcell, hrunning, hframe, hload⟩ := contextSwitch_run L
    hrip (by omega) (by rw [hreg _ (by decide), hrdi, hsp]; omega)
    (by rw [hsp]; omega) (by rw [hreg _ (by decide), hrdi]; exact hne)
  rw [hreg .rdi (by decide), hrdi] at hcell hframe
  rw [hreg .rsi (by decide), hc.rsi] at hrunning hload
  rw [hentry] at hsaved
  have hp : s.reg .rsp - 48 = S.machine.reg .rsp - sizeofContext := by
    simp only [sizeofContext]
    omega
  rw [hp] at hsaved hcell hframe
  refine ⟨m, by rw [hs, hrun], hrunning, hcell, hsaved, ?_, ?_⟩
  · intro p A a hpA ha hpv hpc hac
    have hout := hstack p A a hpA ha hpc
    have hva := hinv.words hpv hpA rfl ha (runningThread_has L)
    rw [hframe a (by simp only [sizeofContext]; omega) hac (by omega), hmem,
      update_of_ne (by omega)]
  · intro ctx sp hcell' hle hctx
    have hsum : sp - sizeofContext + sizeofContext = sp := by omega
    have hload' := hload ctx
    simp only [contextField, Nat.add_zero] at hcell'
    rw [hcell', hsum] at hload'
    exact hload' hctx

theorem Sys.Calls.switched (hinv : Inv L S) (hc : S.Calls L c next T N) {m : State Reg}
    (hm : run .rsp L.code 16 (step .rsp (.call L.contextSwitch) S.machine) = some m) :
    Switched L S c next T m := by
  obtain ⟨m', hrun, hsw⟩ := hc.contextSwitch hinv
  obtain rfl : m' = m := Option.some.inj (hrun.symm.trans hm)
  exact hsw

/-- `internal_exit` has called `internal_cleanup`, on the stack of the next thread. -/
structure Exiting (L : Layout) (S : Sys) (c next sp : Nat) (m : State Reg) : Prop where
  rip : m.rip = L.internalCleanup
  rdi : m.reg .rdi = c
  rsp : m.reg .rsp = sp - sizeofContext - 8
  retAddr : m.mem (sp - sizeofContext - 8) = L.internalExit + 3
  runningThread : m.mem L.runningThread = next
  frame : ∀ p A a, S.area L p = some A → A.Has a → p ≠ .runningThread →
    (p = .stack c → S.machine.reg .rsp ≤ a) →
    (p = .stack next → sp - sizeofContext ≤ a) → m.mem a = S.machine.mem a

theorem Sys.Calls.internalExit (hinv : Inv L S) (hc : S.Calls L c next T N) {ctx : Context}
    {sp : Nat} (hsaved : N.saved L = some (ctx, sp)) :
    ∃ m, run .rsp L.code 3 (step .rsp (.call L.internalExit) S.machine) = some m ∧
      Exiting L S c next sp m := by
  have hlow := hc.low
  have hhigh := hc.high
  obtain ⟨hlo, hhi, hcell, -⟩ := (hinv.ok next N hc.target).saved ctx sp hsaved
  simp only [contextField, Nat.add_zero] at hcell
  obtain ⟨s, hs, hentry, -, hreg, hmem⟩ := call_entry L.internalExit S.machine
  -- the word below the stack pointer of `c`, and the word below the context of `next`
  have hcall : T.stack.Has (S.machine.reg .rsp - 8) := ⟨by omega, by omega⟩
  have hpush : N.stack.Has (sp - sizeofContext - 8) := by
    simp only [sizeofContext]
    exact ⟨by omega, by omega⟩
  have hnextcell : (descriptorArea next).Has next :=
    descriptorArea_has_context next
  have hvar : next ≠ L.runningThread := by
    have hw := hinv.words (q := .runningThread) (by simp) (area_descriptor hc.target) rfl
      hnextcell (runningThread_has L)
    omega
  have hnext : s.mem next = sp - sizeofContext := by
    have hw := hinv.words (by simp) (area_descriptor hc.target) (area_stack hc.current)
      hnextcell hcall
    rw [hmem, update_of_ne (by omega), hcell]
  obtain ⟨m, hrun, hrip, hrdi, hrsp, hm⟩ := internalExit_call L
    hentry (by rw [hreg _ (by decide), hc.rsi]; exact hvar)
  rw [hreg .rsi (by decide), hc.rsi, hnext] at hrsp hm
  rw [hreg .rdi (by decide), hc.rdi_eq hinv] at hrdi
  have hpushvar := hinv.words (by simp) (area_stack hc.target) (p := .stack next)
    (q := .runningThread) rfl hpush (runningThread_has L)
  refine ⟨m, by rw [hs, hrun], hrip, hrdi, hrsp, by rw [hm, update_self], ?_, ?_⟩
  · rw [hm, update_of_ne (by omega), update_self]
  · intro p A a hp ha hpv hpc hpn
    have hva := hinv.words hpv hp rfl ha (runningThread_has L)
    have hpa : a ≠ sp - sizeofContext - 8 := by
      by_cases hne : p = .stack next
      · have hle := hpn hne
        simp only [sizeofContext] at hle ⊢
        omega
      · have hw := hinv.words hne hp (area_stack hc.target) ha hpush
        omega
    have hca : a ≠ S.machine.reg .rsp - 8 := by
      by_cases hne : p = .stack c
      · have hle := hpc hne
        omega
      · have hw := hinv.words hne hp (area_stack hc.current) ha hcall
        omega
    rw [hm, update_of_ne hpa, update_of_ne (by omega), hmem, update_of_ne hca]

theorem Sys.Calls.exiting (hinv : Inv L S) (hc : S.Calls L c next T N) {ctx : Context}
    {sp : Nat} (hsaved : N.saved L = some (ctx, sp)) {m : State Reg}
    (hm : run .rsp L.code 3 (step .rsp (.call L.internalExit) S.machine) = some m) :
    Exiting L S c next sp m := by
  obtain ⟨m', hrun, hex⟩ := hc.internalExit hinv hsaved
  obtain rfl : m' = m := Option.some.inj (hrun.symm.trans hm)
  exact hex

theorem switchTo_threads {T' : Option Thread} {m : State Reg} {t : Nat} {U : Thread}
    (h : (S.switchTo c next T' N m).threads t = some U) :
    (t = next ∧ U = { N with status := .running }) ∨ (t ≠ next ∧ t = c ∧ T' = some U) ∨
      (t ≠ next ∧ t ≠ c ∧ S.threads t = some U) := by
  simp only [Sys.switchTo] at h
  by_cases hn : t = next
  · subst hn
    rw [update_self, Option.some.injEq] at h
    exact Or.inl ⟨rfl, h.symm⟩
  · rw [update_of_ne hn] at h
    by_cases hc : t = c
    · subst hc
      rw [update_self] at h
      exact Or.inr (Or.inl ⟨hn, rfl, h⟩)
    · rw [update_of_ne hc] at h
      exact Or.inr (Or.inr ⟨hn, hc, h⟩)

theorem Thread.Ok.running {mem mem' : Nat → Nat} {t : Nat} (h : N.Ok L mem t)
    (hf : ∀ f ∈ fields, mem' (t + f) = mem (t + f)) :
    Thread.Ok L mem' t { N with status := .running } := by
  refine ⟨fun hc => ?_, fun function argument he => ?_, fun c sp he => ?_, fun m he => ?_⟩
  · obtain ⟨hstack, hb⟩ := h.created hc
    exact ⟨hstack, (hf _ (by simp [fields])).trans hb⟩
  · simp at he
  · simp [Thread.saved] at he
  · simp at he

/-- The invariant after a dispatch, from what the new memory says about each thread. -/
theorem Inv.switchTo (hinv : Inv L S) (hc : S.Calls L c next T N) {T' : Option Thread}
    {m : State Reg} (hrunning : m.mem L.runningThread = next)
    (hnext : ∀ f ∈ fields, m.mem (next + f) = S.machine.mem (next + f))
    (hcurr : ∀ U, T' = some U → U.stack = T.stack ∧ U.status ≠ .running ∧ U.Ok L m.mem c)
    (hother : ∀ t U, t ≠ next → t ≠ c → S.threads t = some U → U.Ok L m.mem t) :
    Inv L (S.switchTo c next T' N m) := by
  constructor
  · apply hinv.apart_of_known
    intro t U hU
    obtain ⟨rfl, rfl⟩ | ⟨-, rfl, hT'⟩ | ⟨-, -, hU⟩ := switchTo_threads hU
    · exact ⟨N, hc.target, rfl⟩
    · exact ⟨T, hc.current, (hcurr U hT').1⟩
    · exact ⟨U, hU, rfl⟩
  · exact hrunning
  · intro t U hU
    simp only [Sys.switchTo, Option.some.injEq]
    obtain ⟨rfl, rfl⟩ | ⟨hn, rfl, hT'⟩ | ⟨hn, hcne, hU⟩ := switchTo_threads hU
    · exact ⟨fun _ => rfl, fun _ => rfl⟩
    · exact ⟨fun hs => absurd hs (hcurr U hT').2.1, fun he => absurd he.symm hn⟩
    · rw [hinv.running t U hU, hc.running, Option.some.injEq]
      exact ⟨fun he => absurd he.symm hcne, fun he => absurd he.symm hn⟩
  · intro t ht
    have he : next = t := by simpa [Sys.switchTo] using ht
    subst he
    exact ⟨_, update_self _ _ _⟩
  · intro t U hU
    obtain ⟨rfl, rfl⟩ | ⟨-, rfl, hT'⟩ | ⟨hn, hcne, hU⟩ := switchTo_threads hU
    · exact (hinv.ok t N hc.target).running hnext
    · exact (hcurr U hT').2.2
    · exact hother t U hn hcne hU

theorem Switched.fields (hinv : Inv L S) (hc : S.Calls L c next T N) {m : State Reg}
    (hm : Switched L S c next T m) {t : Nat} {U : Thread} (hU : S.threads t = some U)
    (ht : t ≠ c) : ∀ f ∈ fields, m.mem (t + f) = S.machine.mem (t + f) := by
  intro f hf
  have hw := hinv.words (by simpa using ht) (area_descriptor hU) (area_descriptor hc.current)
    (descriptorArea_has hf) (descriptorArea_has_context _)
  exact hm.frame _ _ _ (area_descriptor hU) (descriptorArea_has hf) (by simp) (by simp) (by omega)

theorem Switched.frames (hinv : Inv L S) (hc : S.Calls L c next T N) {m : State Reg}
    (hm : Switched L S c next T m) {t a : Nat} {U : Thread} (hU : S.threads t = some U)
    (ha : U.stack.Has a) (hle : t = c → S.machine.reg .rsp ≤ a) :
    m.mem a = S.machine.mem a := by
  have hw := hinv.words (by simp) (area_stack hU) (area_descriptor hc.current) ha
    (descriptorArea_has_context _)
  exact hm.frame _ _ _ (area_stack hU) ha (by simp) (by simpa using hle) (by omega)

theorem inv_contextSwitch (hinv : Inv L S) (hc : S.Calls L c next T N) {m : State Reg}
    (hm : Switched L S c next T m) :
    Inv L (S.switchTo c next (some { T with status := .out S.machine }) N m) := by
  have hlow := hc.low
  have hne := hc.ne hinv
  apply hinv.switchTo hc hm.runningThread (hm.fields hinv hc hc.target hne)
  · intro U hU
    obtain rfl : { T with status := .out S.machine } = U := by simpa using hU
    refine ⟨rfl, by simp, ?_⟩
    have hok := hinv.ok c T hc.current
    refine ⟨fun hcr => ?_, fun function argument he => ?_, fun ctx sp he => ?_,
      fun m' he a ha hle => ?_⟩
    · obtain ⟨hstack, hb⟩ := hok.created hcr
      refine ⟨hstack, ?_⟩
      have hsf : stackField ∈ fields := by simp [fields]
      rw [hm.frame _ _ _ (area_descriptor hc.current) (descriptorArea_has hsf) (by simp) (by simp)
        (by simp [stackField, contextField]), hb]
    · simp at he
    · have hsaved : callContext S.machine = ctx ∧ S.machine.reg .rsp = sp := by
        simpa [Thread.saved] using he
      obtain ⟨rfl, rfl⟩ := hsaved
      exact ⟨hc.low, hc.high, hm.context, hm.saved⟩
    · obtain rfl : S.machine = m' := by simpa using he
      exact hm.frames hinv hc hc.current ha fun _ => hle
  · intro t U hn hcne hU
    apply (hinv.ok t U hU).frame (hm.fields hinv hc hU hcne)
    intro ctx sp _ a ha _
    exact hm.frames hinv hc hU ha fun he => absurd he hcne

section
variable {m m' : State Reg} {sp : Nat}

theorem Exiting.fields (hm' : S.Cleaned L c next m m') (hm : Exiting L S c next sp m)
    {t : Nat} {U : Thread} (hU : S.threads t = some U) (ht : t ≠ c) :
    ∀ f ∈ fields, m'.mem (t + f) = S.machine.mem (t + f) := by
  intro f hf
  rw [hm'.descriptors t U hU ht f hf]
  exact hm.frame _ _ _ (area_descriptor hU) (descriptorArea_has hf) (by simp) (by simp) (by simp)

theorem Exiting.frames (hm' : S.Cleaned L c next m m') (hm : Exiting L S c next sp m)
    {t a : Nat} {U : Thread} (hU : S.threads t = some U) (ht : t ≠ c) (ha : U.stack.Has a)
    (hle : t = next → sp - sizeofContext ≤ a ∧ m.reg .rsp + 8 ≤ a) :
    m'.mem a = S.machine.mem a := by
  have hkept : m'.mem a = m.mem a := by
    by_cases hn : t = next
    · subst hn
      exact hm'.frames U hU a ha (hle rfl).2
    · exact hm'.suspended t U hU ht hn a ha
  rw [hkept]
  exact hm.frame _ _ _ (area_stack hU) ha (by simp) (by simp [ht])
    fun he => (hle (by simpa using he)).1

theorem inv_internalExit (hinv : Inv L S) (hc : S.Calls L c next T N)
    (hm : Exiting L S c next sp m) (hm' : S.Cleaned L c next m m') :
    Inv L (S.switchTo c next none N (restore m')) := by
  have hne := hc.ne hinv
  apply hinv.switchTo hc
  · rw [restore_mem, hm'.runningThread, hm.runningThread]
  · rw [restore_mem]
    exact hm.fields hm' hc.target hne
  · intro U hU
    cases hU
  · intro t U hn hcne hU
    rw [restore_mem]
    apply (hinv.ok t U hU).frame (hm.fields hm' hU hcne)
    intro _ _ _ a ha _
    exact hm.frames hm' hU hcne ha fun he => absurd he hn

theorem Exiting.return (hinv : Inv L S) (hc : S.Calls L c next T N) {ctx : Context}
    (hsaved : N.saved L = some (ctx, sp)) (hm : Exiting L S c next sp m)
    (hm' : S.Cleaned L c next m m') :
    run .rsp L.code 7 m' = some (restore m') ∧ m'.reg .rsp = sp - sizeofContext ∧
      (∀ a, N.stack.Has a → sp - sizeofContext ≤ a → m'.mem a = S.machine.mem a) ∧
      Loaded ctx sp (restore m') := by
  obtain ⟨hlo, hhi, -, hctx⟩ := (hinv.ok next N hc.target).saved ctx sp hsaved
  have hrip : m'.rip = L.internalExit + 3 := by rw [hm'.rip, hm.rsp, hm.retAddr]
  have hframe : m.reg .rsp + 8 = sp - sizeofContext := by
    rw [hm.rsp]
    simp only [sizeofContext]
    omega
  have hrsp : m'.reg .rsp = sp - sizeofContext := hm'.rsp.trans hframe
  have hkept : ∀ a, N.stack.Has a → sp - sizeofContext ≤ a → m'.mem a = S.machine.mem a :=
    fun a ha hle => hm.frames hm' hc.target (hc.ne hinv) ha fun _ => ⟨hle, hframe ▸ hle⟩
  have hctx' : ContextAt m'.mem (m'.reg .rsp) ctx := by
    rw [hrsp]
    apply hctx.frame
    intro a hle hlt
    apply hkept a _ hle
    simp only [sizeofContext] at hle hlt
    exact ⟨by omega, by omega⟩
  have hsum : sp - sizeofContext + sizeofContext = sp := by
    simp only [sizeofContext]
    omega
  have hload := restore_loaded hctx'
  rw [hrsp, hsum] at hload
  exact ⟨internalExit_return L hrip, hrsp, hkept, hload⟩

end

theorem inv_start (h : S.Start L) : Inv L S := by
  have hnone : ∀ t T, S.threads t ≠ some T := by
    intro t T hT
    rw [h.threads t] at hT
    cases hT
  constructor
  · intro p q A B hne hp hq
    cases p with
    | runningThread =>
      cases q with
      | runningThread => exact absurd rfl hne
      | descriptor t => simp [Sys.area, h.threads] at hq
      | stack t => simp [Sys.area, h.threads] at hq
    | descriptor t => simp [Sys.area, h.threads] at hp
    | stack t => simp [Sys.area, h.threads] at hp
  · rw [h.runningThread, h.running]
    rfl
  · intro t T hT
    exact absurd hT (hnone t T)
  · intro t ht
    rw [h.running] at ht
    cases ht
  · intro t T hT
    exact absurd hT (hnone t T)

theorem inv_compute (hinv : Inv L S) {m : State Reg} (hm : S.Keeps L m.mem) :
    Inv L { S with machine := m } := by
  refine ⟨hinv.apart, hm.runningThread.trans hinv.runningThread, hinv.running, hinv.known, ?_⟩
  intro t T hT
  apply (hinv.ok t T hT).frame (hm.descriptors t T hT)
  intro ctx sp hsaved a ha _
  apply hm.suspended t T hT _ a ha
  intro hr
  rw [← hinv.running t T hT] at hr
  simp [Thread.saved, hr] at hsaved

theorem Inv.ok_frame (hinv : Inv L S) {mem : Nat → Nat} {t : Nat} (hT : S.threads t = some T)
    (hf : ∀ p A a, S.area L p = some A → A.Has a → p ≠ .runningThread →
      mem a = S.machine.mem a) : T.Ok L mem t := by
  apply (hinv.ok t T hT).frame
  · intro f hfield
    exact hf _ _ _ (area_descriptor hT) (descriptorArea_has hfield) (by simp)
  · intro ctx sp _ a ha _
    exact hf _ _ _ (area_stack hT) ha (by simp)

theorem insert_threads {f : Nat → Option Thread} {d t : Nat} {D U : Thread}
    (h : update f d (some D) t = some U) : (t = d ∧ U = D) ∨ (t ≠ d ∧ f t = some U) := by
  obtain ⟨ht, hD⟩ | hold := Transition.update_cases h
  · exact Or.inl ⟨ht, (Option.some.inj hD).symm⟩
  · exact Or.inr hold

theorem inv_utCreate (hinv : Inv L S) {d b function argument : Nat}
    (hd : S.Free L (descriptorArea d)) (hb : S.Free L (blockOfStack b))
    (hap : (descriptorArea d).Apart (blockOfStack b)) {m : State Reg}
    (hm : m.mem = utCreate L d b function argument S.machine.mem) :
    Inv L { machine := m
            threads := update S.threads d (some
              { stack := blockOfStack b, created := true, status := .fresh function argument })
            running := S.running } := by
  have hframe : ∀ p A a, S.area L p = some A → A.Has a → m.mem a = S.machine.mem a := by
    intro p A a hp ha
    rw [hm]
    exact utCreate_frame L function argument _ ((hd p A hp).outside ha) ((hb p A hp).outside ha)
  obtain ⟨hcontext, hfunction, hargument, hstack⟩ :=
    utCreate_fields (b := b) L function argument S.machine.mem hap
  have hctx := utCreate_context L (d := d) (b := b) function argument S.machine.mem
  rw [← hm] at hcontext hfunction hargument hstack hctx
  have hdne : ∀ t T, S.threads t = some T → t ≠ d := by
    intro t T hT he
    rw [he, hd.not_thread] at hT
    cases hT
  constructor
  · exact hinv.apart_insert rfl hd hb hap
  · exact (hframe .runningThread _ _ rfl (runningThread_has L)).trans hinv.runningThread
  · intro t U hU
    obtain ⟨rfl, rfl⟩ | ⟨_, hT⟩ := insert_threads hU
    · refine ⟨fun hs => by simp at hs, fun hr => ?_⟩
      obtain ⟨T, hT⟩ := hinv.known t hr
      exact absurd rfl (hdne t T hT)
    · exact hinv.running t U hT
  · intro t ht
    obtain ⟨T, hT⟩ := hinv.known t ht
    exact ⟨T, by simp only [update_of_ne (hdne t T hT), hT]⟩
  · intro t U hU
    obtain ⟨rfl, rfl⟩ | ⟨_, hT⟩ := insert_threads hU
    · refine ⟨fun _ => ⟨rfl, hstack⟩, fun f a he => ?_, fun ctx sp he => ?_, fun m' he => ?_⟩
      · cases he
        exact ⟨rfl, hfunction, hargument⟩
      · obtain ⟨rfl, rfl⟩ : initContext L = ctx ∧ b + stackSize - 8 = sp := by
          simpa [Thread.saved, blockOfStack] using he
        have hp : b + stackSize - sizeofContext - 8 = b + stackSize - 8 - sizeofContext := by omega
        rw [hp] at hcontext hctx
        simp only [blockOfStack]
        exact ⟨by simp only [stackSize]; omega, by omega, hcontext, hctx⟩
      · cases he
    · exact hinv.ok_frame hT fun p A a hp ha _ => hframe p A a hp ha

theorem update_runningThread (hinv : Inv L S) (v : Nat) : ∀ p A a, S.area L p = some A →
    A.Has a → p ≠ .runningThread →
    update S.machine.mem L.runningThread v a = S.machine.mem a := by
  intro p A a hp ha hpv
  have hw := hinv.words hpv hp rfl ha (runningThread_has L)
  exact update_of_ne (by omega) _ _

theorem inv_utRun (hinv : Inv L S) {d : Nat} {A : Area} (hr : S.running = none)
    (hd : S.Free L (descriptorArea d)) (hA : S.Free L A) (hap : (descriptorArea d).Apart A)
    {m : State Reg} (hm : m.mem = update S.machine.mem L.runningThread d) :
    Inv L { machine := m
            threads := update S.threads d
              (some { stack := A, created := false, status := .running })
            running := some d } := by
  have hframe := update_runningThread hinv d
  rw [← hm] at hframe
  constructor
  · exact hinv.apart_insert rfl hd hA hap
  · simp [hm]
  · intro t U hU
    obtain ⟨rfl, rfl⟩ | ⟨hne, hT⟩ := insert_threads hU
    · simp
    · rw [hinv.running t U hT, hr]
      exact ⟨fun h => (by cases h), fun h => absurd (Option.some.inj h).symm hne⟩
  · intro t ht
    obtain rfl : d = t := by simpa using ht
    exact ⟨_, update_self _ _ _⟩
  · intro t U hU
    obtain ⟨rfl, rfl⟩ | ⟨_, hT⟩ := insert_threads hU
    · refine ⟨fun h => ?_, fun f a h => ?_, fun ctx sp h => ?_, fun m' h => ?_⟩
      all_goals cases h
    · exact hinv.ok_frame hT hframe

theorem inv_utRunReturn (hinv : Inv L S) {d : Nat} (hr : S.running = some d) {m : State Reg}
    (hm : m.mem = update S.machine.mem L.runningThread 0) :
    Inv L { machine := m, threads := update S.threads d none, running := none } := by
  have hframe := update_runningThread hinv 0
  rw [← hm] at hframe
  have hold : ∀ t U, update S.threads d none t = some U → t ≠ d ∧ S.threads t = some U := by
    intro t U hU
    by_cases ht : t = d
    · rw [ht, update_self] at hU
      cases hU
    · rw [update_of_ne ht] at hU
      exact ⟨ht, hU⟩
  constructor
  · exact hinv.apart_of_known fun t U hU => ⟨U, (hold t U hU).2, rfl⟩
  · simp [hm]
  · intro t U hU
    obtain ⟨hne, hT⟩ := hold t U hU
    rw [hinv.running t U hT, hr]
    exact ⟨fun h => absurd (Option.some.inj h).symm hne, fun h => by cases h⟩
  · intro t ht
    cases ht
  · intro t U hU
    exact hinv.ok_frame (hold t U hU).2 hframe

theorem inv_step {op : Op} (hinv : Inv L S) (h : Step L S op S') : Inv L S' := by
  cases h with
  | compute hm => exact inv_compute hinv hm
  | utCreate hd hb hap => exact inv_utCreate hinv hd hb hap rfl
  | utRun hr hd hA hap => exact inv_utRun hinv hr hd hA hap rfl
  | utRunReturn hr hT hmain => exact inv_utRunReturn hinv hr rfl
  | contextSwitch hc hm => exact inv_contextSwitch hinv hc (hc.switched hinv hm)
  | internalExit hc hT hm hm' hm'' =>
    obtain ⟨ctx, sp, hsaved⟩ := Thread.saved_of_not_running (L := L) hc.saved
    have hex := hc.exiting hinv hsaved hm
    obtain ⟨hret, -⟩ := hex.return hinv hc hsaved hm'
    obtain rfl : restore _ = _ := Option.some.inj (hret.symm.trans hm'')
    exact inv_internalExit hinv hc hex hm'

end OsCourse.CtxSwitch
