import OsCourse.Lib.Machine

/-! The two routines of ctxswitch.s, the layout of a saved context and the stack that
`ut_create` prepares (uthread.c). -/
namespace OsCourse.CtxSwitch
open Function Machine

inductive Reg where
  | rsp | rbx | rbp | r12 | r13 | r14 | r15 | rdi | rsi
  deriving DecidableEq, Repr

/-- Where the linker put the code and the variable `running_thread`. -/
structure Layout where
  contextSwitch : Nat
  internalExit : Nat
  internalCleanup : Nat
  internalStart : Nat
  runningThread : Nat
  apart : contextSwitch + 16 ≤ internalExit ∨ internalExit + 10 ≤ contextSwitch

def contextSwitchCode (L : Layout) : List (Instr Reg) :=
  [.push .rbp, .push .rbx, .push .r12, .push .r13, .push .r14, .push .r15,
    .store .rsp .rdi,
    .storeAt .rsi L.runningThread,
    .load .rsi .rsp,
    .pop .r15, .pop .r14, .pop .r13, .pop .r12, .pop .rbx, .pop .rbp,
    .ret]

def internalExitCode (L : Layout) : List (Instr Reg) :=
  [.storeAt .rsi L.runningThread,
    .load .rsi .rsp,
    .call L.internalCleanup,
    .pop .r15, .pop .r14, .pop .r13, .pop .r12, .pop .rbx, .pop .rbp,
    .ret]

def placed (base : Nat) (is : List (Instr Reg)) (a : Nat) : Option (Instr Reg) :=
  if base ≤ a then is[a - base]? else none

def Layout.code (L : Layout) (a : Nat) : Option (Instr Reg) :=
  match placed L.contextSwitch (contextSwitchCode L) a with
  | some i => some i
  | none => placed L.internalExit (internalExitCode L) a

/-- `uthread_context_t`: a field for each register, in the order of their addresses. -/
structure Context where
  r15 : Nat
  r14 : Nat
  r13 : Nat
  r12 : Nat
  rbx : Nat
  rbp : Nat
  retAddr : Nat
  deriving DecidableEq, Repr

def sizeofContext : Nat := 56

/-- The words from `p` on are the fields of `c`. -/
structure ContextAt (mem : Nat → Nat) (p : Nat) (c : Context) : Prop where
  r15 : mem p = c.r15
  r14 : mem (p + 8) = c.r14
  r13 : mem (p + 16) = c.r13
  r12 : mem (p + 24) = c.r12
  rbx : mem (p + 32) = c.rbx
  rbp : mem (p + 40) = c.rbp
  retAddr : mem (p + 48) = c.retAddr

/-- Offsets in `struct uthread`; the links of the ready queue stand at 8 and 16. -/
def contextField : Nat := 0
def functionField : Nat := 24
def argumentField : Nat := 32
def stackField : Nat := 40
def sizeofUthread : Nat := 48

def stackSize : Nat := 8 * 4096

/-- `memset(p, 0, n)`, on the words inside. -/
def zero (p n : Nat) (mem : Nat → Nat) (a : Nat) : Nat :=
  if p ≤ a ∧ a + 8 ≤ p + n then 0 else mem a

def initContext (L : Layout) : Context :=
  { r15 := 0x55555555
    r14 := 0x44444444
    r13 := 0x33333333
    r12 := 0x22222222
    rbx := 0x11111111
    rbp := 0x00000000
    retAddr := L.internalStart }

/-- What `ut_create` writes to memory, where `malloc` returned `thread` and `stack`. -/
def utCreate (L : Layout) (thread stack function argument : Nat) (mem : Nat → Nat) : Nat → Nat :=
  let mem := update mem (thread + stackField) stack
  let mem := zero stack stackSize mem
  let mem := update mem (thread + functionField) function
  let mem := update mem (thread + argumentField) argument
  let context := stack + stackSize - sizeofContext - 8
  let mem := update mem (thread + contextField) context
  let mem := update mem context (initContext L).r15
  let mem := update mem (context + 8) (initContext L).r14
  let mem := update mem (context + 16) (initContext L).r13
  let mem := update mem (context + 24) (initContext L).r12
  let mem := update mem (context + 32) (initContext L).rbx
  let mem := update mem (context + 40) (initContext L).rbp
  update mem (context + 48) (initContext L).retAddr

def savedRegs : List Reg := [.r15, .r14, .r13, .r12, .rbx, .rbp]

theorem contextSwitchCode_eq (L : Layout) : contextSwitchCode L =
    pushes savedRegs.reverse ++ [.store .rsp .rdi, .storeAt .rsi L.runningThread,
      .load .rsi .rsp] ++ pops savedRegs ++ [.ret] := rfl

theorem internalExitCode_eq (L : Layout) : internalExitCode L =
    [.storeAt .rsi L.runningThread, .load .rsi .rsp, .call L.internalCleanup] ++
      (pops savedRegs ++ [.ret]) := rfl

theorem contextSwitch_placed (L : Layout) :
    CodeAt L.code L.contextSwitch (contextSwitchCode L) := by
  intro k i hk
  simp [Layout.code, placed, hk]

theorem internalExit_placed (L : Layout) : CodeAt L.code L.internalExit (internalExitCode L) := by
  intro k i hk
  have hlt : k < 10 := (List.getElem?_eq_some_iff.1 hk).1
  have hnone : placed L.contextSwitch (contextSwitchCode L) (L.internalExit + k) = none := by
    unfold placed
    split
    · rename_i hle
      apply List.getElem?_eq_none
      have hlen : (contextSwitchCode L).length = 16 := rfl
      have hapart := L.apart
      omega
    · rfl
  rw [Layout.code, hnone]
  simp [placed, hk]

/-- The registers and the instruction pointer are those of the context. -/
structure Loaded (c : Context) (sp : Nat) (s : State Reg) : Prop where
  r15 : s.reg .r15 = c.r15
  r14 : s.reg .r14 = c.r14
  r13 : s.reg .r13 = c.r13
  r12 : s.reg .r12 = c.r12
  rbx : s.reg .rbx = c.rbx
  rbp : s.reg .rbp = c.rbp
  rip : s.rip = c.retAddr
  rsp : s.reg .rsp = sp

/-- The pops and the `ret` that end both routines. -/
def restore (s : State Reg) : State Reg := block .rsp (pops savedRegs ++ [.ret]) s

theorem restore_eq (s : State Reg) :
    restore s = step .rsp .ret (block .rsp (pops savedRegs) s) := by
  rw [restore, block_append]
  rfl

theorem restore_mem (s : State Reg) : (restore s).mem = s.mem := by
  rw [restore_eq]
  have hpops : (block .rsp (pops savedRegs) s).mem = s.mem := pops_mem savedRegs s
  exact hpops

theorem restore_loaded {s : State Reg} {c : Context} (hc : ContextAt s.mem (s.reg .rsp) c) :
    Loaded c (s.reg .rsp + sizeofContext) (restore s) := by
  have hsp : Reg.rsp ∉ savedRegs := by decide
  have hnd : savedRegs.Nodup := by decide
  have hrsp : (block .rsp (pops savedRegs) s).reg .rsp = s.reg .rsp + 48 := pops_sp hsp s
  have hload : ∀ k r, savedRegs[k]? = some r → r ≠ .rsp →
      (restore s).reg r = s.mem (s.reg .rsp + 8 * k) := by
    intro k r hk hr
    have hpop := pops_loaded hnd hsp s hk
    rw [restore_eq]
    simpa [step, hr] using hpop
  refine ⟨?_, ?_, ?_, ?_, ?_, ?_, ?_, ?_⟩
  · exact (hload 0 .r15 rfl (by decide)).trans hc.r15
  · exact (hload 1 .r14 rfl (by decide)).trans hc.r14
  · exact (hload 2 .r13 rfl (by decide)).trans hc.r13
  · exact (hload 3 .r12 rfl (by decide)).trans hc.r12
  · exact (hload 4 .rbx rfl (by decide)).trans hc.rbx
  · exact (hload 5 .rbp rfl (by decide)).trans hc.rbp
  · have hret : (restore s).rip = (block .rsp (pops savedRegs) s).mem (s.reg .rsp + 48) := by
      rw [restore_eq, ← hrsp]
      rfl
    rw [hret, pops_mem]
    exact hc.retAddr
  · rw [restore_eq]
    simp [step, hrsp, sizeofContext]

theorem restore_touched (s : State Reg) : ∃ l, (restore s).touched = s.touched ++ l ∧
    ∀ a ∈ l, s.reg .rsp ≤ a ∧ a + 8 ≤ s.reg .rsp + sizeofContext := by
  have hsp : Reg.rsp ∉ savedRegs := by decide
  have hrsp : (block .rsp (pops savedRegs) s).reg .rsp = s.reg .rsp + 48 := pops_sp hsp s
  have htouch : (restore s).touched =
      (block .rsp (pops savedRegs) s).touched ++ [s.reg .rsp + 48] := by
    rw [restore_eq, ← hrsp]
    rfl
  refine ⟨_, by rw [htouch, pops_touched hsp, List.append_assoc], ?_⟩
  intro a ha
  simp only [sizeofContext]
  rw [List.mem_append, List.mem_map] at ha
  cases ha with
  | inl hpop =>
    obtain ⟨k, hk, he⟩ := hpop
    have hlt : k < 6 := List.mem_range.1 hk
    omega
  | inr hret =>
    have he : a = s.reg .rsp + 48 := by simpa using hret
    omega

/-- The context that a call of `context_switch` saves, entered with the return
address on the stack. -/
def entryContext (s : State Reg) : Context :=
  { r15 := s.reg .r15
    r14 := s.reg .r14
    r13 := s.reg .r13
    r12 := s.reg .r12
    rbx := s.reg .rbx
    rbp := s.reg .rbp
    retAddr := s.mem (s.reg .rsp) }

theorem entryContext_saved {s : State Reg} (h : 48 ≤ s.reg .rsp) :
    ContextAt (block .rsp (pushes savedRegs.reverse) s).mem (s.reg .rsp - 48) (entryContext s) := by
  have hsp : Reg.rsp ∉ savedRegs.reverse := by decide
  have hlen : 8 * savedRegs.reverse.length = 48 := rfl
  have hsave : ∀ k r, savedRegs.reverse[k]? = some r →
      (block .rsp (pushes savedRegs.reverse) s).mem (s.reg .rsp - 8 * (k + 1)) = s.reg r :=
    fun k r hk => pushes_saved hsp (by rw [hlen]; exact h) hk
  have hk : ∀ k j, k + j = 6 → s.reg .rsp - 48 + 8 * j = s.reg .rsp - 8 * k := by
    intro k j hkj
    omega
  refine ⟨?_, ?_, ?_, ?_, ?_, ?_, ?_⟩
  · exact hsave 5 .r15 rfl
  · exact (congrArg _ (hk 5 1 rfl)).trans (hsave 4 .r14 rfl)
  · exact (congrArg _ (hk 4 2 rfl)).trans (hsave 3 .r13 rfl)
  · exact (congrArg _ (hk 3 3 rfl)).trans (hsave 2 .r12 rfl)
  · exact (congrArg _ (hk 2 4 rfl)).trans (hsave 1 .rbx rfl)
  · exact (congrArg _ (hk 1 5 rfl)).trans (hsave 0 .rbp rfl)
  · have ha : s.reg .rsp - 48 + 48 = s.reg .rsp := by omega
    rw [ha]
    exact pushes_mem (by rw [hlen]; exact h) (Or.inr (Nat.le_refl _))

theorem ContextAt.frame {mem mem' : Nat → Nat} {p : Nat} {c : Context} (h : ContextAt mem p c)
    (hm : ∀ a, p ≤ a → a + 8 ≤ p + sizeofContext → mem' a = mem a) : ContextAt mem' p c := by
  simp only [sizeofContext] at hm
  exact ⟨(hm _ (by omega) (by omega)).trans h.r15, (hm _ (by omega) (by omega)).trans h.r14,
    (hm _ (by omega) (by omega)).trans h.r13, (hm _ (by omega) (by omega)).trans h.r12,
    (hm _ (by omega) (by omega)).trans h.rbx, (hm _ (by omega) (by omega)).trans h.rbp,
    (hm _ (by omega) (by omega)).trans h.retAddr⟩

theorem call_entry (target : Nat) (m : State Reg) :
    ∃ s, step .rsp (.call target) m = s ∧ s.rip = target ∧ s.reg .rsp = m.reg .rsp - 8 ∧
      (∀ r, r ≠ .rsp → s.reg r = m.reg r) ∧
      s.mem = update m.mem (m.reg .rsp - 8) (m.rip + 1) :=
  ⟨_, rfl, rfl, call_sp target m, fun _ hr => call_reg target m hr, rfl⟩

theorem contextSwitch_straight (L : Layout) :
    ∀ i ∈ pushes savedRegs.reverse ++ [.store .rsp .rdi, .storeAt .rsi L.runningThread,
      .load .rsi .rsp] ++ pops savedRegs, i.Straight := by
  simp [pushes, pops, savedRegs, Instr.Straight]

/-- `context_switch`, from its first instruction to its return on the next stack. -/
theorem contextSwitch_run (L : Layout) {s : State Reg} (hrip : s.rip = L.contextSwitch)
    (h : 48 ≤ s.reg .rsp)
    (hcurr : s.reg .rdi < s.reg .rsp - 48 ∨ s.reg .rsp + 8 ≤ s.reg .rdi)
    (hvar : L.runningThread < s.reg .rsp - 48 ∨ s.reg .rsp + 8 ≤ L.runningThread)
    (hne : s.reg .rdi ≠ L.runningThread) :
    ∃ s', run .rsp L.code 16 s = some s' ∧
      ContextAt s'.mem (s.reg .rsp - 48) (entryContext s) ∧
      s'.mem (s.reg .rdi) = s.reg .rsp - 48 ∧ s'.mem L.runningThread = s.reg .rsi ∧
      (∀ a, a < s.reg .rsp - 48 ∨ s.reg .rsp ≤ a → a ≠ s.reg .rdi → a ≠ L.runningThread →
        s'.mem a = s.mem a) ∧
      ∀ c, ContextAt s'.mem (s'.mem (s.reg .rsi)) c →
        Loaded c (s'.mem (s.reg .rsi) + sizeofContext) s' := by
  have hrun : run .rsp L.code 16 s = some (block .rsp (contextSwitchCode L) s) :=
    run_block (contextSwitch_straight L) (hrip ▸ contextSwitch_placed L)
  -- s1 after the pushes, s2 after the stack pointers were exchanged
  have hlen : 8 * savedRegs.reverse.length = 48 := rfl
  obtain ⟨s1, hs1⟩ : ∃ s1, block .rsp (pushes savedRegs.reverse) s = s1 := ⟨_, rfl⟩
  have hsaved := entryContext_saved h
  have hmem1 : ∀ a, a < s.reg .rsp - 48 ∨ s.reg .rsp ≤ a → s1.mem a = s.mem a := by
    intro a ha
    rw [← hs1]
    exact pushes_mem (by rw [hlen]; exact h) (by rw [hlen]; exact ha)
  have hreg1 : ∀ r, r ≠ .rsp → s1.reg r = s.reg r := by
    intro r hr
    rw [← hs1]
    exact pushes_reg _ s hr
  have hsp1 : s1.reg .rsp = s.reg .rsp - 48 := by
    rw [← hs1, pushes_sp, hlen]
  rw [hs1] at hsaved
  obtain ⟨s2, hs2⟩ : ∃ s2, block .rsp [.store .rsp .rdi, .storeAt .rsi L.runningThread,
      .load .rsi .rsp] s1 = s2 := ⟨_, rfl⟩
  have hmem2 : s2.mem = update (update s1.mem (s.reg .rdi) (s.reg .rsp - 48))
      L.runningThread (s.reg .rsi) := by
    rw [← hs2]
    simp [block, step, hreg1, hsp1]
  have hsp2 : s2.reg .rsp = s2.mem (s.reg .rsi) := by
    rw [hmem2, ← hs2]
    simp [block, step, hreg1, hsp1]
  have hframe : ∀ a, a ≠ s.reg .rdi → a ≠ L.runningThread → s2.mem a = s1.mem a := by
    intro a ha hb
    rw [hmem2, update_of_ne hb, update_of_ne ha]
  have hall : block .rsp (contextSwitchCode L) s = restore s2 := by
    rw [contextSwitchCode_eq, List.append_assoc, List.append_assoc, block_append, block_append,
      hs1, hs2, restore]
  refine ⟨restore s2, by rw [hrun, hall], ?_, ?_, ?_, ?_, ?_⟩
  · rw [restore_mem]
    apply hsaved.frame
    intro a hle hlt
    simp only [sizeofContext] at hlt
    exact hframe a (by omega) (by omega)
  · rw [restore_mem, hmem2, update_of_ne hne, update_self]
  · rw [restore_mem, hmem2, update_self]
  · intro a ha hb hc
    rw [restore_mem, hframe a hb hc, hmem1 a ha]
  · intro c hc
    rw [restore_mem, ← hsp2] at hc ⊢
    exact restore_loaded hc

/-- `internal_exit` up to the entry of `internal_cleanup`, which runs on the stack of
the next thread. -/
theorem internalExit_call (L : Layout) {s : State Reg} (hrip : s.rip = L.internalExit)
    (hne : s.reg .rsi ≠ L.runningThread) :
    ∃ s', run .rsp L.code 3 s = some s' ∧ s'.rip = L.internalCleanup ∧
      s'.reg .rdi = s.reg .rdi ∧ s'.reg .rsp = s.mem (s.reg .rsi) - 8 ∧
      s'.mem = update (update s.mem L.runningThread (s.reg .rsi))
        (s.mem (s.reg .rsi) - 8) (L.internalExit + 3) := by
  have hcode : CodeAt L.code s.rip ([.storeAt .rsi L.runningThread, .load .rsi .rsp] ++
      [.call L.internalCleanup]) := by
    intro k i hk
    rw [hrip]
    apply internalExit_placed L k i
    rw [internalExitCode_eq, List.getElem?_append_left]
    · exact hk
    · exact (List.getElem?_eq_some_iff.1 hk).1
  have hrun : run .rsp L.code 3 s = some (block .rsp ([.storeAt .rsi L.runningThread,
      .load .rsi .rsp] ++ [.call L.internalCleanup]) s) :=
    run_block (by simp [Instr.Straight]) hcode
  refine ⟨_, hrun, ?_, ?_, ?_, ?_⟩
  · simp [block, step]
  · simp [block, step]
  · simp [block, step, hne]
  · simp [block, step, hne, hrip]

theorem internalExit_return (L : Layout) {s : State Reg} (hrip : s.rip = L.internalExit + 3) :
    run .rsp L.code 7 s = some (restore s) := by
  have hstraight : ∀ i ∈ pops savedRegs, i.Straight := by simp [pops, savedRegs, Instr.Straight]
  have hcode : CodeAt L.code s.rip (pops savedRegs ++ [.ret]) := by
    rw [hrip]
    exact (internalExit_placed L).tail.tail.tail
  exact run_block hstraight hcode

section
variable (L : Layout) {d b : Nat} (function argument : Nat) (mem : Nat → Nat)

theorem utCreate_context : ContextAt (utCreate L d b function argument mem)
    (b + stackSize - sizeofContext - 8) (initContext L) := by
  refine ⟨?_, ?_, ?_, ?_, ?_, ?_, ?_⟩ <;>
    simp (disch := omega) only [utCreate, stackSize, sizeofContext, update_self, update_of_ne]

theorem utCreate_fields (hap : d + sizeofUthread ≤ b ∨ b + stackSize ≤ d) :
    utCreate L d b function argument mem (d + contextField) =
        b + stackSize - sizeofContext - 8 ∧
      utCreate L d b function argument mem (d + functionField) = function ∧
      utCreate L d b function argument mem (d + argumentField) = argument ∧
      utCreate L d b function argument mem (d + stackField) = b := by
  simp only [sizeofUthread, stackSize] at hap
  refine ⟨?_, ?_, ?_, ?_⟩ <;>
    simp (disch := omega) only [utCreate, contextField, functionField, argumentField, stackField,
      stackSize, sizeofContext, update_self, update_of_ne]
  rw [zero, if_neg (by omega), update_self]

theorem utCreate_frame {a : Nat} (hd : a + 8 ≤ d ∨ d + sizeofUthread ≤ a)
    (hb : a + 8 ≤ b ∨ b + stackSize ≤ a) :
    utCreate L d b function argument mem a = mem a := by
  simp only [sizeofUthread, stackSize] at hd hb
  simp (disch := omega) only [utCreate, contextField, functionField, argumentField, stackField,
    stackSize, sizeofContext, update_of_ne]
  rw [zero, if_neg (by omega), update_of_ne (by omega)]

end

end OsCourse.CtxSwitch
