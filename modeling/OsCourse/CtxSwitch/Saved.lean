import OsCourse.CtxSwitch.System

/-! The invariant of a run: the parts of the memory lie apart, and every thread that is
not running has its context on its stack, where its descriptor says. -/
namespace OsCourse.CtxSwitch
open Function Machine

/-- The context saved by a call from `m`. -/
def callContext (m : State Reg) : Context :=
  { r15 := m.reg .r15
    r14 := m.reg .r14
    r13 := m.reg .r13
    r12 := m.reg .r12
    rbx := m.reg .rbx
    rbp := m.reg .rbp
    retAddr := m.rip + 1 }

/-- The saved context of a thread and its stack pointer once that context is loaded. -/
def Thread.saved (L : Layout) (T : Thread) : Option (Context × Nat) :=
  match T.status with
  | .running => none
  | .fresh _ _ => some (initContext L, T.stack.lo + stackSize - 8)
  | .out m => some (callContext m, m.reg .rsp)

structure Thread.Ok (L : Layout) (mem : Nat → Nat) (t : Nat) (T : Thread) : Prop where
  created : T.created = true →
    T.stack = blockOfStack T.stack.lo ∧ mem (t + stackField) = T.stack.lo
  fresh : ∀ function argument, T.status = .fresh function argument → T.created = true ∧
    mem (t + functionField) = function ∧ mem (t + argumentField) = argument
  saved : ∀ c sp, T.saved L = some (c, sp) → T.stack.lo + 64 ≤ sp ∧ sp ≤ T.stack.hi ∧
    mem (t + contextField) = sp - sizeofContext ∧ ContextAt mem (sp - sizeofContext) c
  frames : ∀ m, T.status = .out m → ∀ a, T.stack.Has a → m.reg .rsp ≤ a → mem a = m.mem a

structure Inv (L : Layout) (S : Sys) : Prop where
  apart : ∀ p q A B, p ≠ q → S.area L p = some A → S.area L q = some B → A.Apart B
  runningThread : S.machine.mem L.runningThread = S.running.getD 0
  running : ∀ t T, S.threads t = some T → (T.status = .running ↔ S.running = some t)
  known : ∀ t, S.running = some t → ∃ T, S.threads t = some T
  ok : ∀ t T, S.threads t = some T → T.Ok L S.machine.mem t

variable {L : Layout} {S S' : Sys} {c next : Nat} {T N : Thread}

theorem Thread.saved_of_not_running (h : T.status ≠ .running) :
    ∃ c sp, T.saved L = some (c, sp) := by
  cases hs : T.status with
  | running => exact absurd hs h
  | fresh function argument => exact ⟨_, _, by rw [Thread.saved, hs]⟩
  | out m => exact ⟨_, _, by rw [Thread.saved, hs]⟩

theorem Thread.Ok.frame {mem mem' : Nat → Nat} {t : Nat} (h : T.Ok L mem t)
    (hf : ∀ f ∈ fields, mem' (t + f) = mem (t + f))
    (hs : ∀ c sp, T.saved L = some (c, sp) →
      ∀ a, T.stack.Has a → sp - sizeofContext ≤ a → mem' a = mem a) : T.Ok L mem' t := by
  refine ⟨fun hc => ?_, fun function argument he => ?_, fun c sp he => ?_, ?_⟩
  · obtain ⟨hstack, hb⟩ := h.created hc
    exact ⟨hstack, (hf _ (by simp [fields])).trans hb⟩
  · obtain ⟨hc, hfun, harg⟩ := h.fresh function argument he
    exact ⟨hc, (hf _ (by simp [fields])).trans hfun, (hf _ (by simp [fields])).trans harg⟩
  · obtain ⟨hlo, hhi, hp, hctx⟩ := h.saved c sp he
    refine ⟨hlo, hhi, (hf _ (by simp [fields])).trans hp, hctx.frame ?_⟩
    intro a hle hlt
    apply hs c sp he a _ hle
    simp only [sizeofContext] at hle hlt
    constructor <;> omega
  · intro m hm a ha hle
    have hout : T.saved L = some (callContext m, m.reg .rsp) := by rw [Thread.saved, hm]
    rw [hs _ _ hout a ha (by omega), h.frames m hm a ha hle]

theorem area_descriptor {t : Nat} (h : S.threads t = some T) :
    S.area L (.descriptor t) = some (descriptorArea t) := by
  simp [Sys.area, h]

theorem area_stack {t : Nat} (h : S.threads t = some T) :
    S.area L (.stack t) = some T.stack := by
  simp [Sys.area, h]

theorem descriptorArea_has {t f : Nat} (hf : f ∈ fields) : (descriptorArea t).Has (t + f) := by
  simp only [fields, contextField, functionField, argumentField, stackField, List.mem_cons,
    List.not_mem_nil, or_false] at hf
  simp only [Area.Has, descriptorArea, sizeofUthread]
  omega

theorem descriptorArea_has_context (t : Nat) : (descriptorArea t).Has (t + contextField) :=
  descriptorArea_has (by simp [fields])

theorem runningThread_has (L : Layout) :
    (Area.mk L.runningThread (L.runningThread + 8)).Has L.runningThread := by
  simp [Area.Has]

theorem Inv.apart_of_known (h : Inv L S) (hsub : ∀ t T', S'.threads t = some T' →
      ∃ T, S.threads t = some T ∧ T'.stack = T.stack) :
    ∀ p q A B, p ≠ q → S'.area L p = some A → S'.area L q = some B → A.Apart B := by
  have hold : ∀ p A, S'.area L p = some A → S.area L p = some A := by
    intro p A hp
    cases p with
    | runningThread => exact hp
    | descriptor t =>
      obtain ⟨T', hT', hA⟩ := Option.map_eq_some_iff.1 hp
      obtain ⟨T, hT, hstack⟩ := hsub t T' hT'
      rw [area_descriptor hT, hA]
    | stack t =>
      obtain ⟨T', hT', hA⟩ := Option.map_eq_some_iff.1 hp
      obtain ⟨T, hT, hstack⟩ := hsub t T' hT'
      rw [area_stack hT, ← hstack, hA]
  intro p q A B hne hp hq
  exact h.apart p q A B hne (hold p A hp) (hold q B hq)

theorem Inv.apart_insert (h : Inv L S) {d : Nat} {D : Thread}
    (hS' : S'.threads = update S.threads d (some D)) (hd : S.Free L (descriptorArea d))
    (hA : S.Free L D.stack) (hap : (descriptorArea d).Apart D.stack) :
    ∀ p q A B, p ≠ q → S'.area L p = some A → S'.area L q = some B → A.Apart B := by
  have hold : ∀ p A, S'.area L p = some A → (p = .descriptor d ∧ A = descriptorArea d) ∨
      (p = .stack d ∧ A = D.stack) ∨ S.area L p = some A := by
    intro p A hp
    cases p with
    | runningThread => exact Or.inr (Or.inr hp)
    | descriptor t =>
      simp only [Sys.area, hS'] at hp ⊢
      by_cases ht : t = d
      · subst ht
        rw [update_self] at hp
        exact Or.inl ⟨rfl, by simpa using hp.symm⟩
      · rw [update_of_ne ht] at hp
        exact Or.inr (Or.inr hp)
    | stack t =>
      simp only [Sys.area, hS'] at hp ⊢
      by_cases ht : t = d
      · subst ht
        rw [update_self] at hp
        exact Or.inr (Or.inl ⟨rfl, by simpa using hp.symm⟩)
      · rw [update_of_ne ht] at hp
        exact Or.inr (Or.inr hp)
  intro p q A B hne hp hq
  obtain ⟨rfl, rfl⟩ | ⟨rfl, rfl⟩ | hp := hold p A hp
  · obtain ⟨rfl, -⟩ | ⟨-, rfl⟩ | hq := hold q B hq
    · exact absurd rfl hne
    · exact hap
    · exact (hd q B hq).symm
  · obtain ⟨-, rfl⟩ | ⟨rfl, -⟩ | hq := hold q B hq
    · exact hap.symm
    · exact absurd rfl hne
    · exact (hA q B hq).symm
  · obtain ⟨-, rfl⟩ | ⟨-, rfl⟩ | hq := hold q B hq
    · exact hd p A hp
    · exact hA p A hp
    · exact h.apart p q A B hne hp hq

theorem Inv.words (h : Inv L S) {p q : Part} {A B : Area} {a b : Nat} (hne : p ≠ q)
    (hp : S.area L p = some A) (hq : S.area L q = some B) (ha : A.Has a) (hb : B.Has b) :
    a + 8 ≤ b ∨ b + 8 ≤ a :=
  (h.apart p q A B hne hp hq).words ha hb

theorem Sys.Free.not_thread {d : Nat} (h : S.Free L (descriptorArea d)) :
    S.threads d = none := by
  cases hd : S.threads d with
  | none => rfl
  | some D =>
    have hself := h _ _ (area_descriptor hd)
    simp only [Area.Apart, descriptorArea, sizeofUthread] at hself
    omega

end OsCourse.CtxSwitch
