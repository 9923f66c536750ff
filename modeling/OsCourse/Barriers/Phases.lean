import Mathlib.Data.Multiset.Range
import OsCourse.Barriers.Rounds
import OsCourse.Lib.Calls
import OsCourse.Lib.Lockstep

/-! As many threads as the barrier has parties, each with a number of phases that end at the
barrier: they go from phase to phase together. -/
namespace OsCourse.Barriers
open Calls Function Ints Lockstep Tally Transition Wakeup Tickets

def Pc.inside : Pc → Nat
  | .idle | .calling => 0
  | .blocked _ | .woken _ | .exiting _ => 1

def Pc.busy : Pc → Nat
  | .idle => 0
  | .calling | .blocked _ | .woken _ | .exiting _ => 1

def Label.isProgram {T : Type*} : Label T → Bool
  | .call _ | .finish _ => true
  | .lock _ | .recheck _ | .spurious _ => false

def Label.isSpurious {T : Type*} : Label T → Bool
  | .spurious _ => true
  | _ => false

/-- `todo` is how many phases each thread has not ended yet, and `done` is history: those
that it has, with the call returned. -/
structure Program (T : Type*) where
  state : State T
  todo : T → Nat
  done : T → Nat

/-- The phases of thread `t` whose end it has reached, the current one included. -/
def Program.arrived {T : Type*} (a : Program T) (t : T) : Nat := a.done t + (a.state.pc t).inside

section Steps
variable {T : Type*} [DecidableEq T]

inductive PStep : Program T → Label T → Program T → Prop
  | call {a : Program T} {s' : State T} {t : T} {n : Nat} : a.todo t = n + 1 →
      Step a.state (.call t) s' →
      PStep a (.call t) { a with state := s', todo := update a.todo t n }
  | finish {a : Program T} {s' : State T} {t : T} : Step a.state (.finish t) s' →
      PStep a (.finish t) { a with state := s', done := update a.done t (a.done t + 1) }
  | run {a : Program T} {s' : State T} {l : Label T} : l.isProgram = false →
      Step a.state l s' → PStep a l { a with state := s' }

def start (parties : Int32) (phases : T → Nat) : Program T :=
  ⟨init parties, phases, fun _ => 0⟩

end Steps

section Ends
variable {T : Type*} [Fintype T]

def Program.Ended (a : Program T) : Prop := ∀ t, a.state.pc t = .idle ∧ a.todo t = 0

instance (a : Program T) : Decidable a.Ended :=
  inferInstanceAs (Decidable (∀ t, a.state.pc t = .idle ∧ a.todo t = 0))

/-- The phases in which a call returned the serial value, each as often as one did, when all
threads have ended. -/
def Program.result (a : Program T) : Option (Multiset Nat) :=
  if a.Ended then
    some ((a.state.returns.filter fun e => e.2 = serialThread).map (·.1 / Fintype.card T))
  else none

/-- The steps before a thread; a thread that wakes up in its own round has to wait again. -/
def Pc.weight (round : Nat) : Pc → Nat
  | .idle => 0
  | .exiting _ => 1
  | .blocked _ => 3
  | .woken c => if c.number / Fintype.card T = round then 4 else 2
  | .calling => 5

def Program.ahead (a : Program T) : Nat :=
  tally (Pc.weight (T := T) (a.state.arrivals / Fintype.card T)) a.state.pc +
    6 * tally id a.todo

end Ends

theorem arrive_number {b b' : Barrier} {number : Nat} {c : Call}
    (h : arrive b number = (c, b')) : c.number = number := by
  unfold arrive at h
  dsimp only at h
  split at h <;> cases h <;> rfl

section Phases
variable {T : Type*} [DecidableEq T] {a b : Program T} {l : Label T}

theorem PStep.step (h : PStep a l b) : Step a.state l b.state := by
  cases h with
  | call _ hs | finish hs | run _ hs => exact hs

theorem Pc.inside_wake (q q' : Pc) (h : q.wake = some q') : q'.inside = q.inside := by
  cases q <;> cases h
  rfl

theorem arrived_keep {done : T → Nat} {pc : T → Pc} {t : T} {q : Pc} {k : Nat}
    (h : k + q.inside = done t + (pc t).inside) :
    (fun u => update done t k u + (update pc t q u).inside) =
      fun u => done u + (pc u).inside := by
  funext u
  by_cases hu : u = t
  · subst hu
    rw [update_self, update_self, h]
  · rw [update_of_ne hu, update_of_ne hu]

theorem arrived_more {done : T → Nat} {pc : T → Pc} {t : T} {q : Pc} (hpc : (pc t).inside = 0)
    (hq : q.inside = 1) :
    (fun u => done u + (update pc t q u).inside) =
      update (fun u => done u + (pc u).inside) t (done t + (pc t).inside + 1) := by
  funext u
  by_cases hu : u = t
  · subst hu
    rw [update_self, update_self, hpc, hq]
  · rw [update_of_ne hu, update_of_ne hu]

theorem PStep.arrived (h : PStep a l b) :
    (b.arrived = a.arrived ∧ b.state.arrivals = a.state.arrivals) ∨
      ∃ t, (a.state.pc t).inside = 0 ∧ b.arrived = update a.arrived t (a.arrived t + 1) ∧
        b.state.arrivals = a.state.arrivals + 1 := by
  have hsame : ∀ {pc : T → Pc} {t : T} {q : Pc}, q.inside = (pc t).inside →
      (fun u => a.done u + (update pc t q u).inside) = fun u => a.done u + (pc u).inside := by
    intro pc t q hq
    have hkeep := arrived_keep (congrArg (a.done t + ·) hq)
    rwa [update_eq_self] at hkeep
  unfold Program.arrived
  cases h with
  | call _ hs =>
    cases hs with
    | call hpc => exact Or.inl ⟨hsame (by rw [hpc]; rfl), rfl⟩
  | finish hs =>
    cases hs with
    | finish hpc => exact Or.inl ⟨arrived_keep (by rw [hpc]; rfl), rfl⟩
  | run hl hs =>
    cases hs with
    | call | finish => cases hl
    | @last t c _ hpc =>
      refine Or.inr ⟨t, by rw [hpc]; rfl, ?_, rfl⟩
      have hb : (fun u => a.done u + (broadcast Pc.wake a.state.pc u).inside) =
          fun u => a.done u + (a.state.pc u).inside := by
        funext u
        rw [broadcast_iff Pc.inside Pc.inside_wake u]
      have hcalling : broadcast Pc.wake a.state.pc t = .calling := by
        rw [broadcast_of_none (by rw [hpc]; rfl), hpc]
      dsimp only
      rw [arrived_more (by rw [hcalling]; rfl) (show (Pc.exiting c).inside = 1 from rfl), hb,
        hcalling, hpc]
    | @wait t c _ hpc =>
      exact Or.inr ⟨t, by rw [hpc]; rfl, arrived_more (by rw [hpc]; rfl) rfl, rfl⟩
    | waitAgain hpc | leave hpc | spurious hpc => exact Or.inl ⟨hsame (by rw [hpc]; rfl), rfl⟩

variable [Fintype T]

structure Program.Inv (phases : T → Nat) (a : Program T) : Prop where
  barrier : Barriers.Inv (Fintype.card T) a.state
  even : Even a.state.arrivals a.arrived
  round : ∀ t k, (a.state.pc t).number = some k → k / Fintype.card T = a.done t
  done_le : ∀ t, a.done t ≤ a.state.arrivals / Fintype.card T
  account : ∀ t, a.done t + (a.state.pc t).busy + a.todo t = phases t

variable {phases : T → Nat}

omit [DecidableEq T] in
theorem Program.Inv.arrived_outside (hi : a.Inv phases) {t : T}
    (ht : (a.state.pc t).inside = 0) :
    a.done t = a.state.arrivals / Fintype.card T ∧
      a.arrived t = a.state.arrivals / Fintype.card T := by
  have hlow := hi.even.low t
  have hdone := hi.done_le t
  unfold Program.arrived at hlow ⊢
  omega

omit [DecidableEq T] in
theorem Program.Inv.rounds_lt (hi : Even a.state.arrivals a.arrived)
    (hacc : ∀ t, a.done t + (a.state.pc t).busy + a.todo t = phases t)
    (hp : 1 ≤ Fintype.card T) (hphases : ∀ t, phases t < 2 ^ 31) :
    a.state.arrivals / Fintype.card T < 2 ^ 31 := by
  obtain ⟨t⟩ := Fintype.card_pos_iff.mp hp
  have hlow := hi.low t
  have hall := hacc t
  have hfits := hphases t
  have hbusy : (a.state.pc t).inside ≤ (a.state.pc t).busy := by
    cases a.state.pc t <;> simp [Pc.inside, Pc.busy]
  unfold Program.arrived at hlow
  omega

theorem Pc.busy_wake (q q' : Pc) (h : q.wake = some q') : q'.busy = q.busy := by
  cases q <;> cases h
  rfl

omit [Fintype T] in
theorem PStep.account (h : PStep a l b) (t : T) :
    b.done t + (b.state.pc t).busy + b.todo t = a.done t + (a.state.pc t).busy + a.todo t := by
  have hkeep : ∀ {pc : T → Pc} {u : T} {q : Pc}, (pc u).busy = q.busy →
      (update pc u q t).busy = (pc t).busy := by
    intro pc u q hq
    by_cases ht : t = u
    · rw [ht, update_self, hq]
    · rw [update_of_ne ht]
  cases h with
  | @call s' u n htodo hs =>
    cases hs with
    | call hpc =>
      by_cases ht : t = u
      · subst ht
        simp only [update_self, hpc, htodo, Pc.busy]
        omega
      · simp only [update_of_ne ht]
  | @finish s' u hs =>
    cases hs with
    | finish hpc =>
      by_cases ht : t = u
      · subst ht
        simp only [update_self, hpc, Pc.busy]
      · simp only [update_of_ne ht]
  | run hl hs =>
    cases hs with
    | call | finish => cases hl
    | @last u c _ hpc =>
      dsimp only
      have hcalling : broadcast Pc.wake a.state.pc u = .calling := by
        rw [broadcast_of_none (by rw [hpc]; rfl), hpc]
      rw [hkeep (by rw [hcalling]; rfl), broadcast_iff Pc.busy Pc.busy_wake]
    | wait hpc | waitAgain hpc | leave hpc | spurious hpc =>
      dsimp only
      rw [hkeep (by rw [hpc]; rfl)]

omit [Fintype T] in
theorem PStep.number (h : PStep a l b) {t : T} {k : Nat} (hk : (b.state.pc t).number = some k) :
    b.done t = a.done t ∧ ((a.state.pc t).number = some k ∨
      (a.state.pc t).inside = 0 ∧ k = a.state.arrivals) := by
  have hold : ∀ {pc : T → Pc} {u : T} {q : Pc}, (update pc u q t).number = some k →
      q.number = (pc u).number → (pc t).number = some k := by
    intro pc u q hk hq
    by_cases ht : t = u
    · rw [ht, update_self, hq] at hk
      rwa [ht]
    · rwa [update_of_ne ht] at hk
  have hnew : ∀ {pc : T → Pc} {u : T} {c : Call} {q : Pc},
      (update pc u q t).number = some k → q.number = some c.number →
      (pc u).inside = 0 → c.number = a.state.arrivals →
      (pc t).number = some k ∨ (pc t).inside = 0 ∧ k = a.state.arrivals := by
    intro pc u c q hk hq hpc hc
    by_cases ht : t = u
    · rw [ht, update_self, hq] at hk
      cases hk
      exact Or.inr ⟨by rw [ht, hpc], hc⟩
    · rw [update_of_ne ht] at hk
      exact Or.inl hk
  cases h with
  | call _ hs =>
    cases hs with
    | call hpc => exact ⟨rfl, Or.inl (hold hk (by rw [hpc]; rfl))⟩
  | @finish s' u hs =>
    cases hs with
    | finish hpc =>
      dsimp only at hk
      have ht : t ≠ u := by
        rintro rfl
        rw [update_self] at hk
        cases hk
      rw [update_of_ne ht] at hk
      exact ⟨update_of_ne ht _ _, Or.inl hk⟩
  | run hl hs =>
    cases hs with
    | call | finish => cases hl
    | @last u c _ hpc harr =>
      have hcalling : broadcast Pc.wake a.state.pc u = .calling := by
        rw [broadcast_of_none (by rw [hpc]; rfl), hpc]
      have := hnew hk rfl (by rw [hcalling]; rfl) (arrive_number harr)
      rw [broadcast_iff Pc.number Pc.number_wake, broadcast_iff Pc.inside Pc.inside_wake] at this
      exact ⟨rfl, this⟩
    | wait hpc harr => exact ⟨rfl, hnew hk rfl (by rw [hpc]; rfl) (arrive_number harr)⟩
    | waitAgain hpc | leave hpc | spurious hpc =>
      exact ⟨rfl, Or.inl (hold hk (by rw [hpc]; rfl))⟩

omit [Fintype T] in
theorem PStep.done (h : PStep a l b) (t : T) : b.done t = a.done t ∨
    ∃ c, a.state.pc t = .exiting c ∧ b.done t = a.done t + 1 := by
  cases h with
  | call | run => exact Or.inl rfl
  | @finish s' u hs =>
    cases hs with
    | finish hpc =>
      by_cases ht : t = u
      · subst ht
        exact Or.inr ⟨_, hpc, update_self t _ _⟩
      · exact Or.inl (update_of_ne ht _ _)

theorem PStep.inv (h : PStep a l b) (hp : 1 ≤ Fintype.card T) (hp' : Fintype.card T < 2 ^ 31)
    (hphases : ∀ t, phases t < 2 ^ 31) (hi : a.Inv phases) : b.Inv phases := by
  have heven : Even b.state.arrivals b.arrived := by
    obtain ⟨harrived, hn⟩ | ⟨t, ht, harrived, hn⟩ := h.arrived
    · rw [harrived, hn]
      exact hi.even
    · rw [harrived, hn]
      exact hi.even.arrive (hi.arrived_outside ht).2
  have hacc : ∀ t, b.done t + (b.state.pc t).busy + b.todo t = phases t :=
    fun t => (h.account t).trans (hi.account t)
  have hfits := Program.Inv.rounds_lt heven hacc hp hphases
  have hgrow : a.state.arrivals / Fintype.card T ≤ b.state.arrivals / Fintype.card T :=
    Nat.div_le_div_right h.step.arrivals_le
  have hbarrier := h.step.inv hp hp' hfits hi.barrier
  refine ⟨hbarrier, heven, ?_, ?_, hacc⟩
  · intro t k hk
    obtain ⟨hdone, hold | ⟨hout, rfl⟩⟩ := h.number hk
    · rw [hdone]
      exact hi.round t k hold
    · rw [hdone]
      exact (hi.arrived_outside hout).1.symm
  · intro t
    obtain hdone | ⟨c, hpc, hdone⟩ := h.done t
    · rw [hdone]
      exact (hi.done_le t).trans hgrow
    · have hc := hi.barrier.pc t
      rw [hpc] at hc
      have hround := hi.round t c.number (by rw [hpc]; rfl)
      have hlt := hc.2
      omega

omit [DecidableEq T] in
theorem Program.Inv.start : ∀ phases : T → Nat,
    (Barriers.start (Int32.ofNat (Fintype.card T)) phases).Inv phases := by
  intro phases
  refine ⟨init_inv, Even.init, ?_, fun _ => Nat.zero_le _, fun t => ?_⟩
  · intro t k hk
    cases hk
  · simp [Barriers.start, init, Pc.busy]

omit [DecidableEq T] in
/-- The last arrival of a round brings nobody further from the end. -/
theorem weight_complete {n : Nat} {q : Pc} (h : PcOk (Fintype.card T) n q)
    (hd : (n + 1) / Fintype.card T = n / Fintype.card T + 1) :
    Pc.weight (T := T) ((n + 1) / Fintype.card T) (q.wake.getD q) ≤
      Pc.weight (T := T) (n / Fintype.card T) q := by
  have hpast : ∀ c : Call, c.number < n →
      Pc.weight (T := T) ((n + 1) / Fintype.card T) (.woken c) = 2 := by
    intro c hc
    have hle : c.number / Fintype.card T ≤ n / Fintype.card T := Nat.div_le_div_right hc.le
    have hne : c.number / Fintype.card T ≠ (n + 1) / Fintype.card T := by omega
    exact if_neg hne
  cases q with
  | idle | calling | exiting => exact Nat.le_refl _
  | blocked c => exact (hpast c h.2.1).le.trans (by decide : 2 ≤ 3)
  | woken c =>
    refine (hpast c h.2.1).le.trans ?_
    dsimp only [Pc.weight]
    split_ifs <;> omega

theorem PStep.ahead (h : PStep a l b) (hp : 1 ≤ Fintype.card T) (hp' : Fintype.card T < 2 ^ 31)
    (hphases : ∀ t, phases t < 2 ^ 31) (hi : a.Inv phases) :
    b.ahead + 1 ≤ a.ahead + if l.isSpurious then 2 else 0 := by
  have hmove := fun (pc : T → Pc) (t : T) (q : Pc) => tally_update
    (Pc.weight (T := T) (a.state.arrivals / Fintype.card T)) pc t q
  have hround := Program.Inv.rounds_lt hi.even hi.account hp hphases
  unfold Program.ahead
  cases h with
  | @call s' t n htodo hs =>
    cases hs with
    | call hpc =>
      have hpcs := hmove a.state.pc t .calling
      have hleft := tally_update id a.todo t n
      rw [hpc] at hpcs
      rw [htodo] at hleft
      simp only [Pc.weight, Label.isSpurious, id_eq] at hpcs hleft ⊢
      omega
  | @finish s' t hs =>
    cases hs with
    | finish hpc =>
      have hpcs := hmove a.state.pc t .idle
      rw [hpc] at hpcs
      simp only [Pc.weight, Label.isSpurious] at hpcs ⊢
      omega
  | run hl hs =>
    cases hs with
    | call | finish => cases hl
    | @last t c b hpc harr hlast =>
      obtain ⟨hnum, hok, _⟩ := arrive_ok hi.barrier hp hp' harr
      have hmod := (hok.last_iff hp hp').mp (hlast.trans hi.barrier.parties)
      rw [hnum] at hmod
      have hd := (succ_last hp hmod).2
      have hothers : tally (Pc.weight (T := T) ((a.state.arrivals + 1) / Fintype.card T))
          (broadcast Pc.wake a.state.pc) ≤
            tally (Pc.weight (T := T) (a.state.arrivals / Fintype.card T)) a.state.pc :=
        tally_le fun u => weight_complete (hi.barrier.pc u) hd
      have hpcs := tally_update (Pc.weight (T := T) ((a.state.arrivals + 1) / Fintype.card T))
        (broadcast Pc.wake a.state.pc) t (.exiting c)
      have hcalling : broadcast Pc.wake a.state.pc t = .calling := by
        rw [broadcast_of_none (by rw [hpc]; rfl), hpc]
      rw [hcalling] at hpcs
      simp only [Pc.weight, Label.isSpurious] at hpcs ⊢
      omega
    | @wait t c b hpc harr hnot =>
      obtain ⟨hnum, hok, _⟩ := arrive_ok hi.barrier hp hp' harr
      have hmod : c.number % Fintype.card T + 1 ≠ Fintype.card T := fun he =>
        hnot (((hok.last_iff hp hp').mpr he).trans hi.barrier.parties.symm)
      rw [hnum] at hmod
      have hpcs := hmove a.state.pc t (.blocked c)
      rw [hpc] at hpcs
      dsimp only
      rw [(succ_not_last hp hmod).2]
      simp only [Pc.weight, Label.isSpurious] at hpcs ⊢
      omega
    | @waitAgain t c hpc hsame =>
      have hc := hi.barrier.pc t
      rw [hpc] at hc
      have hle : c.number / Fintype.card T ≤ a.state.arrivals / Fintype.card T :=
        Nat.div_le_div_right hc.2.1.le
      rw [hi.barrier.round, hc.1.r] at hsame
      have hnow := (ofNat_inj hround (by omega)).mp hsame
      have hpcs := hmove a.state.pc t (.blocked c)
      rw [hpc] at hpcs
      simp only [Pc.weight, if_pos hnow.symm, Label.isSpurious] at hpcs ⊢
      omega
    | @leave t c hpc hne =>
      have hpcs := hmove a.state.pc t (.exiting c)
      rw [hpc] at hpcs
      simp only [Pc.weight, Label.isSpurious] at hpcs ⊢
      split_ifs at hpcs <;> omega
    | @spurious t c hpc =>
      have hpcs := hmove a.state.pc t (.woken c)
      rw [hpc] at hpcs
      simp only [Pc.weight, Label.isSpurious, if_true] at hpcs ⊢
      split_ifs at hpcs <;> omega

theorem exists_step {r : Nat} (hall : ∀ t, phases t = r) (hi : a.Inv phases)
    (hnot : ¬ a.Ended) : ∃ l b, PStep a l b ∧ l.isSpurious = false := by
  by_contra hno
  -- nobody can go on: all wait, or have no phases left
  have hrest : ∀ t, (∃ c, a.state.pc t = .blocked c) ∨
      a.state.pc t = .idle ∧ a.todo t = 0 := by
    intro t
    by_contra hmoves
    apply hno
    cases hpc : a.state.pc t with
    | idle =>
      cases htodo : a.todo t with
      | zero => exact absurd (Or.inr ⟨hpc, htodo⟩) hmoves
      | succ n => exact ⟨_, _, PStep.call htodo (Step.call hpc), rfl⟩
    | calling =>
      cases harr : arrive a.state.barrier a.state.arrivals with
      | mk c b =>
        by_cases hlast : c.index = a.state.barrier.parties
        · exact ⟨_, _, PStep.run rfl (Step.last hpc harr hlast), rfl⟩
        · exact ⟨_, _, PStep.run rfl (Step.wait hpc harr hlast), rfl⟩
    | blocked c => exact absurd (Or.inl ⟨c, hpc⟩) hmoves
    | woken c =>
      by_cases hround : a.state.barrier.round = c.r
      · exact ⟨_, _, PStep.run rfl (Step.waitAgain hpc hround), rfl⟩
      · exact ⟨_, _, PStep.run rfl (Step.leave hpc hround), rfl⟩
    | exiting c => exact ⟨_, _, PStep.finish (Step.finish hpc), rfl⟩
  obtain ⟨t, ht⟩ := not_forall.mp hnot
  obtain ⟨c, hpc⟩ := (hrest t).resolve_right ht
  have : Nonempty T := ⟨t⟩
  -- one that has not arrived in this round has made fewer phases than one that waits
  obtain ⟨u, hu⟩ := hi.even.exists_behind
  have hround := hi.round t c.number (by rw [hpc]; rfl)
  have hc := hi.barrier.pc t
  rw [hpc] at hc
  have haccT := hi.account t
  have haccU := hi.account u
  rw [hall t, hpc] at haccT
  rw [hall u] at haccU
  unfold Program.arrived at hu
  obtain ⟨d, hpcU⟩ | ⟨hpcU, htodo⟩ := hrest u
  · have hroundU := hi.round u d.number (by rw [hpcU]; rfl)
    have hd := hi.barrier.pc u
    rw [hpcU] at hd hu
    have hsame := hd.2.2.1
    simp only [Pc.inside] at hu
    omega
  · have hsame := hc.2.2.1
    rw [hpcU] at hu haccU
    simp only [Pc.inside, Pc.busy] at hu haccU haccT
    omega

omit [DecidableEq T] in
theorem Program.Inv.phases_eq (hi : a.Inv phases) (hend : a.Ended) (t : T) :
    phases t = a.state.arrivals / Fintype.card T := by
  obtain ⟨hpc, htodo⟩ := hend t
  have hdone := (hi.arrived_outside (t := t) (by rw [hpc]; rfl)).1
  have hacc := hi.account t
  rw [hpc, htodo, hdone] at hacc
  exact hacc.symm

/-- Of the first `n` numbers, those that come last in their batches: one for each batch. -/
theorem filter_last {p : Nat} (hp : 1 ≤ p) (n : Nat) :
    ((List.range n).filter fun k => k % p + 1 = p).map (· / p) = List.range (n / p) := by
  induction n with
  | zero => simp
  | succ n ih =>
    rw [List.range_succ, List.filter_append, List.map_append, ih]
    by_cases hlast : n % p + 1 = p
    · simp [hlast, (succ_last hp hlast).2, List.range_succ]
    · simp [hlast, (succ_not_last hp hlast).2]

omit [DecidableEq T] in
theorem Program.Inv.serials (hi : a.Inv phases) (hp : 1 ≤ Fintype.card T) (hend : a.Ended) :
    (((a.state.returns.filter fun e => e.2 = serialThread).map (·.1 / Fintype.card T) : List Nat) :
      Multiset Nat) = Multiset.range (a.state.arrivals / Fintype.card T) := by
  have hall : (a.state.returns.map Prod.fst).Perm (List.range a.state.arrivals) := by
    rw [List.perm_ext_iff_of_nodup hi.barrier.calls.nodup List.nodup_range]
    intro k
    rw [List.mem_range]
    constructor
    · intro hk
      exact hi.barrier.calls.back_lt k hk
    · intro hk
      obtain hback | ⟨t, ht⟩ := hi.barrier.calls.every k hk
      · exact hback
      · rw [(hend t).1] at ht
        cases ht
  have hserial : (a.state.returns.filter fun e => e.2 = serialThread) =
      a.state.returns.filter fun e => e.1 % Fintype.card T + 1 = Fintype.card T := by
    apply List.filter_congr
    intro e he
    have hvalue := (hi.barrier.returned e he).2
    have hne : (0 : Int32) ≠ serialThread := by decide
    by_cases hlast : e.1 % Fintype.card T + 1 = Fintype.card T
    · simp [hvalue, hlast]
    · simp [hvalue, hlast, hne]
  have hperm := (hall.filter fun k => k % Fintype.card T + 1 = Fintype.card T).map
    (· / Fintype.card T)
  rw [filter_last hp, List.filter_map, List.map_map] at hperm
  rw [hserial, Multiset.range, Multiset.coe_eq_coe]
  exact hperm

/-- Threads that each go through a number of phases, as many threads as the barrier has parties:
in any order of their steps and with any spurious wakeups, all of them come to their ends, with
one serial value returned in each phase, exactly when they have equally many phases; and no
thread has passed the end of a phase before all have reached it. -/
theorem phases_return_iff (hp : 1 ≤ Fintype.card T) (hp' : Fintype.card T < 2 ^ 31)
    (hphases : ∀ t, phases t < 2 ^ 31) :
    (∀ r, Returns PStep (start (Int32.ofNat (Fintype.card T)) phases) Label.isSpurious
        Program.result (Multiset.range r) ↔ ∀ t, phases t = r) ∧
      ∀ ls a, Runs PStep (start (Int32.ofNat (Fintype.card T)) phases) ls a →
        ∀ t u, a.done t ≤ a.arrived u := by
  have hkeep : ∀ (a : Program T) l b, a.Inv phases → PStep a l b → b.Inv phases :=
    fun a l b hi h => h.inv hp hp' hphases hi
  refine ⟨fun r => ⟨fun h t => ?_, fun hall => ⟨?_, ?_, ?_⟩⟩, ?_⟩
  · obtain ⟨ls, a, hrun, hr⟩ := h.exists_run
    have hi := hrun.invariant (Program.Inv.start phases) hkeep
    unfold Program.result at hr
    split at hr
    · rename_i hend
      have hrange := Option.some.inj hr
      rw [hi.serials hp hend] at hrange
      have hcard := congrArg Multiset.card hrange
      rw [Multiset.card_range, Multiset.card_range] at hcard
      rw [← hcard]
      exact hi.phases_eq hend t
    · cases hr
  · intro ls a x hrun hx
    have hi := hrun.invariant (Program.Inv.start phases) hkeep
    obtain ⟨t⟩ := Fintype.card_pos_iff.mp hp
    unfold Program.result at hx
    split at hx
    · rename_i hend
      rw [← Option.some.inj hx, hi.serials hp hend, ← hi.phases_eq hend t, hall t]
    · cases hx
  · intro ls a hrun hnone
    have hi := hrun.invariant (Program.Inv.start phases) hkeep
    apply exists_step hall hi
    intro hend
    rw [Program.result, if_pos hend] at hnone
    cases hnone
  · exact bounded_of_invariant (c := 2) (Program.Inv.start phases) hkeep
      fun a l b hi h => h.ahead hp hp' hphases hi
  · intro ls a hrun t u
    have hi := hrun.invariant (Program.Inv.start phases) hkeep
    exact (hi.done_le t).trans (hi.even.low u)

end Phases

/-- Three threads of two phases each end; when one of them has a third phase, they do not. -/
theorem phases_return_iff_three :
    Returns PStep (start (T := Fin 3) (Int32.ofNat 3) fun _ => 2) Label.isSpurious
        Program.result (Multiset.range 2) ∧
      ¬ ∃ r, Returns PStep (start (T := Fin 3) (Int32.ofNat 3) fun t => if t = 0 then 3 else 2)
        Label.isSpurious Program.result (Multiset.range r) := by
  refine ⟨?_, ?_⟩
  · exact ((phases_return_iff (T := Fin 3) (by decide) (by decide) (fun _ => by decide)).1 2).mpr
      fun _ => rfl
  · rintro ⟨r, hr⟩
    have hall := ((phases_return_iff (T := Fin 3) (by decide) (by decide)
      (fun t => by revert t; decide)).1 r).mp hr
    have h0 : 3 = r := hall 0
    have h1 : 2 = r := hall 1
    omega

end OsCourse.Barriers
