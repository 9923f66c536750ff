import OsCourse.Barriers.Model
import OsCourse.Lib.Ints
import OsCourse.Lib.Tickets

/-! The rounds of the barrier: the calls in batches of `parties`, in the order in which
they arrive. -/
namespace OsCourse.Barriers
open Function Ints Transition Wakeup Tickets
variable {T : Type*} {p : Nat}

section Arithmetic

theorem ofNat_succ (a : Nat) : Int32.ofNat (a + 1) = Int32.ofNat a + 1 := Int32.ofNat_add a 1

theorem succ_last {n : Nat} (hp : 0 < p) (h : n % p + 1 = p) :
    (n + 1) % p = 0 ∧ (n + 1) / p = n / p + 1 := by
  have heq : n + 1 = p * (n / p + 1) := by
    have := Nat.div_add_mod n p
    rw [Nat.mul_add]
    omega
  rw [heq]
  exact ⟨Nat.mul_mod_right _ _, Nat.mul_div_cancel_left _ hp⟩

theorem succ_not_last {n : Nat} (hp : 0 < p) (h : n % p + 1 ≠ p) :
    (n + 1) % p = n % p + 1 ∧ (n + 1) / p = n / p := by
  have hlt : n % p + 1 < p := by
    have := Nat.mod_lt n hp
    omega
  have heq : n + 1 = n % p + 1 + p * (n / p) := by
    have := Nat.div_add_mod n p
    omega
  constructor
  · rw [heq, Nat.add_mul_mod_self_left, Nat.mod_eq_of_lt hlt]
  · conv_lhs => rw [heq]
    rw [Nat.add_mul_div_left _ _ hp, Nat.div_eq_of_lt hlt, Nat.zero_add]

end Arithmetic

/-- The locals of call number `number`: its place in its batch, and the batch. -/
structure Call.Ok (p : Nat) (c : Call) : Prop where
  index : c.index = Int32.ofNat (c.number % p + 1)
  r : c.r = Int32.ofNat (c.number / p)

/-- What a thread at a program point has, when `arrivals` calls have arrived: a blocked call
belongs to the batch that is filling, and not last in it, and one that leaves to a batch
that is complete. -/
def PcOk (p arrivals : Nat) : Pc → Prop
  | .idle | .calling => True
  | .blocked c => c.Ok p ∧ c.number < arrivals ∧ c.number / p = arrivals / p ∧
      c.number % p + 1 ≠ p
  | .woken c => c.Ok p ∧ c.number < arrivals ∧ c.number % p + 1 ≠ p
  | .exiting c => c.Ok p ∧ c.number / p < arrivals / p

def Pc.number : Pc → Option Nat
  | .idle | .calling => none
  | .blocked c | .woken c | .exiting c => some c.number

theorem Pc.number_wake (q q' : Pc) (h : q.wake = some q') : q'.number = q.number := by
  cases q <;> cases h
  rfl

structure Inv (p : Nat) (s : State T) : Prop where
  parties : s.barrier.parties = Int32.ofNat p
  arrived : s.barrier.arrived = Int32.ofNat (s.arrivals % p)
  round : s.barrier.round = Int32.ofNat (s.arrivals / p)
  pc : ∀ t, PcOk p s.arrivals (s.pc t)
  calls : Ledger s.arrivals (fun t => (s.pc t).number) (s.returns.map Prod.fst)
  returned : ∀ e ∈ s.returns, e.1 / p < s.arrivals / p ∧
    e.2 = if e.1 % p + 1 = p then serialThread else 0

theorem init_inv : Inv p (init (Int32.ofNat p) : State T) := by
  refine ⟨rfl, ?_, ?_, fun t => trivial, Ledger.empty, ?_⟩
  · simp [init, barrierInit]
  · simp [init, barrierInit]
  · intro e h
    cases h

theorem Call.Ok.last_iff {c : Call} (h : c.Ok p) (hp : 0 < p) (hp' : p < 2 ^ 31) :
    c.index = Int32.ofNat p ↔ c.number % p + 1 = p := by
  rw [h.index]
  constructor
  · intro he
    have := Nat.mod_lt c.number hp
    exact (ofNat_inj (by omega) hp').mp he
  · intro he
    rw [he]

variable {s s' : State T} {l : Label T}

theorem arrive_ok (hi : Inv p s) {c : Call} {b : Barrier} (hp : 0 < p) (hp' : p < 2 ^ 31)
    (h : arrive s.barrier s.arrivals = (c, b)) :
    c.number = s.arrivals ∧ c.Ok p ∧ b.parties = Int32.ofNat p ∧
      b.arrived = Int32.ofNat ((s.arrivals + 1) % p) ∧
      b.round = Int32.ofNat ((s.arrivals + 1) / p) := by
  have hindex : s.barrier.arrived + 1 = Int32.ofNat (s.arrivals % p + 1) := by
    rw [hi.arrived, ofNat_succ]
  unfold arrive at h
  dsimp only at h
  split at h
  · rename_i hlast
    cases h
    have hok : Call.Ok p ⟨s.arrivals, s.barrier.arrived + 1, s.barrier.round⟩ :=
      ⟨hindex, hi.round⟩
    have hmod := (hok.last_iff hp hp').mp (hlast.trans hi.parties)
    obtain ⟨hm, hd⟩ := succ_last hp hmod
    refine ⟨rfl, hok, hi.parties, ?_, ?_⟩
    · rw [hm]
      rfl
    · dsimp only
      rw [hd, ofNat_succ, hi.round]
  · rename_i hnot
    cases h
    have hok : Call.Ok p ⟨s.arrivals, s.barrier.arrived + 1, s.barrier.round⟩ :=
      ⟨hindex, hi.round⟩
    have hmod : s.arrivals % p + 1 ≠ p := fun he =>
      hnot (((hok.last_iff hp hp').mpr he).trans hi.parties.symm)
    obtain ⟨hm, hd⟩ := succ_not_last hp hmod
    refine ⟨rfl, hok, hi.parties, ?_, ?_⟩
    · dsimp only
      rw [hm, hindex]
    · dsimp only
      rw [hd, hi.round]

section Steps

/-- An arrival that is not the last of its batch leaves what the others have. -/
theorem PcOk.arrive {n : Nat} {q : Pc} (h : PcOk p n q) (hd : (n + 1) / p = n / p) :
    PcOk p (n + 1) q := by
  cases q with
  | idle | calling => trivial
  | blocked c => exact ⟨h.1, Nat.lt_succ_of_lt h.2.1, hd ▸ h.2.2.1, h.2.2.2⟩
  | woken c => exact ⟨h.1, Nat.lt_succ_of_lt h.2.1, h.2.2⟩
  | exiting c => exact ⟨h.1, hd ▸ h.2⟩

/-- The last arrival of a batch wakes the others. -/
theorem PcOk.complete {n : Nat} {pc : T → Pc} {t : T} (h : PcOk p n (pc t))
    (hd : (n + 1) / p = n / p + 1) : PcOk p (n + 1) (broadcast Pc.wake pc t) := by
  cases hpc : pc t with
  | blocked c =>
    rw [hpc] at h
    have hw : Pc.wake (pc t) = some (.woken c) := by rw [hpc]; rfl
    rw [broadcast_of_some hw]
    exact ⟨h.1, Nat.lt_succ_of_lt h.2.1, h.2.2.2⟩
  | idle | calling =>
    have hw : Pc.wake (pc t) = none := by rw [hpc]; rfl
    rw [broadcast_of_none hw, hpc]
    trivial
  | woken c =>
    rw [hpc] at h
    have hw : Pc.wake (pc t) = none := by rw [hpc]; rfl
    rw [broadcast_of_none hw, hpc]
    exact ⟨h.1, Nat.lt_succ_of_lt h.2.1, h.2.2⟩
  | exiting c =>
    rw [hpc] at h
    have hw : Pc.wake (pc t) = none := by rw [hpc]; rfl
    rw [broadcast_of_none hw, hpc]
    exact ⟨h.1, by rw [hd]; exact Nat.lt_succ_of_lt h.2⟩

variable [DecidableEq T] {s s' : State T} {l : Label T}

theorem number_update (pc : T → Pc) (t : T) (q : Pc) :
    (fun u => (update pc t q u).number) = update (fun u => (pc u).number) t q.number := by
  funext u
  by_cases hu : u = t
  · subst hu
    rw [update_self, update_self]
  · rw [update_of_ne hu, update_of_ne hu]

theorem pc_update {n : Nat} {pc : T → Pc} {t : T} {q : Pc} (h : ∀ u, PcOk p n (pc u))
    (hq : PcOk p n q) : ∀ u, PcOk p n (update pc t q u) := by
  rw [forall_update_iff pc fun _ q => PcOk p n q]
  exact ⟨hq, fun u _ => h u⟩

theorem calls_keep {back : List Nat} {pc : T → Pc} {t : T} {q : Pc} {n : Nat}
    (h : Ledger n (fun u => (pc u).number) back) (hq : q.number = (pc t).number) :
    Ledger n (fun u => (update pc t q u).number) back := by
  rw [number_update, hq, update_eq_self t fun u => (pc u).number]
  exact h

theorem Step.inv (h : Step s l s') (hp : 0 < p) (hp' : p < 2 ^ 31)
    (hr : s'.arrivals / p < 2 ^ 31) (hi : Inv p s) : Inv p s' := by
  cases h with
  | call hpc =>
    refine ⟨hi.parties, hi.arrived, hi.round, pc_update hi.pc trivial, ?_, hi.returned⟩
    exact calls_keep hi.calls (by rw [hpc]; rfl)
  | @last t c b hpc harr hlast =>
    obtain ⟨hnum, hok, hparties, harrived, hround⟩ := arrive_ok hi hp hp' harr
    have hmod := (hok.last_iff hp hp').mp (hlast.trans hi.parties)
    rw [hnum] at hmod
    have hd := (succ_last hp hmod).2
    refine ⟨hparties, harrived, hround, ?_, ?_, ?_⟩
    · apply pc_update fun u => (hi.pc u).complete hd
      refine ⟨hok, ?_⟩
      rw [hnum, hd]
      exact Nat.lt_succ_self _
    · have hheld : (fun u => (broadcast Pc.wake s.pc u).number) = fun u => (s.pc u).number :=
        funext fun u => broadcast_iff Pc.number Pc.number_wake u
      rw [number_update, hheld]
      have hdraw := hi.calls.draw (t := t) (by rw [hpc]; rfl)
      rw [show (Pc.exiting c).number = some s.arrivals from congrArg some hnum]
      exact hdraw
    · intro e he
      obtain ⟨h1, h2⟩ := hi.returned e he
      refine ⟨?_, h2⟩
      dsimp only
      omega
  | @wait t c b hpc harr hnot =>
    obtain ⟨hnum, hok, hparties, harrived, hround⟩ := arrive_ok hi hp hp' harr
    have hmod : c.number % p + 1 ≠ p := fun he =>
      hnot (((hok.last_iff hp hp').mpr he).trans hi.parties.symm)
    have hd := (succ_not_last hp (hnum ▸ hmod)).2
    refine ⟨hparties, harrived, hround, ?_, ?_, ?_⟩
    · apply pc_update fun u => (hi.pc u).arrive hd
      exact ⟨hok, by rw [hnum]; exact Nat.lt_succ_self _, by rw [hnum, hd], hmod⟩
    · rw [number_update]
      have hdraw := hi.calls.draw (t := t) (by rw [hpc]; rfl)
      rw [show (Pc.blocked c).number = some s.arrivals from congrArg some hnum]
      exact hdraw
    · intro e he
      obtain ⟨h1, h2⟩ := hi.returned e he
      exact ⟨hd ▸ h1, h2⟩
  | @waitAgain t c hpc hround =>
    have hc := hi.pc t
    rw [hpc] at hc
    obtain ⟨hok, hlt, hmod⟩ := hc
    refine ⟨hi.parties, hi.arrived, hi.round, pc_update hi.pc ⟨hok, hlt, ?_, hmod⟩, ?_, hi.returned⟩
    · have hsame : Int32.ofNat (s.arrivals / p) = Int32.ofNat (c.number / p) := by
        rw [← hi.round, ← hok.r]
        exact hround
      have hle : c.number / p ≤ s.arrivals / p := Nat.div_le_div_right hlt.le
      have hfits : s.arrivals / p < 2 ^ 31 := hr
      exact ((ofNat_inj hfits (by omega)).mp hsame).symm
    · exact calls_keep hi.calls (by rw [hpc]; rfl)
  | @leave t c hpc hround =>
    have hc := hi.pc t
    rw [hpc] at hc
    obtain ⟨hok, hlt, _⟩ := hc
    refine ⟨hi.parties, hi.arrived, hi.round, pc_update hi.pc ⟨hok, ?_⟩, ?_, hi.returned⟩
    · have hle : c.number / p ≤ s.arrivals / p := Nat.div_le_div_right hlt.le
      have hne : c.number / p ≠ s.arrivals / p := by
        intro he
        apply hround
        rw [hi.round, hok.r, he]
      exact Nat.lt_of_le_of_ne hle hne
    · exact calls_keep hi.calls (by rw [hpc]; rfl)
  | @spurious t c hpc =>
    have hc := hi.pc t
    rw [hpc] at hc
    refine ⟨hi.parties, hi.arrived, hi.round, pc_update hi.pc ⟨hc.1, hc.2.1, hc.2.2.2⟩, ?_,
      hi.returned⟩
    exact calls_keep hi.calls (by rw [hpc]; rfl)
  | @finish t c hpc =>
    have hc := hi.pc t
    rw [hpc] at hc
    refine ⟨hi.parties, hi.arrived, hi.round, pc_update hi.pc trivial, ?_, ?_⟩
    · rw [number_update, List.map_append]
      exact hi.calls.handBack (t := t) (by rw [hpc]; rfl)
    · intro e he
      cases List.mem_append.mp he with
      | inl hold =>
        exact hi.returned e hold
      | inr hnew =>
        rw [List.mem_singleton.mp hnew]
        refine ⟨hc.2, ?_⟩
        unfold Call.result
        rw [hi.parties]
        exact if_congr (hc.1.last_iff hp hp') rfl rfl

theorem Step.arrivals_le (h : Step s l s') : s.arrivals ≤ s'.arrivals := by
  cases h with
  | last | wait => exact Nat.le_succ _
  | call | waitAgain | leave | spurious | finish => exact Nat.le_refl _

theorem inv_of_runs {ls : List (Label T)} (hp : 0 < p) (hp' : p < 2 ^ 31)
    (hrun : Runs Step (init (Int32.ofNat p)) ls s) (hr : s.arrivals / p < 2 ^ 31) : Inv p s := by
  have himp := hrun.invariant (P := fun a : State T => a.arrivals / p < 2 ^ 31 → Inv p a)
    (fun _ => init_inv) fun a l b ha hstep hb => by
      have hle := Nat.div_le_div_right (c := p) hstep.arrivals_le
      exact hstep.inv hp hp' hb (ha (by omega))
  exact himp hr

theorem complete_iff {k n : Nat} (hp : 0 < p) : k / p < n / p ↔ (k / p + 1) * p ≤ n :=
  Nat.le_div_iff_mul_le hp

/-- In every run of a barrier of `p` parties: a call that returns, or is about to, belongs to
a complete batch; it returns the serial value exactly when it came last in its batch, and that
call of a complete batch has returned or is about to; each call returns once; `arrived` is
below `p`; and no call of a complete batch is blocked. -/
theorem batches (hp : 1 ≤ p) (hp' : p < 2 ^ 31) (ls : List (Label T)) (s : State T)
    (hrun : Runs Step (init (Int32.ofNat p)) ls s) (hr : s.arrivals / p < 2 ^ 31) :
    (∀ e ∈ s.returns, (e.1 / p + 1) * p ≤ s.arrivals ∧
        e.2 = if e.1 % p + 1 = p then serialThread else 0) ∧
      (∀ t c, s.pc t = .exiting c → (c.number / p + 1) * p ≤ s.arrivals) ∧
      (s.returns.map Prod.fst).Nodup ∧
      (∀ k < s.arrivals, k ∈ s.returns.map Prod.fst ∨ ∃ t, (s.pc t).number = some k) ∧
      (∀ k < s.arrivals, k % p + 1 = p →
        (k, serialThread) ∈ s.returns ∨ ∃ t c, s.pc t = .exiting c ∧ c.number = k) ∧
      (0 ≤ s.barrier.arrived.toInt ∧ s.barrier.arrived.toInt ≤ p - 1) ∧
      ∀ t c, s.pc t = .blocked c → s.arrivals < (c.number / p + 1) * p := by
  have hi := inv_of_runs hp hp' hrun hr
  refine ⟨?_, ?_, hi.calls.nodup, hi.calls.every, ?_, ?_, ?_⟩
  · intro e he
    obtain ⟨h1, h2⟩ := hi.returned e he
    exact ⟨(complete_iff hp).mp h1, h2⟩
  · intro t c hpc
    have hc := hi.pc t
    rw [hpc] at hc
    exact (complete_iff hp).mp hc.2
  · intro k hk hlast
    obtain hret | ⟨t, ht⟩ := hi.calls.every k hk
    · obtain ⟨e, he, rfl⟩ := List.mem_map.mp hret
      have hvalue := (hi.returned e he).2
      rw [if_pos hlast] at hvalue
      exact Or.inl (hvalue ▸ he)
    · have hc := hi.pc t
      cases hpc : s.pc t with
      | exiting c =>
        rw [hpc] at ht
        exact Or.inr ⟨t, c, hpc, Option.some.inj ht⟩
      | blocked c =>
        rw [hpc] at ht hc
        cases ht
        exact absurd hlast hc.2.2.2
      | woken c =>
        rw [hpc] at ht hc
        cases ht
        exact absurd hlast hc.2.2
      | idle | calling =>
        rw [hpc] at ht
        cases ht
  · have hlt := Nat.mod_lt s.arrivals hp
    rw [hi.arrived, Int32.toInt_ofNat_of_lt (by omega)]
    omega
  · intro t c hpc
    have hc := hi.pc t
    rw [hpc] at hc
    obtain ⟨_, _, hsame, _⟩ := hc
    by_contra hle
    have := (complete_iff hp).mpr (Nat.le_of_not_lt hle)
    omega

end Steps

/-- Two threads meet once. -/
theorem batches_two : ∃ (ls : List (Label Bool)) (s : State Bool),
    Runs Step (init (Int32.ofNat 2)) ls s ∧ (1, serialThread) ∈ s.returns ∧ s.arrivals = 2 ∧
      ∀ t c, s.pc t ≠ .blocked c := by
  have hfirst := Runs.single (s := (init (Int32.ofNat 2) : State Bool)) (l := Label.call false)
    (Step.call rfl)
  have hsecond := hfirst.snoc (l := .call true) (Step.call rfl)
  have hwaits := hsecond.snoc (l := .lock false) (Step.wait rfl rfl (by decide))
  have hlast := hwaits.snoc (l := .lock true) (Step.last rfl rfl (by decide))
  have hback := hlast.snoc (l := .finish true) (Step.finish rfl)
  have hall := batches (p := 2) (by decide) (by decide) _ _ hback (by decide)
  refine ⟨_, _, hback, ?_, rfl, ?_⟩
  · obtain hret | ⟨t, c, hpc, _⟩ := hall.2.2.2.2.1 1 (by decide) (by decide)
    · exact hret
    · cases t <;> cases hpc
  · intro t c hpc
    cases t <;> cases hpc

end OsCourse.Barriers
