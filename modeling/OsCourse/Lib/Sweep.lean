import Mathlib.Algebra.Order.Ring.Int
import Mathlib.Data.List.Infix
import Mathlib.Data.List.Nodup
import OsCourse.Lib.Transition

/-! A pass over a list of entries, some of them wanted, that goes from the head on and reads
entries. An entry that is dropped is replaced by the last one, in a place that the pass has
gone by. A budget, lowered by each drop, ends the pass. -/
namespace OsCourse.Sweep
open Transition
variable {α : Type*} {wanted : α → Prop}

/-- `todo` is what the pass has not got to, and `seen` what it has read. -/
structure State (α : Type*) where
  todo : List α
  budget : Int
  seen : List α

/-- `Move wanted s p t`: the pass goes on from `s` to `t`, and `p` says that no wanted entry is
replaced away. -/
inductive Move (wanted : α → Prop) : State α → Prop → State α → Prop
  | stay (s : State α) : Move wanted s True s
  | extend {todo : List α} {budget : Int} {seen : List α} {x : α} : ¬wanted x →
      Move wanted ⟨todo, budget, seen⟩ True ⟨todo ++ [x], budget, seen⟩
  | skip {x : α} {rest : List α} {budget : Int} {seen : List α} : ¬wanted x →
      Move wanted ⟨x :: rest, budget, seen⟩ True ⟨rest, budget, seen⟩
  | keep {x : α} {rest : List α} {budget : Int} {seen : List α} :
      Move wanted ⟨x :: rest, budget, seen⟩ True ⟨rest, budget, seen ++ [x]⟩
  | drop {x : α} {rest : List α} {budget : Int} {seen : List α} : 0 < budget →
      (rest ≠ [] → wanted x) →
      Move wanted ⟨x :: rest, budget, seen⟩ (∀ y ∈ rest.getLast?, ¬wanted y)
        ⟨rest.dropLast, budget - 1, seen ++ [x]⟩
  | finish {s : State α} : s.todo = [] ∨ s.budget ≤ 0 → Move wanted s True ⟨[], 0, s.seen⟩

variable {s t : State α} {p : Prop} {W : List α}

theorem Move.congr {q : Prop} (h : Move wanted s p t) (hq : q ↔ p) : Move wanted s q t := by
  rw [propext hq]
  exact h

def Lost (wanted : α → Prop) (W : List α) (s : State α) : Prop :=
  ∃ x ∈ W, wanted x ∧ x ∉ s.seen ∧ x ∉ s.todo

theorem Move.lost (h : Move wanted s p t) (hl : Lost wanted W s) : Lost wanted W t := by
  obtain ⟨x, hx, hw, hseen, htodo⟩ := hl
  refine ⟨x, hx, hw, ?_⟩
  cases h with
  | stay => exact ⟨hseen, htodo⟩
  | extend hnot =>
    refine ⟨hseen, ?_⟩
    rw [List.mem_append, List.mem_singleton, not_or]
    refine ⟨htodo, ?_⟩
    rintro rfl
    exact hnot hw
  | skip => exact ⟨hseen, fun hin => htodo (List.mem_cons_of_mem _ hin)⟩
  | keep =>
    dsimp only at hseen htodo ⊢
    rw [List.mem_cons, not_or] at htodo
    rw [List.mem_append, List.mem_singleton, not_or]
    exact ⟨⟨hseen, htodo.1⟩, htodo.2⟩
  | drop =>
    dsimp only at hseen htodo ⊢
    rw [List.mem_cons, not_or] at htodo
    rw [List.mem_append, List.mem_singleton, not_or]
    exact ⟨⟨hseen, htodo.1⟩, fun hin => htodo.2 (List.mem_of_mem_dropLast hin)⟩
  | finish => exact ⟨hseen, nofun⟩

theorem Move.budget [DecidablePred wanted] (h : Move wanted s p t)
    (hb : ((s.todo.countP fun x => wanted x : Nat) : Int) ≤ s.budget) :
    ((t.todo.countP fun x => wanted x : Nat) : Int) ≤ t.budget := by
  cases h with
  | stay => exact hb
  | extend hx => simpa [List.countP_append, hx] using hb
  | skip hx => simpa [List.countP_cons, hx] using hb
  | keep =>
    dsimp only at hb ⊢
    rw [List.countP_cons] at hb
    omega
  | @drop x rest budget seen hpos hx =>
    dsimp only at hb ⊢
    rw [List.countP_cons] at hb
    have hsub := (List.dropLast_sublist rest).countP_le (p := fun y => decide (wanted y))
    by_cases hnil : rest = []
    · rw [hnil, List.dropLast_nil, List.countP_nil]
      omega
    · have hone : decide (wanted x) = true := decide_eq_true (hx hnil)
      rw [if_pos hone] at hb
      omega
  | finish => exact le_refl 0

variable [DecidableEq α]

structure Once (wanted : α → Prop) (W : List α) (s : State α) : Prop where
  mem : ∀ x ∈ s.todo, wanted x → x ∈ W
  count : ∀ x, wanted x → s.seen.count x + s.todo.count x ≤ 1

/-- Every wanted entry was read or is still to be read, and the budget is enough for them. -/
structure Whole (wanted : α → Prop) [DecidablePred wanted] (W : List α) (s : State α) : Prop where
  count : ∀ x ∈ W, wanted x → s.seen.count x + s.todo.count x = 1
  budget : ((s.todo.countP fun x => wanted x : Nat) : Int) ≤ s.budget

theorem count_dropLast (x : α) (rest : List α) :
    rest.count x = rest.dropLast.count x + if rest.getLast? = some x then 1 else 0 := by
  cases List.eq_nil_or_concat rest with
  | inl hnil =>
    rw [hnil]
    rfl
  | inr hlast =>
    obtain ⟨front, y, rfl⟩ := hlast
    simp [List.count_append, List.count_singleton]

/-- What was read stays read. An entry that is wanted is never put in a second place, and it
goes from its place when it is replaced away, or when the pass is over. -/
theorem Move.count (h : Move wanted s p t) {y : α} (hy : wanted y) :
    s.seen.count y ≤ t.seen.count y ∧
    t.seen.count y + t.todo.count y ≤ s.seen.count y + s.todo.count y ∧
    (t.seen.count y + t.todo.count y < s.seen.count y + s.todo.count y →
      p → s.todo = [] ∨ s.budget ≤ 0) := by
  cases h with
  | stay => exact ⟨le_refl _, le_refl _, fun h => absurd h (lt_irrefl _)⟩
  | @extend todo budget seen x hx =>
    have hne : y ≠ x := by
      rintro rfl
      exact hx hy
    dsimp only
    rw [List.count_append, List.count_singleton, if_neg (by simpa using hne.symm), Nat.add_zero]
    exact ⟨le_refl _, le_refl _, fun h => absurd h (lt_irrefl _)⟩
  | @skip x rest budget seen hx =>
    have hne : y ≠ x := by
      rintro rfl
      exact hx hy
    dsimp only
    rw [List.count_cons_of_ne hne.symm]
    exact ⟨le_refl _, le_refl _, fun h => absurd h (lt_irrefl _)⟩
  | @keep x rest =>
    dsimp only
    rw [List.count_cons, List.count_append, List.count_singleton]
    refine ⟨by omega, by omega, ?_⟩
    intro hless
    omega
  | @drop x rest =>
    have hlast := count_dropLast y rest
    dsimp only
    rw [List.count_cons, List.count_append, List.count_singleton]
    refine ⟨by omega, by omega, ?_⟩
    intro hless hp
    have hnot : rest.getLast? ≠ some y := fun he => hp y he hy
    rw [if_neg hnot] at hlast
    omega
  | finish hend =>
    dsimp only
    rw [List.count_nil]
    exact ⟨le_refl _, by omega, fun _ _ => hend⟩

theorem Move.once (h : Move wanted s p t) (ho : Once wanted W s) : Once wanted W t := by
  refine ⟨?_, fun y hy => (h.count hy).2.1.trans (ho.count y hy)⟩
  intro y hmem hy
  cases h with
  | stay => exact ho.mem y hmem hy
  | extend hx =>
    cases List.mem_append.mp hmem with
    | inl hold => exact ho.mem y hold hy
    | inr hnew =>
      rw [List.mem_singleton.mp hnew] at hy
      exact absurd hy hx
  | skip | keep => exact ho.mem y (List.mem_cons_of_mem _ hmem) hy
  | drop => exact ho.mem y (List.mem_cons_of_mem _ (List.mem_of_mem_dropLast hmem)) hy
  | finish => cases hmem

theorem Move.lost_of_not (h : Move wanted s p t) (ho : Once wanted W s) (hp : ¬p) :
    Lost wanted W t := by
  cases h with
  | stay | extend | skip | keep | finish => exact absurd trivial hp
  | @drop x rest budget seen hbudget hx =>
    have hlast : ∃ y ∈ rest.getLast?, wanted y := by
      by_contra hnone
      exact hp fun y hy hw => hnone ⟨y, hy, hw⟩
    obtain ⟨y, hy, hw⟩ := hlast
    rw [Option.mem_def] at hy
    have hmem : y ∈ rest := List.mem_of_getLast? hy
    have hcount := ho.count y hw
    have hsplit := count_dropLast y rest
    have hhead : 0 < (x :: rest).count y := List.count_pos_iff.mpr (List.mem_cons_of_mem x hmem)
    rw [if_pos hy] at hsplit
    dsimp only at hcount
    rw [List.count_cons] at hcount
    refine ⟨y, ho.mem y (List.mem_cons_of_mem x hmem) hw, hw, ?_, ?_⟩
    all_goals dsimp only
    · rw [← List.count_eq_zero, List.count_append, List.count_singleton]
      omega
    · rw [← List.count_eq_zero]
      omega

variable [DecidablePred wanted]

theorem Whole.finish (h : Whole wanted W s) (hend : s.todo = [] ∨ s.budget ≤ 0) :
    ∀ x ∈ W, wanted x → s.seen.count x = 1 := by
  intro x hx hw
  have hcount := h.count x hx hw
  have hbudget := h.budget
  have hnone : s.todo.count x = 0 := by
    rw [List.count_eq_zero]
    intro hmem
    cases hend with
    | inl hnil =>
      rw [hnil] at hmem
      cases hmem
    | inr hzero =>
      have hpos : 0 < s.todo.countP fun x => wanted x :=
        List.countP_pos_iff.mpr ⟨x, hmem, decide_eq_true hw⟩
      omega
  omega

theorem Move.whole (h : Move wanted s p t) (hw : Whole wanted W s) (hp : p) :
    Whole wanted W t := by
  refine ⟨?_, h.budget hw.budget⟩
  intro y hmem hy
  obtain ⟨hread, hle, hless⟩ := h.count hy
  have hone := hw.count y hmem hy
  by_contra hne
  have hend := hless (by omega) hp
  have hseen := hw.finish hend y hmem hy
  omega

/-- Of the passes whose steps are moves, those that never replace away a wanted entry are those
that read every wanted entry once. -/
theorem served_iff {τ κ : Type*} {T : τ → κ → τ → Prop} {ok : τ → κ → Prop}
    {view : τ → State α} {I : τ → Prop} {a b : τ} {ls : List κ} {todo seen : List α}
    {budget n : Int}
    (hmove : ∀ a l b, I a → T a l b → I b ∧ Move wanted (view a) (ok a l) (view b)) (ha : I a)
    (hview : view a = ⟨todo, budget, []⟩) (hnodup : todo.Nodup)
    (hbudget : ((todo.countP fun x => wanted x : Nat) : Int) ≤ budget)
    (hend : view b = ⟨[], n, seen⟩) :
    Runs (fun a l b => T a l b ∧ ok a l) a ls b ↔
      Runs T a ls b ∧ ∀ x ∈ todo, wanted x → seen.count x = 1 := by
  constructor
  · intro hrun
    refine ⟨hrun.mono fun _ _ _ h => h.1, ?_⟩
    have hwhole : Whole wanted todo (view a) := by
      rw [hview]
      refine ⟨?_, hbudget⟩
      intro x hx _
      rw [List.count_nil, List.count_eq_one_of_mem hnodup hx]
    have hlast := hrun.invariant (P := fun c => I c ∧ Whole wanted todo (view c)) ⟨ha, hwhole⟩ ?_
    · have hserved := hlast.2.finish (Or.inl (by rw [hend]))
      rw [hend] at hserved
      exact hserved
    · rintro c l d ⟨hi, hw⟩ ⟨hstep, hok⟩
      obtain ⟨hi', hm⟩ := hmove c l d hi hstep
      exact ⟨hi', hm.whole hw hok⟩
  · rintro ⟨hrun, hserved⟩
    have honce : Once wanted todo (view a) := by
      rw [hview]
      refine ⟨fun x hx _ => hx, ?_⟩
      intro x _
      rw [List.count_nil, Nat.zero_add]
      exact List.nodup_iff_count_le_one.mp hnodup x
    have hnever : ¬Lost wanted todo (view b) := by
      rw [hend]
      rintro ⟨x, hx, hw, hnot, _⟩
      have hone := hserved x hx hw
      rw [List.count_eq_zero.mpr hnot] at hone
      cases hone
    refine Or.resolve_right (hrun.mono_or (P := fun c => I c ∧ Once wanted todo (view c))
      (Q := fun c => Lost wanted todo (view c)) ⟨ha, honce⟩ ?_ ?_).1 hnever
    · rintro c l d ⟨hi, ho⟩ hstep
      obtain ⟨hi', hm⟩ := hmove c l d hi hstep
      refine ⟨?_, hi', hm.once ho⟩
      by_cases hok : ok c l
      · exact Or.inl ⟨hstep, hok⟩
      · exact Or.inr (hm.lost_of_not ho hok)
    · rintro c l d ⟨hi, _⟩ hl hstep
      exact (hmove c l d hi hstep).2.lost hl

end OsCourse.Sweep
