import OsCourse.Lib.Transition

/-! Systems that send back what they get, on any number of lines. What is sent on a line is a
prefix of what came on it for as long as each answer is exactly what it answers. -/
namespace OsCourse.Relay
open Function Transition
variable {κ β σ ℓ : Type*}

/-- History of the lines: what came, and what was sent. -/
structure Traffic (κ β : Type*) where
  got : κ → List β
  sent : κ → List β

def Traffic.empty : Traffic κ β := ⟨fun _ => [], fun _ => []⟩

/-- Nothing is sent on a line that did not come on it, in this order. -/
def Traffic.Echoed (t : Traffic κ β) : Prop := ∀ k, t.sent k <+: t.got k

def Traffic.Answered (t : Traffic κ β) : Prop := ∀ k, t.sent k = t.got k

theorem Traffic.Answered.echoed {t : Traffic κ β} (h : t.Answered) : t.Echoed := by
  intro k
  simp only [h k, List.prefix_rfl]

section Steps
variable [DecidableEq κ]

/-- Line `k` is given to another party. -/
def Traffic.restart (t : Traffic κ β) (k : κ) : Traffic κ β :=
  ⟨update t.got k [], update t.sent k []⟩

def Traffic.gets (t : Traffic κ β) (k : κ) (xs : List β) : Traffic κ β :=
  { t with got := update t.got k (t.got k ++ xs) }

def Traffic.sends (t : Traffic κ β) (k : κ) (xs : List β) : Traffic κ β :=
  { t with sent := update t.sent k (t.sent k ++ xs) }

/-- What a step may do: an answer begins with what it answers, and is exact when `exact`. -/
inductive Moves (exact : Prop) (t : Traffic κ β) : Traffic κ β → Prop
  | keep : exact → Moves exact t t
  | restart (k : κ) : exact → Moves exact t (t.restart k)
  | answer (k : κ) {xs rest : List β} : (exact ↔ rest = []) →
      Moves exact t ((t.gets k xs).sends k (xs ++ rest))

variable {t u : Traffic κ β} {exact : Prop}

theorem Moves.answered (h : Moves exact t u) (hexact : exact) (ht : t.Answered) : u.Answered := by
  intro k
  cases h with
  | keep => exact ht k
  | restart k' =>
    dsimp only [Traffic.restart]
    by_cases hk : k = k'
    · rw [hk, update_self, update_self]
    · rw [update_of_ne hk, update_of_ne hk, ht k]
  | @answer k' xs rest hrest =>
    dsimp only [Traffic.gets, Traffic.sends]
    rw [hrest.mp hexact, List.append_nil]
    by_cases hk : k = k'
    · rw [hk, update_self, update_self, ht k']
    · rw [update_of_ne hk, update_of_ne hk, ht k]

theorem Moves.exact_of_echoed (h : Moves exact t u) (ht : t.Answered) (hu : u.Echoed) :
    exact := by
  cases h with
  | keep hexact | restart _ hexact => exact hexact
  | @answer k xs rest hrest =>
    apply hrest.mpr
    have hbegins := hu k
    dsimp only [Traffic.gets, Traffic.sends] at hbegins
    rw [update_self, update_self, ht k, List.prefix_append_right_inj] at hbegins
    have hlen := hbegins.length_le
    rw [List.length_append] at hlen
    exact List.eq_nil_of_length_eq_zero (by omega)

/-- The runs whose answers are exact are those in which every line is echoed in every state. -/
theorem echoed_iff {step : σ → ℓ → σ → Prop} {traffic : σ → Traffic κ β} {exact : ℓ → Prop}
    (hstep : ∀ a l b, step a l b → Moves (exact l) (traffic a) (traffic b)) {s s' : σ}
    (hs : (traffic s).Answered) (ls : List ℓ) :
    Runs (fun a l b => step a l b ∧ exact l) s ls s' ↔
      Runs (fun a l b => step a l b ∧ (traffic b).Echoed) s ls s' := by
  apply Runs.iff_of (P := fun a => (traffic a).Answered) (Q := fun a => (traffic a).Answered)
  · exact hs
  · exact hs
  · rintro a l b ha ⟨hab, hl⟩
    have hb := (hstep a l b hab).answered hl ha
    exact ⟨⟨hab, hb.echoed⟩, hb⟩
  · rintro a l b ha ⟨hab, hb⟩
    have hl := (hstep a l b hab).exact_of_echoed ha hb
    exact ⟨⟨hab, hl⟩, (hstep a l b hab).answered hl ha⟩

section Always
variable {step : σ → ℓ → σ → Prop} {traffic : σ → Traffic κ β} {exact : ℓ → Prop} {s u v : σ}

theorem answered_of_all_echoed
    (hstep : ∀ a l b, step a l b → Moves (exact l) (traffic a) (traffic b))
    (hs : (traffic s).Answered) (hall : ∀ ls t, Runs step s ls t → (traffic t).Echoed)
    {ls : List ℓ} (hrun : Runs step s ls u) : (traffic u).Answered := by
  induction hrun with
  | nil => exact hs
  | snoc hprev hab ih =>
    have hl := (hstep _ _ _ hab).exact_of_echoed ih (hall _ _ (hprev.snoc hab))
    exact (hstep _ _ _ hab).answered hl ih

theorem exact_of_all_echoed
    (hstep : ∀ a l b, step a l b → Moves (exact l) (traffic a) (traffic b))
    (hs : (traffic s).Answered) (hall : ∀ ls t, Runs step s ls t → (traffic t).Echoed)
    {ls : List ℓ} {l : ℓ} (hrun : Runs step s ls u) (hlast : step u l v) : exact l :=
  (hstep _ _ _ hlast).exact_of_echoed (answered_of_all_echoed hstep hs hall hrun)
    (hall _ _ (hrun.snoc hlast))

end Always

end Steps

end OsCourse.Relay
