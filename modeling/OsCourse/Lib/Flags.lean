import Mathlib.Data.Finset.Basic
import Mathlib.Data.List.Basic

/-! Parties that go through lists of acts, some of which wait for a flag and some of which raise
one; a flag that is up stays up. Which flags come up and who comes to its end does not depend on
the order in which the parties go on. -/
namespace OsCourse.Flags
variable {T A E : Type*}

inductive Kind (E : Type*) where
  | other
  | await (e : E)
  | raise (e : E)

/-- The flags that come up: some party raises them after acts that wait for none but such. -/
inductive Raised (kind : A → Kind E) (parties : Finset T) (script : T → List A) : E → Prop
  | raise {t : T} {before after : List A} {a : A} {e : E} : t ∈ parties →
      script t = before ++ a :: after → kind a = .raise e →
      (∀ b ∈ before, ∀ e', kind b = .await e' → Raised kind parties script e') →
      Raised kind parties script e

/-- A party comes to its end when all flags come up that it waits for. -/
def Completes (kind : A → Kind E) (parties : Finset T) (script : T → List A) (t : T) : Prop :=
  ∀ a ∈ script t, ∀ e, kind a = .await e → Raised kind parties script e

def Passed (kind : A → Kind E) (up : E → Prop) (a : A) : Prop :=
  match kind a with
  | .other => True
  | .await e | .raise e => up e

/-- The flags `up` are raised, and the parties have `left` to do. -/
structure Sound (kind : A → Kind E) (parties : Finset T) (script : T → List A) (up : E → Prop)
    (left : T → List A) : Prop where
  passed : ∀ t ∈ parties, ∃ done, script t = done ++ left t ∧ ∀ a ∈ done, Passed kind up a
  raised : ∀ e, up e → Raised kind parties script e

/-- Every party has come to its end or waits for a flag that is not up. -/
def Settled (kind : A → Kind E) (parties : Finset T) (up : E → Prop) (left : T → List A) : Prop :=
  ∀ t ∈ parties, left t = [] ∨ ∃ a rest e, left t = a :: rest ∧ kind a = .await e ∧ ¬ up e

variable {kind : A → Kind E} {parties : Finset T} {script left left' : T → List A}
  {up up' : E → Prop} {t : T} {e : E}

theorem Passed.await {a : A} (h : Passed kind up a) (ha : kind a = .await e) : up e := by
  unfold Passed at h
  rw [ha] at h
  exact h

theorem Passed.raise {a : A} (h : Passed kind up a) (ha : kind a = .raise e) : up e := by
  unfold Passed at h
  rw [ha] at h
  exact h

theorem Passed.mono {a : A} (h : Passed kind up a) (hup : ∀ e, up e → up' e) :
    Passed kind up' a := by
  unfold Passed at h ⊢
  cases ha : kind a with
  | other => trivial
  | await e | raise e =>
    rw [ha] at h
    exact hup e h

theorem Sound.init : Sound kind parties script (fun _ => False) script :=
  ⟨fun _ _ => ⟨[], rfl, nofun⟩, fun _ => False.elim⟩

theorem Sound.advance (h : Sound kind parties script up left) (hup : ∀ e, up e → up' e)
    (hleft : ∀ t ∈ parties, ∃ more, left t = more ++ left' t ∧ ∀ a ∈ more, Passed kind up' a)
    (hnew : ∀ e, up' e → up e ∨
      ∃ t ∈ parties, ∃ a rest, left t = a :: rest ∧ kind a = .raise e) :
    Sound kind parties script up' left' := by
  constructor
  · intro t ht
    obtain ⟨done, hscript, hdone⟩ := h.passed t ht
    obtain ⟨more, hmore, hpassed⟩ := hleft t ht
    refine ⟨done ++ more, by rw [hscript, hmore, List.append_assoc], ?_⟩
    intro a ha
    obtain hold | hadded := List.mem_append.mp ha
    · exact (hdone a hold).mono hup
    · exact hpassed a hadded
  · intro e he
    obtain hold | ⟨t, ht, a, rest, hnext, ha⟩ := hnew e he
    · exact h.raised e hold
    · obtain ⟨done, hscript, hdone⟩ := h.passed t ht
      rw [hnext] at hscript
      exact Raised.raise ht hscript ha fun b hb e' hb' => h.raised e' ((hdone b hb).await hb')

/-- When all have settled, the flags that come up at all are up. -/
theorem Sound.up_of_raised (h : Sound kind parties script up left)
    (hsettled : Settled kind parties up left) (he : Raised kind parties script e) : up e := by
  induction he with
  | @raise t before after a e ht hscript ha _ ih =>
    obtain ⟨done, hdone, hpassed⟩ := h.passed t ht
    rw [hscript] at hdone
    obtain ⟨more, hbefore, hleft⟩ | ⟨more, hdone', hafter⟩ := List.append_eq_append_iff.mp hdone
    · -- the act is behind, as the party waits for no flag that comes before it
      rw [hbefore] at hpassed
      cases more with
      | nil =>
        obtain hend | ⟨b, rest, e', hnext, hb, hnot⟩ := hsettled t ht
        · rw [hend] at hleft
          cases hleft
        · rw [hnext] at hleft
          obtain ⟨rfl, _⟩ := List.cons_eq_cons.mp hleft
          rw [ha] at hb
          cases hb
      | cons b more =>
        obtain ⟨rfl, _⟩ := List.cons_eq_cons.mp hleft
        exact (hpassed a (by simp)).raise ha
    · cases more with
      | nil =>
        obtain hend | ⟨b, rest, e', hnext, hb, hnot⟩ := hsettled t ht
        · rw [hend] at hafter
          cases hafter
        · rw [hnext] at hafter
          obtain ⟨rfl, _⟩ := List.cons_eq_cons.mp hafter
          rw [ha] at hb
          cases hb
      | cons b more =>
        obtain hend | ⟨c, rest, e', hnext, hc, hnot⟩ := hsettled t ht
        · rw [hend] at hafter
          cases hafter
        · rw [hnext] at hafter
          obtain ⟨rfl, _⟩ := List.cons_eq_cons.mp hafter
          exact absurd (ih c (by rw [hdone']; simp) e' hc) hnot

theorem Sound.up_iff (h : Sound kind parties script up left)
    (hsettled : Settled kind parties up left) (e : E) : up e ↔ Raised kind parties script e :=
  ⟨h.raised e, h.up_of_raised hsettled⟩

theorem Sound.left_eq_nil_iff (h : Sound kind parties script up left)
    (hsettled : Settled kind parties up left) (ht : t ∈ parties) :
    left t = [] ↔ Completes kind parties script t := by
  obtain ⟨done, hscript, hpassed⟩ := h.passed t ht
  constructor
  · intro hend a ha e hawait
    rw [hscript, hend, List.append_nil] at ha
    exact h.raised e ((hpassed a ha).await hawait)
  · intro hcompletes
    obtain hend | ⟨a, rest, e, hnext, ha, hnot⟩ := hsettled t ht
    · exact hend
    · have hmem : a ∈ script t := by
        rw [hscript, hnext]
        exact List.mem_append_right _ List.mem_cons_self
      exact absurd (h.up_of_raised hsettled (hcompletes a hmem e ha)) hnot

end OsCourse.Flags
