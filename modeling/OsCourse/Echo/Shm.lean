import Mathlib
import OsCourse.Echo.Model

/-! The names of the channels, and the shared memory objects under them. -/
namespace OsCourse.Echo
open Function MemChan

section Names

theorem respName_inj {p q : Int32} (h : respName p = respName q) : p = q := by
  have hrepr := (String.append_right_inj echoClientPrefix).mp h
  exact Int32.toInt_inj.mp (Int.repr_injective hrepr)

theorem respName_ne_service (p : Int32) : respName p ≠ echoServiceName := by
  intro h
  have hlist := congrArg (fun t : String => t.toList.head?) h
  unfold respName at hlist
  rw [String.toList_append, List.head?_append] at hlist
  have hc : echoClientPrefix.toList.head? = some 'c' := by decide
  have he : echoServiceName.toList.head? = some 'e' := by decide
  rw [hc, he] at hlist
  cases hlist

end Names

section Objects
variable {m : Shm} {seg seg' cap : Nat} {name name' : String} {pid : Int32} {c : Chan EchoMsg}

structure Shm.Ok (m : Shm) : Prop where
  lt : ∀ name seg, m.names name = some seg → seg < m.segCount
  inj : ∀ name name' seg, m.names name = some seg → m.names name' = some seg → name = name'

def Shm.queue (m : Shm) (name : String) : List EchoMsg :=
  match m.names name with
  | some seg => (m.segs seg).queue
  | none => []

theorem Shm.queue_some (h : m.names name = some seg) : m.queue name = (m.segs seg).queue := by
  unfold Shm.queue
  rw [h]

theorem Shm.queue_none (h : m.names name = none) : m.queue name = [] := by
  unfold Shm.queue
  rw [h]

theorem Shm.empty_ok : Shm.empty.Ok := by
  constructor
  · intro name seg h
    cases h
  · intro name name' seg h
    cases h

theorem Shm.segFor_free (h : m.names name = none) : m.segFor name = m.segCount := by
  unfold Shm.segFor
  rw [h, Option.getD_none]

theorem Shm.mcCreate_names_self :
    (m.mcCreate name pid cap).names name = some (m.segFor name) := update_self _ _ _

theorem Shm.mcCreate_names_ne (h : name' ≠ name) :
    (m.mcCreate name pid cap).names name' = m.names name' := by
  dsimp only [Shm.mcCreate]
  rw [update_of_ne h]

theorem Shm.mcCreate_segs_self :
    (m.mcCreate name pid cap).segs (m.segFor name) = ⟨pid, cap, []⟩ := update_self _ _ _

theorem Shm.mcCreate_segs_lt (hfree : m.names name = none) (h : seg < m.segCount) :
    (m.mcCreate name pid cap).segs seg = m.segs seg := by
  dsimp only [Shm.mcCreate]
  rw [Shm.segFor_free hfree, update_of_ne h.ne]

theorem Shm.Ok.mcCreate (h : m.Ok) (hfree : m.names name = none) :
    (m.mcCreate name pid cap).Ok := by
  have hfor := Shm.segFor_free hfree
  have hcount : (m.mcCreate name pid cap).segCount = m.segCount + 1 := by
    dsimp only [Shm.mcCreate]
    rw [hfor]
    omega
  constructor
  · intro name' seg hn
    rw [hcount]
    by_cases he : name' = name
    · rw [he, Shm.mcCreate_names_self, hfor] at hn
      cases hn
      omega
    · rw [Shm.mcCreate_names_ne he] at hn
      exact Nat.lt_succ_of_lt (h.lt _ _ hn)
  · intro n1 n2 seg h1 h2
    by_cases he1 : n1 = name
    · by_cases he2 : n2 = name
      · rw [he1, he2]
      · rw [he1, Shm.mcCreate_names_self, hfor] at h1
        rw [Shm.mcCreate_names_ne he2] at h2
        cases h1
        exact absurd (h.lt _ _ h2) (Nat.lt_irrefl _)
    · rw [Shm.mcCreate_names_ne he1] at h1
      by_cases he2 : n2 = name
      · rw [he2, Shm.mcCreate_names_self, hfor] at h2
        cases h2
        exact absurd (h.lt _ _ h1) (Nat.lt_irrefl _)
      · rw [Shm.mcCreate_names_ne he2] at h2
        exact h.inj _ _ _ h1 h2

theorem Shm.Ok.store (h : m.Ok) : (m.store seg c).Ok := ⟨h.lt, h.inj⟩

theorem Shm.mcDestroy_names_ne (h : name' ≠ name) :
    (m.mcDestroy seg name pid).names name' = m.names name' := by
  unfold Shm.mcDestroy
  split
  · exact update_of_ne h _ _
  · rfl

theorem Shm.mcDestroy_names_owner (h : pid = (m.segs seg).owner) :
    (m.mcDestroy seg name pid).names name = none := by
  unfold Shm.mcDestroy
  rw [if_pos h]
  exact update_self _ _ _

theorem Shm.mcDestroy_other (h : pid ≠ (m.segs seg).owner) : m.mcDestroy seg name pid = m := by
  unfold Shm.mcDestroy
  rw [if_neg h]

theorem Shm.mcDestroy_segs : (m.mcDestroy seg name pid).segs = m.segs := by
  unfold Shm.mcDestroy
  split <;> rfl

theorem Shm.mcDestroy_segCount : (m.mcDestroy seg name pid).segCount = m.segCount := by
  unfold Shm.mcDestroy
  split <;> rfl

theorem Shm.mcDestroy_names_some (h : (m.mcDestroy seg name pid).names name' = some seg') :
    m.names name' = some seg' := by
  by_cases ho : pid = (m.segs seg).owner
  · by_cases hn : name' = name
    · rw [hn, Shm.mcDestroy_names_owner ho] at h
      cases h
    · rwa [Shm.mcDestroy_names_ne hn] at h
  · rwa [Shm.mcDestroy_other ho] at h

theorem Shm.Ok.mcDestroy (h : m.Ok) : (m.mcDestroy seg name pid).Ok := by
  constructor
  · intro name' seg' hn
    rw [Shm.mcDestroy_segCount]
    exact h.lt _ _ (Shm.mcDestroy_names_some hn)
  · intro n1 n2 seg' h1 h2
    exact h.inj _ _ _ (Shm.mcDestroy_names_some h1) (Shm.mcDestroy_names_some h2)

theorem Shm.queue_mcCreate_self : (m.mcCreate name pid cap).queue name = [] := by
  rw [Shm.queue_some Shm.mcCreate_names_self, Shm.mcCreate_segs_self]

theorem Shm.queue_mcCreate_ne (h : m.Ok) (hfree : m.names name = none) (hne : name' ≠ name) :
    (m.mcCreate name pid cap).queue name' = m.queue name' := by
  have hnames : (m.mcCreate name pid cap).names name' = m.names name' :=
    Shm.mcCreate_names_ne hne
  cases hn : m.names name' with
  | none =>
    rw [Shm.queue_none hn, Shm.queue_none (hnames.trans hn)]
  | some seg =>
    rw [Shm.queue_some hn, Shm.queue_some (hnames.trans hn),
      Shm.mcCreate_segs_lt hfree (h.lt _ _ hn)]

theorem Shm.queue_store_self (hn : m.names name = some seg) :
    (m.store seg c).queue name = c.queue := by
  rw [Shm.queue_some (show (m.store seg c).names name = some seg from hn)]
  dsimp only [Shm.store]
  rw [update_self]

theorem Shm.queue_store_ne (h : m.Ok) (hn : m.names name = some seg) (hne : name' ≠ name) :
    (m.store seg c).queue name' = m.queue name' := by
  cases hn' : m.names name' with
  | none =>
    rw [Shm.queue_none hn', Shm.queue_none (show (m.store seg c).names name' = none from hn')]
  | some seg' =>
    rw [Shm.queue_some hn', Shm.queue_some (show (m.store seg c).names name' = some seg' from hn')]
    dsimp only [Shm.store]
    rw [update_of_ne]
    intro he
    exact hne (h.inj _ _ _ (he ▸ hn') hn)

theorem Shm.queue_mcDestroy_ne (hne : name' ≠ name) :
    (m.mcDestroy seg name pid).queue name' = m.queue name' := by
  unfold Shm.queue
  rw [Shm.mcDestroy_names_ne hne, Shm.mcDestroy_segs]

end Objects

end OsCourse.Echo
