import OsCourse.Intrusive.Model
import OsCourse.Lists.Refinement

/-! The calls of list.h on the lists of the library: what each does to the ready queue and to the
lists of waiters. -/
namespace OsCourse.Intrusive
open Function Linked OsCourse.Lists
open UThread (Handle Sync Thread)

/-- The entries of each list: those of the ready threads, and the wait blocks of each
synchronizer. -/
def entries (q : List Handle) (bs : Sync → List Nat) : Addr → Option (List Addr)
  | .readyQueue => some (q.map .entry)
  | .waiters o => some ((bs o).map .block)
  | .entry _ | .block _ => none

variable {h : Heap Addr} {q : List Handle} {bs : Sync → List Nat} {t : Handle} {b : Nat}
  {o : Sync} {m : Mem}

theorem entries_ready (q' : List Handle) :
    update (entries q bs) .readyQueue (some (q'.map .entry)) = entries q' bs := by
  funext a
  cases a with
  | readyQueue => rw [update_self]; rfl
  | waiters | entry | block => rw [update_of_ne (by simp)]; rfl

theorem entries_waiters (l : List Nat) :
    update (entries q bs) (.waiters o) (some (l.map .block)) = entries q (update bs o l) := by
  funext a
  cases a with
  | waiters o' =>
    by_cases ho : o' = o
    · rw [ho, update_self, entries, update_self]
    · rw [update_of_ne (by simpa using ho), entries, entries, update_of_ne ho]
  | readyQueue | entry | block => rw [update_of_ne (by simp)]; rfl

theorem outside_entry (ht : t ∉ q) : Outside (entries q bs) (.entry t) := by
  intro a es ha
  cases a with
  | readyQueue => cases ha; simpa using ht
  | waiters o => cases ha; simp
  | entry | block => cases ha

theorem outside_block (hb : ∀ o, b ∉ bs o) : Outside (entries q bs) (.block b) := by
  intro a es ha
  cases a with
  | readyQueue => cases ha; simp
  | waiters o => cases ha; simpa using hb o
  | entry | block => cases ha

theorem ready_empty (hr : Rings h (entries q bs)) :
    isListEmpty h .readyQueue = q.isEmpty := by
  rw [isListEmpty_eq (hr.ring .readyQueue _ rfl)]
  cases q <;> rfl

theorem waiters_empty (hr : Rings h (entries q bs)) :
    isListEmpty h (.waiters o) = (bs o).isEmpty := by
  rw [isListEmpty_eq (hr.ring (.waiters o) _ rfl)]
  cases bs o <;> rfl

theorem activate_rings (hr : Rings m.links (entries q bs)) (ht : t ∉ q) :
    Rings (utActivate t m).links (entries (q ++ [t]) bs) := by
  have hacts := insertLast_acts hr (s := .readyQueue) rfl (outside_entry ht)
  have hrings := hacts.rings hr
  rw [← entries_ready (q := q), List.map_append]
  exact hrings

theorem enqueue_rings (hr : Rings h (entries q bs)) (hb : ∀ o, b ∉ bs o) (o : Sync) :
    Rings (insertListLast h (.waiters o) (.block b))
      (entries q (update bs o (bs o ++ [b]))) := by
  have hacts := insertLast_acts hr (s := .waiters o) rfl (outside_block hb)
  have hrings := hacts.rings hr
  rw [← entries_waiters, List.map_append]
  exact hrings

theorem dequeue_rings (hr : Rings h (entries q bs)) {rest : List Nat} (ho : bs o = b :: rest) :
    (removeListFirst h (.waiters o)).2 = .block b ∧
      Rings (removeListFirst h (.waiters o)).1 (entries q (update bs o rest)) := by
  have hs : entries q bs (.waiters o) = some (.block b :: rest.map .block) := by
    rw [entries, ho, List.map_cons]
  obtain ⟨hacts, hfirst⟩ := removeFirst_acts hr hs
  refine ⟨hfirst, ?_⟩
  rw [← entries_waiters]
  exact hacts.rings hr

theorem extract_ready (hr : Rings m.links (entries (t :: q) bs)) :
    (extractNextThread m).1 = some (.user t) ∧
      ∃ h, (extractNextThread m).2 = { m with links := h } ∧ Rings h (entries q bs) := by
  have hs : entries (t :: q) bs .readyQueue = some (.entry t :: q.map .entry) := rfl
  obtain ⟨hacts, hfirst⟩ := removeFirst_acts hr hs
  have hempty : isListEmpty m.links .readyQueue = false := ready_empty hr
  have hcond : extractNextThread m =
      (containerThread (removeListFirst m.links .readyQueue).2,
        { m with links := (removeListFirst m.links .readyQueue).1 }) := by
    rw [extractNextThread, hempty]
    rfl
  rw [hcond, hfirst]
  refine ⟨rfl, _, rfl, ?_⟩
  rw [← entries_ready (q := t :: q)]
  exact hacts.rings hr

theorem extract_none (hr : Rings m.links (entries [] bs)) :
    extractNextThread m = (m.mainThread, m) := by
  have hempty : isListEmpty m.links .readyQueue = true := ready_empty hr
  rw [extractNextThread, hempty]
  rfl

theorem init_rings (h : Heap Addr) : Rings (initLinks h) (entries [] fun _ => []) where
  ring := by
    intro a es ha
    have hself : Adjacent (initLinks h) a a ∧ es = [] := by
      cases a with
      | readyQueue =>
        cases ha
        refine ⟨?_, rfl⟩
        constructor <;> simp [initLinks, initListHead]
      | waiters o =>
        cases ha
        refine ⟨?_, rfl⟩
        constructor <;> simp [initLinks, initListHead]
      | entry | block => cases ha
    rw [hself.2]
    exact Ring.singleton hself.1
  disjoint := by
    intro a es a' fs x ha ha' hx hx'
    have hnil : ∀ a es, entries [] (fun _ => []) a = some es → es = [] := by
      intro a es ha
      cases a <;> cases ha <;> rfl
    rw [hnil a es ha, List.mem_singleton] at hx
    rw [hnil a' fs ha', List.mem_singleton] at hx'
    rw [← hx, ← hx']

end OsCourse.Intrusive
