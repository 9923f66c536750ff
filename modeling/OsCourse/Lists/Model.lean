import OsCourse.Lib.Linked

/-! The intrusive lists of include/list.h, on a heap of list entries. A list is known by the
address of its head, which is an entry itself. -/
namespace OsCourse.Lists
open Function Linked
variable {α : Type*} [DecidableEq α]

def setNext (h : Heap α) (entry next : α) : Heap α :=
  update h entry { h entry with next := next }

def setPrev (h : Heap α) (entry prev : α) : Heap α :=
  update h entry { h entry with prev := prev }

def initListHead (h : Heap α) (listhead : α) : Heap α :=
  setNext (setPrev h listhead listhead) listhead listhead

def isListEmpty (h : Heap α) (listhead : α) : Bool := (h listhead).next = listhead

def removeListEntry (h : Heap α) (entry : α) : Heap α × Bool :=
  let next := (h entry).next
  let prev := (h entry).prev
  let h := setNext h prev next
  let h := setPrev h next prev
  (h, next = prev)

def removeListFirst (h : Heap α) (listhead : α) : Heap α × α :=
  let entry := (h listhead).next
  ((removeListEntry h entry).1, entry)

def removeListLast (h : Heap α) (listhead : α) : Heap α × α :=
  let entry := (h listhead).prev
  ((removeListEntry h entry).1, entry)

def insertListAfter (h : Heap α) (refEntry newEntry : α) : Heap α :=
  let prev := refEntry
  let next := (h refEntry).next
  let h := setPrev h newEntry prev
  let h := setNext h newEntry next
  let h := setNext h prev newEntry
  setPrev h next newEntry

def insertListLast (h : Heap α) (listhead entry : α) : Heap α :=
  insertListAfter h (h listhead).prev entry

def insertListFirst (h : Heap α) (listhead entry : α) : Heap α :=
  insertListAfter h listhead entry

section Writes
variable {h : Heap α} {a b x : α}

@[simp] theorem setNext_prev : (setNext h a b x).prev = (h x).prev := by
  unfold setNext
  by_cases hx : x = a
  · rw [hx, update_self]
  · rw [update_of_ne hx]

@[simp] theorem setPrev_next : (setPrev h a b x).next = (h x).next := by
  unfold setPrev
  by_cases hx : x = a
  · rw [hx, update_self]
  · rw [update_of_ne hx]

@[simp] theorem setNext_next_self : (setNext h a b a).next = b := by
  rw [setNext, update_self]

@[simp] theorem setPrev_prev_self : (setPrev h a b a).prev = b := by
  rw [setPrev, update_self]

theorem setNext_of_ne (hx : x ≠ a) : setNext h a b x = h x := by
  rw [setNext, update_of_ne hx]

theorem setPrev_of_ne (hx : x ≠ a) : setPrev h a b x = h x := by
  rw [setPrev, update_of_ne hx]

theorem setNext_same (hb : (h a).next = b) : setNext h a b = h := by
  rw [setNext, ← hb]
  exact update_eq_self a h

theorem setPrev_same (hb : (h a).prev = b) : setPrev h a b = h := by
  rw [setPrev, ← hb]
  exact update_eq_self a h

end Writes

section Specs
variable {h : Heap α} {s e x : α} {es : List α}

theorem insertListAfter_ring (hr : Ring h s es) (he : e ∉ s :: es) :
    Ring (insertListAfter h s e) s (e :: es) := by
  have hes : e ≠ s := fun heq => he (heq ▸ List.mem_cons_self)
  have hen : e ≠ (h s).next := fun heq => he (heq ▸ hr.next_mem)
  apply hr.insert he
  · constructor
    · simp [insertListAfter]
    · simp [insertListAfter, setPrev_of_ne hen]
  · constructor
    · simp [insertListAfter, setNext_of_ne hes]
    · simp [insertListAfter]
  · intro x hxs hxe
    simp [insertListAfter, setNext_of_ne hxs, setNext_of_ne hxe]
  · intro x hxe hxn
    simp [insertListAfter, setPrev_of_ne hxe, setPrev_of_ne hxn]

theorem insertListAfter_of_ne (hs : x ≠ s) (he : x ≠ e) (hn : x ≠ (h s).next) :
    insertListAfter h s e x = h x := by
  simp [insertListAfter, setPrev_of_ne hn, setNext_of_ne hs, setNext_of_ne he, setPrev_of_ne he]

theorem removeListEntry_ring (hr : Ring h e (s :: es)) :
    Ring (removeListEntry h e).1 s es := by
  apply hr.remove
  · constructor
    · simp [removeListEntry]
    · simp [removeListEntry]
  · intro x hx
    simp [removeListEntry, setNext_of_ne hx]
  · intro x hx
    simp [removeListEntry, setPrev_of_ne hx]

theorem removeListEntry_of_ne (hp : x ≠ (h e).prev) (hn : x ≠ (h e).next) :
    (removeListEntry h e).1 x = h x := by
  simp [removeListEntry, setPrev_of_ne hn, setNext_of_ne hp]

/-- The two neighbours are one node only when it is all that is left of the ring. -/
theorem removeListEntry_flag (hr : Ring h e (s :: es)) :
    (removeListEntry h e).2 = es.isEmpty := by
  have hnodup := (List.nodup_cons.mp hr.nodup).2
  have hnext := hr.next_eq
  have hprev := hr.prev_eq
  dsimp only [removeListEntry]
  rw [hnext, hprev, List.headD_cons, List.getLastD_cons]
  rcases List.eq_nil_or_concat es with rfl | ⟨xs, x, rfl⟩
  · simp
  · rw [List.concat_eq_append] at hnodup ⊢
    have hsx : s ≠ x := by
      rintro rfl
      exact (List.nodup_cons.mp hnodup).1 (List.mem_append_right xs (List.mem_singleton_self s))
    simp [hsx]

theorem removeListEntry_alone (hr : Ring h s []) : (removeListEntry h s).1 = h := by
  have hnext : (h s).next = s := hr.next_eq
  have hprev : (h s).prev = s := hr.prev_eq
  dsimp only [removeListEntry]
  rw [hnext, hprev, setNext_same hnext, setPrev_same hprev]

theorem removeListFirst_eq (hr : Ring h s (e :: es)) :
    removeListFirst h s = ((removeListEntry h e).1, e) := by
  have hfirst : (h s).next = e := hr.next_eq
  rw [removeListFirst, hfirst]

theorem removeListLast_eq (hr : Ring h s (es ++ [e])) :
    removeListLast h s = ((removeListEntry h e).1, e) := by
  have hlast : (h s).prev = e := by
    rw [hr.prev_eq, List.getLastD_concat]
  rw [removeListLast, hlast]

theorem initListHead_ring : Ring (initListHead h s) s [] := by
  apply Ring.singleton
  constructor <;> simp [initListHead]

theorem initListHead_of_ne (hx : x ≠ s) : initListHead h s x = h x := by
  rw [initListHead, setNext_of_ne hx, setPrev_of_ne hx]

end Specs

end OsCourse.Lists
