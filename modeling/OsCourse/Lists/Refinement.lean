import OsCourse.Lib.Transition
import OsCourse.Lists.Model

/-! The calls of include/list.h as operations on sequences: on a heap of any number of rings,
each call acts on the entries of one ring and leaves the nodes of the others as they are. -/
namespace OsCourse.Lists
open Function Linked Transition

inductive Call (α : Type*) where
  | initListHead (listhead : α)
  | isListEmpty (listhead : α)
  | removeListEntry (entry : α)
  | removeListFirst (listhead : α)
  | removeListLast (listhead : α)
  | insertListAfter (refEntry newEntry : α)
  | insertListLast (listhead entry : α)
  | insertListFirst (listhead entry : α)

inductive Value (α : Type*) where
  | unit
  | flag (b : Bool)
  | entry (e : α)

variable {α : Type*}

def Call.run [DecidableEq α] (h : Heap α) : Call α → Heap α × Value α
  | .initListHead s => (Lists.initListHead h s, .unit)
  | .isListEmpty s => (h, .flag (Lists.isListEmpty h s))
  | .removeListEntry e => ((Lists.removeListEntry h e).1, .flag (Lists.removeListEntry h e).2)
  | .removeListFirst s => ((Lists.removeListFirst h s).1, .entry (Lists.removeListFirst h s).2)
  | .removeListLast s => ((Lists.removeListLast h s).1, .entry (Lists.removeListLast h s).2)
  | .insertListAfter r e => (Lists.insertListAfter h r e, .unit)
  | .insertListLast s e => (Lists.insertListLast h s e, .unit)
  | .insertListFirst s e => (Lists.insertListFirst h s e, .unit)

/-- `Effect lists call s es v`: on these lists the call leaves the entries `es` to the list of
`s`, and gives the value `v`. -/
inductive Effect (lists : α → Option (List α)) : Call α → α → List α → Value α → Prop
  | initNew {s : α} : Outside lists s → Effect lists (.initListHead s) s [] .unit
  | initAgain {s : α} {es : List α} : lists s = some es →
      Effect lists (.initListHead s) s [] .unit
  | isEmpty {s : α} {es : List α} : lists s = some es →
      Effect lists (.isListEmpty s) s es (.flag es.isEmpty)
  | removeEntry {s e : α} {xs ys : List α} : lists s = some (xs ++ e :: ys) →
      Effect lists (.removeListEntry e) s (xs ++ ys) (.flag (xs ++ ys).isEmpty)
  | removeFirst {s e : α} {es : List α} : lists s = some (e :: es) →
      Effect lists (.removeListFirst s) s es (.entry e)
  | firstOfNone {s : α} : lists s = some [] → Effect lists (.removeListFirst s) s [] (.entry s)
  | removeLast {s e : α} {es : List α} : lists s = some (es ++ [e]) →
      Effect lists (.removeListLast s) s es (.entry e)
  | lastOfNone {s : α} : lists s = some [] → Effect lists (.removeListLast s) s [] (.entry s)
  | insertAfterHead {s e : α} {es : List α} : lists s = some es → Outside lists e →
      Effect lists (.insertListAfter s e) s (e :: es) .unit
  | insertAfter {s r e : α} {xs ys : List α} : lists s = some (xs ++ r :: ys) →
      Outside lists e → Effect lists (.insertListAfter r e) s (xs ++ r :: e :: ys) .unit
  | insertLast {s e : α} {es : List α} : lists s = some es → Outside lists e →
      Effect lists (.insertListLast s e) s (es ++ [e]) .unit
  | insertFirst {s e : α} {es : List α} : lists s = some es → Outside lists e →
      Effect lists (.insertListFirst s e) s (e :: es) .unit

section Acts
variable {h h' : Heap α} {lists : α → Option (List α)} {s r e : α}
  {es fs xs ys : List α}

/-- The list of `s` has come to hold `es`, and nothing of the other lists is written. -/
structure Acts (h h' : Heap α) (lists : α → Option (List α)) (s : α) (es : List α) : Prop where
  ring : Ring h' s es
  nodes : ∀ x ∈ s :: es, Apart lists s x
  frame : ∀ x, ¬Apart lists s x → h' x = h x

theorem mem_rotate {x : α} : x ∈ r :: (ys ++ s :: xs) ↔ x ∈ s :: (xs ++ r :: ys) := by
  simp only [List.mem_cons, List.mem_append]
  tauto

theorem unchanged_acts (hr : Rings h lists) (hs : lists s = some es) : Acts h h lists s es where
  ring := hr.ring s es hs
  nodes := fun _ hx => hr.apart hs hx
  frame := fun _ _ => rfl

theorem Acts.others (ha : Acts h h' lists s es) {t x : α} (ht : lists t = some fs) (hts : t ≠ s)
    (hx : x ∈ t :: fs) : h' x = h x :=
  ha.frame x fun hapart => hts (hapart t fs ht hx)

variable [DecidableEq α]

theorem insert_acts (hr : Rings h lists) (hs : lists s = some es) (he : Outside lists e)
    (hring : Ring h r fs) (hfs : ∀ x ∈ r :: fs, x ∈ s :: es)
    (hafter : Ring (insertListAfter h r e) r (e :: fs) → Ring (insertListAfter h r e) s ys)
    (hys : ∀ x ∈ ys, x = e ∨ x ∈ es) : Acts h (insertListAfter h r e) lists s ys where
  ring := hafter (insertListAfter_ring hring fun hmem => he s es hs (hfs e hmem))
  nodes := by
    intro x hx
    rcases List.mem_cons.mp hx with rfl | hx
    · exact hr.apart hs List.mem_cons_self
    · rcases hys x hx with rfl | hmem
      · exact he.apart
      · exact hr.apart hs (List.mem_cons_of_mem s hmem)
  frame := by
    intro x hx
    apply insertListAfter_of_ne
    · rintro rfl
      exact hx (hr.apart hs (hfs x List.mem_cons_self))
    · rintro rfl
      exact hx he.apart
    · rintro rfl
      exact hx (hr.apart hs (hfs _ hring.next_mem))

theorem insertAfterHead_acts (hr : Rings h lists) (hs : lists s = some es)
    (he : Outside lists e) : Acts h (insertListAfter h s e) lists s (e :: es) :=
  insert_acts hr hs he (hr.ring s es hs) (fun _ hx => hx) id fun _ hx => List.mem_cons.mp hx

theorem insertAfter_acts (hr : Rings h lists) (hs : lists s = some (xs ++ r :: ys))
    (he : Outside lists e) :
    Acts h (insertListAfter h r e) lists s (xs ++ r :: e :: ys) := by
  apply insert_acts hr hs he (hr.ring s _ hs).rotate
  · exact fun x hx => mem_rotate.mp hx
  · intro hring
    rw [← List.cons_append] at hring
    exact hring.rotate
  · intro x hx
    simp only [List.mem_append, List.mem_cons] at hx ⊢
    tauto

/-- The last entry, or the head of an empty list, is where a new last entry goes. -/
theorem insertLast_acts (hr : Rings h lists) (hs : lists s = some es) (he : Outside lists e) :
    Acts h (insertListLast h s e) lists s (es ++ [e]) := by
  unfold insertListLast
  rw [(hr.ring s es hs).prev_eq]
  rcases List.eq_nil_or_concat es with rfl | ⟨xs, x, rfl⟩
  · exact insertAfterHead_acts hr hs he
  · rw [List.concat_eq_append] at hs ⊢
    rw [List.getLastD_concat, List.append_assoc]
    exact insertAfter_acts hr hs he

theorem remove_ring (hring : Ring h s (xs ++ e :: ys)) :
    Ring (removeListEntry h e).1 s (xs ++ ys) ∧
      (removeListEntry h e).2 = (xs ++ ys).isEmpty := by
  have hrotated := hring.rotate
  cases ys with
  | nil =>
    rw [List.append_nil]
    exact ⟨removeListEntry_ring hrotated, removeListEntry_flag hrotated⟩
  | cons y ys =>
    have hclosed := removeListEntry_ring hrotated
    have hleft : (ys ++ s :: xs).isEmpty = false := by cases ys <;> rfl
    have hright : (xs ++ y :: ys).isEmpty = false := by cases xs <;> rfl
    exact ⟨hclosed.rotate, (removeListEntry_flag hrotated).trans (hleft.trans hright.symm)⟩

theorem remove_acts (hr : Rings h lists) (hs : lists s = some (xs ++ e :: ys)) :
    Acts h (removeListEntry h e).1 lists s (xs ++ ys) where
  ring := (remove_ring (hr.ring s _ hs)).1
  nodes := by
    intro x hx
    apply hr.apart hs
    simp only [List.mem_append, List.mem_cons] at hx ⊢
    tauto
  frame := by
    intro x hx
    have hrotated := (hr.ring s _ hs).rotate
    apply removeListEntry_of_ne
    · rintro rfl
      exact hx (hr.apart hs (mem_rotate.mp hrotated.prev_mem))
    · rintro rfl
      exact hx (hr.apart hs (mem_rotate.mp hrotated.next_mem))

theorem removeFirst_acts (hr : Rings h lists) (hs : lists s = some (e :: es)) :
    Acts h (removeListFirst h s).1 lists s es ∧ (removeListFirst h s).2 = e := by
  have hsplit : lists s = some ([] ++ e :: es) := hs
  rw [removeListFirst_eq (hr.ring s _ hs)]
  exact ⟨remove_acts hr hsplit, rfl⟩

theorem removeLast_acts (hr : Rings h lists) (hs : lists s = some (es ++ [e])) :
    Acts h (removeListLast h s).1 lists s es ∧ (removeListLast h s).2 = e := by
  have hacts := remove_acts hr hs
  rw [List.append_nil] at hacts
  rw [removeListLast_eq (hr.ring s _ hs)]
  exact ⟨hacts, rfl⟩

theorem removeFirst_none (hring : Ring h s []) : removeListFirst h s = (h, s) := by
  have hnext : (h s).next = s := hring.next_eq
  dsimp only [removeListFirst]
  rw [hnext, removeListEntry_alone hring]

theorem removeLast_none (hring : Ring h s []) : removeListLast h s = (h, s) := by
  have hprev : (h s).prev = s := hring.prev_eq
  dsimp only [removeListLast]
  rw [hprev, removeListEntry_alone hring]

theorem init_acts (hs : Apart lists s s) : Acts h (initListHead h s) lists s [] where
  ring := initListHead_ring
  nodes := by
    intro x hx
    rw [List.mem_singleton.mp hx]
    exact hs
  frame := by
    intro x hx
    apply initListHead_of_ne
    rintro rfl
    exact hx hs

theorem isListEmpty_eq (hring : Ring h s es) : isListEmpty h s = es.isEmpty := by
  cases es with
  | nil => exact decide_eq_true (hring.next_eq_self.mpr rfl)
  | cons x xs =>
    apply decide_eq_false
    intro hself
    cases hring.next_eq_self.mp hself

theorem Effect.acts {call : Call α} {v : Value α} (he : Effect lists call s es v)
    (hr : Rings h lists) : Acts h (call.run h).1 lists s es ∧ (call.run h).2 = v := by
  cases he with
  | initNew ho => exact ⟨init_acts ho.apart, rfl⟩
  | initAgain hs => exact ⟨init_acts (hr.apart hs List.mem_cons_self), rfl⟩
  | isEmpty hs => exact ⟨unchanged_acts hr hs, congrArg _ (isListEmpty_eq (hr.ring s es hs))⟩
  | removeEntry hs => exact ⟨remove_acts hr hs, congrArg _ (remove_ring (hr.ring s _ hs)).2⟩
  | removeFirst hs =>
    obtain ⟨hacts, hfirst⟩ := removeFirst_acts hr hs
    exact ⟨hacts, congrArg _ hfirst⟩
  | firstOfNone hs =>
    dsimp only [Call.run]
    rw [removeFirst_none (hr.ring s [] hs)]
    exact ⟨unchanged_acts hr hs, rfl⟩
  | removeLast hs =>
    obtain ⟨hacts, hlast⟩ := removeLast_acts hr hs
    exact ⟨hacts, congrArg _ hlast⟩
  | lastOfNone hs =>
    dsimp only [Call.run]
    rw [removeLast_none (hr.ring s [] hs)]
    exact ⟨unchanged_acts hr hs, rfl⟩
  | insertAfterHead hs ho | insertFirst hs ho => exact ⟨insertAfterHead_acts hr hs ho, rfl⟩
  | insertAfter hs ho => exact ⟨insertAfter_acts hr hs ho, rfl⟩
  | insertLast hs ho => exact ⟨insertLast_acts hr hs ho, rfl⟩

theorem Acts.rings (ha : Acts h h' lists s es) (hr : Rings h lists) :
    Rings h' (update lists s (some es)) :=
  hr.replace ha.ring ha.nodes ha.frame

/-- Each call is the operation on the entries, every ring stays well formed, and the nodes of
the others stay as they were. -/
theorem calls_refine (hr : Rings h lists) :
    (∀ call s es v, Effect lists call s es v →
      Rings (call.run h).1 (update lists s (some es)) ∧ (call.run h).2 = v ∧
        ∀ t fs, lists t = some fs → t ≠ s → ∀ x ∈ t :: fs, (call.run h).1 x = h x) ∧
    ∀ s, lists s = some [] → removeListFirst h s = (h, s) ∧ removeListLast h s = (h, s) := by
  constructor
  · intro call s es v heffect
    obtain ⟨hacts, hvalue⟩ := heffect.acts hr
    exact ⟨hacts.rings hr, hvalue, fun t fs ht hts x hx => hacts.others ht hts hx⟩
  · intro s hs
    have hring := hr.ring s [] hs
    exact ⟨removeFirst_none hring, removeLast_none hring⟩

def pairHeap : Heap Nat :=
  insertListLast (initListHead (initListHead (fun x => ⟨x, x⟩) 0) 10) 0 1

def emptyLists : Nat → Option (List Nat) :=
  update (update (fun _ => none) 0 (some [])) 10 (some [])

def pairLists : Nat → Option (List Nat) := update emptyLists 0 (some [1])

theorem pair_rings : Rings pairHeap pairLists := by
  have hempty (x : Nat) : Outside (fun _ => none) x := fun _ _ hs => by cases hs
  have hfirst := (init_acts (h := fun x => ⟨x, x⟩) (hempty 0).apart).rings Rings.none
  have hsecond := (init_acts ((hempty 10).update (s := 0) (by decide)).apart).rings hfirst
  have hhead : emptyLists 0 = some [] := rfl
  have hnew : Outside emptyLists 1 := ((hempty 1).update (by decide)).update (by decide)
  exact (insertLast_acts hsecond hhead hnew).rings hsecond

/-- The only entry of the first list is removed, and there is none to remove from the second. -/
theorem calls_refine_pair :
    ((Call.removeListEntry 1).run pairHeap).2 = .flag true ∧
      removeListFirst pairHeap 10 = (pairHeap, 10) := by
  obtain ⟨hcalls, hempty⟩ := calls_refine pair_rings
  have hremove : Effect pairLists (.removeListEntry 1) 0 ([] ++ []) (.flag true) :=
    Effect.removeEntry rfl
  exact ⟨(hcalls _ _ _ _ hremove).2.1, (hempty 10 rfl).1⟩

structure State (α : Type*) where
  heap : Heap α
  lists : α → Option (List α)

inductive Step : State α → Call α → State α → Prop
  | call {a : State α} {c : Call α} {s : α} {es : List α} {v : Value α} :
      Effect a.lists c s es v → Step a c ⟨(c.run a.heap).1, update a.lists s (some es)⟩

theorem runs_rings {calls : List (Call α)} {a : State α}
    (hrun : Runs Step ⟨h, fun _ => none⟩ calls a) : Rings a.heap a.lists := by
  apply hrun.invariant Rings.none
  rintro a c b ha ⟨heffect⟩
  exact (heffect.acts ha).1.rings ha

end Acts

end OsCourse.Lists
