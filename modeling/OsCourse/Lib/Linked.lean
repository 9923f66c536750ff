import Mathlib.Data.List.Nodup
import Mathlib.Logic.Function.Basic
import OsCourse.Lib.Transition

/-! Doubly linked rings on a heap of nodes. A ring is a segment that ends where it begins, so
that any of its nodes can stand for the first one. -/
namespace OsCourse.Linked
open Function
variable {α : Type*}

structure Node (α : Type*) where
  next : α
  prev : α
  deriving DecidableEq

abbrev Heap (α : Type*) := α → Node α

def Adjacent (h : Heap α) (a b : α) : Prop := (h a).next = b ∧ (h b).prev = a

/-- From `a` the links lead through `xs` to `b`, and from there back again. -/
def Arc (h : Heap α) : α → List α → α → Prop
  | a, [], b => Adjacent h a b
  | a, x :: xs, b => Adjacent h a x ∧ Arc h x xs b

/-- The ring of the sentinel `s` and the entries `es`. -/
structure Ring (h : Heap α) (s : α) (es : List α) : Prop where
  nodup : (s :: es).Nodup
  arc : Arc h s es s

section Segments
variable {h h' : Heap α} {a b c s e : α} {xs ys es : List α}

theorem arc_append : Arc h a (xs ++ b :: ys) c ↔ Arc h a xs b ∧ Arc h b ys c := by
  induction xs generalizing a with
  | nil => exact Iff.rfl
  | cons x xs ih =>
    rw [List.cons_append, Arc, Arc, ih]
    exact and_assoc.symm

/-- A segment rests on the `next` of all its nodes but the last, and on the `prev` of all but
the first. -/
theorem Arc.congr (ha : Arc h a xs b) (hn : ∀ x ∈ a :: xs, (h' x).next = (h x).next)
    (hp : ∀ x ∈ xs ++ [b], (h' x).prev = (h x).prev) : Arc h' a xs b := by
  induction xs generalizing a with
  | nil =>
    have hnext := hn a (List.mem_singleton_self a)
    have hprev := hp b (List.mem_singleton_self b)
    exact ⟨hnext.trans ha.1, hprev.trans ha.2⟩
  | cons x xs ih =>
    have hnext := hn a List.mem_cons_self
    have hprev := hp x List.mem_cons_self
    refine ⟨⟨hnext.trans ha.1.1, hprev.trans ha.1.2⟩, ih ha.2 ?_ ?_⟩
    · exact fun y hy => hn y (List.mem_cons_of_mem a hy)
    · exact fun y hy => hp y (List.mem_cons_of_mem x hy)

theorem Ring.congr (hr : Ring h s es) (heq : ∀ x ∈ s :: es, h' x = h x) : Ring h' s es where
  nodup := hr.nodup
  arc := by
    apply hr.arc.congr
    · intro x hx
      rw [heq x hx]
    · intro x hx
      have hmem : x ∈ s :: es := by
        rcases List.mem_append.mp hx with hx | hx
        · exact List.mem_cons_of_mem s hx
        · rw [List.mem_singleton.mp hx]
          exact List.mem_cons_self
      rw [heq x hmem]

theorem Ring.rotate (hr : Ring h s (xs ++ a :: ys)) : Ring h a (ys ++ s :: xs) where
  nodup := by
    have hn : (s :: xs ++ a :: ys).Nodup := hr.nodup
    exact List.nodup_append_comm.mp hn
  arc := arc_append.mpr (arc_append.mp hr.arc).symm

theorem Ring.next_eq (hr : Ring h s es) : (h s).next = es.headD s := by
  cases es with
  | nil => exact hr.arc.1
  | cons x xs => exact hr.arc.1.1

theorem Ring.prev_eq (hr : Ring h s es) : (h s).prev = es.getLastD s := by
  rcases List.eq_nil_or_concat es with rfl | ⟨xs, x, rfl⟩
  · exact hr.arc.2
  · rw [List.concat_eq_append] at hr ⊢
    rw [(arc_append.mp hr.arc).2.2, List.getLastD_concat]

theorem Ring.next_eq_self (hr : Ring h s es) : (h s).next = s ↔ es = [] := by
  rw [hr.next_eq]
  cases es with
  | nil => exact ⟨fun _ => rfl, fun _ => rfl⟩
  | cons x xs =>
    have hne : x ≠ s := by
      rintro rfl
      exact (List.nodup_cons.mp hr.nodup).1 List.mem_cons_self
    exact ⟨fun hx => absurd hx hne, fun hnil => by cases hnil⟩

theorem Ring.next_mem (hr : Ring h s es) : (h s).next ∈ s :: es := by
  rw [hr.next_eq]
  cases es with
  | nil => exact List.mem_cons_self
  | cons x xs => exact List.mem_cons_of_mem s List.mem_cons_self

theorem Ring.prev_mem (hr : Ring h s es) : (h s).prev ∈ s :: es := by
  rw [hr.prev_eq]
  rcases List.eq_nil_or_concat es with rfl | ⟨xs, x, rfl⟩
  · exact List.mem_cons_self
  · rw [List.concat_eq_append, List.getLastD_concat]
    exact List.mem_cons_of_mem s (List.mem_append_right xs (List.mem_singleton_self x))

theorem Ring.singleton (ha : Adjacent h s s) : Ring h s [] := ⟨List.nodup_singleton s, ha⟩

theorem Ring.insert (hr : Ring h s es) (he : e ∉ s :: es) (hse : Adjacent h' s e)
    (hen : Adjacent h' e (h s).next)
    (hn : ∀ x, x ≠ s → x ≠ e → (h' x).next = (h x).next)
    (hp : ∀ x, x ≠ e → x ≠ (h s).next → (h' x).prev = (h x).prev) : Ring h' s (e :: es) where
  nodup := (List.Perm.swap s e es).nodup (List.nodup_cons.mpr ⟨he, hr.nodup⟩)
  arc := by
    refine ⟨hse, ?_⟩
    rw [hr.next_eq] at hen hp
    cases es with
    | nil => exact hen
    | cons x xs =>
      obtain ⟨hs, hx, -⟩ : s ∉ x :: xs ∧ x ∉ xs ∧ xs.Nodup := by
        rw [← List.nodup_cons, ← List.nodup_cons]
        exact hr.nodup
      refine ⟨hen, hr.arc.2.congr ?_ ?_⟩
      · intro y hy
        apply hn y
        · exact fun hys => hs (hys ▸ hy)
        · exact fun hye => he (List.mem_cons_of_mem s (hye ▸ hy))
      · intro y hy
        have hys : y ∈ s :: x :: xs := by
          rcases List.mem_append.mp hy with hy | hy
          · exact List.mem_cons_of_mem s (List.mem_cons_of_mem x hy)
          · rw [List.mem_singleton.mp hy]
            exact List.mem_cons_self
        apply hp y
        · exact fun hye => he (hye ▸ hys)
        · rintro rfl
          rcases List.mem_append.mp hy with hy | hy
          · exact hx hy
          · exact hs (List.mem_singleton.mp hy ▸ List.mem_cons_self)

/-- A node is passed over by the two nodes next to it, one of which takes its place as the
sentinel. -/
theorem Ring.remove (hr : Ring h e (s :: es)) (ha : Adjacent h' (h e).prev (h e).next)
    (hn : ∀ x, x ≠ (h e).prev → (h' x).next = (h x).next)
    (hp : ∀ x, x ≠ (h e).next → (h' x).prev = (h x).prev) : Ring h' s es where
  nodup := (List.nodup_cons.mp hr.nodup).2
  arc := by
    have hnodup := (List.nodup_cons.mp hr.nodup).2
    rw [hr.prev_eq] at ha hn
    rw [hr.next_eq] at ha hp
    rcases List.eq_nil_or_concat es with rfl | ⟨xs, x, rfl⟩
    · exact ha
    · rw [List.concat_eq_append] at hr ha hn hnodup ⊢
      rw [List.getLastD_cons, List.getLastD_concat] at ha hn
      -- all but the last of the links are as they were
      have hold : Arc h s xs x := (arc_append.mp hr.arc.2).1
      refine arc_append.mpr ⟨hold.congr ?_ ?_, ha⟩
      · intro y hy
        apply hn y
        rintro rfl
        have hsplit : (s :: xs ++ [y]).Nodup := hnodup
        have hdisjoint := (List.nodup_append.mp hsplit).2.2
        exact hdisjoint y hy y (List.mem_singleton_self y) rfl
      · intro y hy
        apply hp y
        rintro rfl
        exact (List.nodup_cons.mp hnodup).1 hy

end Segments

/-- The rings of a heap: the entries of each sentinel, and no node in two rings. -/
structure Rings (h : Heap α) (lists : α → Option (List α)) : Prop where
  ring : ∀ s es, lists s = some es → Ring h s es
  disjoint : ∀ s es t fs x, lists s = some es → lists t = some fs → x ∈ s :: es → x ∈ t :: fs →
    s = t

def Outside (lists : α → Option (List α)) (x : α) : Prop :=
  ∀ s es, lists s = some es → x ∉ s :: es

/-- In none of the rings but that of `s`, if in any. -/
def Apart (lists : α → Option (List α)) (s x : α) : Prop :=
  ∀ t fs, lists t = some fs → x ∈ t :: fs → t = s

section Collections
variable {h h' : Heap α} {lists : α → Option (List α)} {s t x : α} {es fs : List α}

theorem Outside.apart (ho : Outside lists x) : Apart lists s x :=
  fun t fs ht hx => absurd hx (ho t fs ht)

theorem Rings.none : Rings h fun _ => none where
  ring := fun _ _ hs => by cases hs
  disjoint := fun _ _ _ _ _ hs => by cases hs

theorem Rings.apart (hr : Rings h lists) (hs : lists s = some es) (hx : x ∈ s :: es) :
    Apart lists s x :=
  fun t fs ht hxt => hr.disjoint t fs s es x ht hs hxt hx

variable [DecidableEq α]

theorem lists_update (ht : update lists s (some es) t = some fs) :
    (t = s ∧ es = fs) ∨ (t ≠ s ∧ lists t = some fs) := by
  obtain ⟨hts, hes⟩ | hother := Transition.update_cases ht
  · exact Or.inl ⟨hts, Option.some.inj hes⟩
  · exact Or.inr hother

theorem Outside.update (ho : Outside lists x) (hx : x ∉ s :: es) :
    Outside (update lists s (some es)) x := by
  intro t fs ht
  obtain ⟨rfl, rfl⟩ | ⟨-, hold⟩ := lists_update ht
  · exact hx
  · exact ho t fs hold

/-- One ring changes, or is new, and nothing of the others is written. -/
theorem Rings.replace (hr : Rings h lists) (hs : Ring h' s es)
    (hnodes : ∀ x ∈ s :: es, Apart lists s x)
    (hframe : ∀ x, ¬Apart lists s x → h' x = h x) :
    Rings h' (update lists s (some es)) where
  ring := by
    intro t fs ht
    obtain ⟨rfl, rfl⟩ | ⟨hts, hold⟩ := lists_update ht
    · exact hs
    · apply (hr.ring t fs hold).congr
      intro x hx
      exact hframe x fun ha => hts (ha t fs hold hx)
  disjoint := by
    intro t fs u gs x ht hu hxt hxu
    obtain ⟨rfl, rfl⟩ | ⟨hts, htold⟩ := lists_update ht
    · obtain ⟨rfl, -⟩ | ⟨hus, huold⟩ := lists_update hu
      · rfl
      · exact absurd (hnodes x hxt u gs huold hxu) hus
    · obtain ⟨rfl, rfl⟩ | ⟨-, huold⟩ := lists_update hu
      · exact absurd (hnodes x hxu t fs htold hxt) hts
      · exact hr.disjoint t fs u gs x htold huold hxt hxu

end Collections

end OsCourse.Linked
