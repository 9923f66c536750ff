import OsCourse.MemChan.Channel

/-! The channel seen by the items that its processes put and get, each of them written to
`elem_size` bytes. -/
namespace OsCourse.MemChan
open Ints RingBuffer
variable {α : Type*}

structure Chan (α : Type*) where
  owner : Int32
  capacity : Nat
  queue : List α
  deriving DecidableEq

/-- `mc_put`: none while it has to wait. -/
def Chan.put (c : Chan α) (x : α) : Option (Chan α) :=
  if c.queue.length = c.capacity then none else some { c with queue := c.queue ++ [x] }

/-- `mc_get`: none while it has to wait. -/
def Chan.get (c : Chan α) : Option (α × Chan α) :=
  match c.queue with
  | [] => none
  | x :: q => some (x, { c with queue := q })

theorem Chan.put_eq_some {c c' : Chan α} {x : α} :
    c.put x = some c' ↔
      c.queue.length ≠ c.capacity ∧ { c with queue := c.queue ++ [x] } = c' := by
  unfold Chan.put
  split <;> simp_all

theorem Chan.get_eq_some {c c' : Chan α} {x : α} :
    c.get = some (x, c') ↔ c.queue = x :: c'.queue ∧ { c with queue := c'.queue } = c' := by
  unfold Chan.get
  constructor
  · intro h
    split at h
    · cases h
    · rename_i y q hq
      cases h
      exact ⟨hq, rfl⟩
  · rintro ⟨hq, hc⟩
    rw [hq]
    exact congrArg (fun d => some (x, d)) hc

theorem Chan.put_fields {c c' : Chan α} {x : α} (h : c.put x = some c') :
    c'.owner = c.owner ∧ c'.capacity = c.capacity := by
  obtain ⟨_, rfl⟩ := Chan.put_eq_some.mp h
  exact ⟨rfl, rfl⟩

theorem Chan.get_fields {c c' : Chan α} {x : α} (h : c.get = some (x, c')) :
    c'.owner = c.owner ∧ c'.capacity = c.capacity := by
  obtain ⟨_, hc⟩ := Chan.get_eq_some.mp h
  rw [← hc]
  exact ⟨rfl, rfl⟩

section Stores
variable {cap es : Nat} {rb rb' : MemChannel} {c : Chan α} {bytes : α → Nat → UInt8} {x : α}

structure Stores (es : Nat) (bytes : α → Nat → UInt8) (rb : MemChannel) (c : Chan α) :
    Prop where
  owner : rb.owner = c.owner
  ring : ∃ r, Represents c.capacity es rb r ∧
    r.contents = c.queue.map fun x => itemBytes (bytes x) es

theorem mcPut_owner {item : Nat → UInt8} (h : mcPut rb item = some rb') :
    rb'.owner = rb.owner := by
  unfold mcPut at h
  split at h <;> cases h
  rfl

theorem mcGet_owner {item : List UInt8} (h : mcGet rb = some (item, rb')) :
    rb'.owner = rb.owner := by
  unfold mcGet at h
  split at h <;> cases h
  rfl

theorem size_of_contents {r : Buffer (List UInt8)}
    (h : r.contents = c.queue.map fun x => itemBytes (bytes x) es) :
    r.size = c.queue.length := by
  have hlen := congrArg List.length h
  rwa [List.length_map, r.length_contents] at hlen

theorem Stores.put (h : Stores es bytes rb c) (he : 1 ≤ es)
    (hfits : es * c.capacity < 2 ^ 31) (x : α) :
    Option.Rel (Stores es bytes) (mcPut rb (bytes x)) (c.put x) := by
  obtain ⟨r, hr, hcontents⟩ := h.ring
  have hlen := size_of_contents hcontents
  have hcap := cap_lt he hfits
  have hle := r.size_le
  rw [hr.cap_eq] at hle
  cases hput : mcPut rb (bytes x) with
  | none =>
    have hfull := (hr.put_none_iff he hfits _).mp hput
    rw [r.length_contents] at hfull
    unfold Chan.put
    rw [if_pos (hlen ▸ hfull)]
    exact Option.Rel.none
  | some rb' =>
    obtain ⟨hlt, hr'⟩ := hr.put he hfits hput
    rw [hr.cap_eq] at hlt
    unfold Chan.put
    rw [if_neg (by omega)]
    refine Option.Rel.some ⟨?_, _, hr', ?_⟩
    · rw [mcPut_owner hput, h.owner]
    · rw [RingBuffer.Buffer.contents_put, hcontents, List.map_append, List.map_singleton]

theorem Stores.get (h : Stores es bytes rb c) (he : 1 ≤ es)
    (hfits : es * c.capacity < 2 ^ 31) :
    Option.Rel (fun a b => a.1 = itemBytes (bytes b.1) es ∧ Stores es bytes a.2 b.2)
      (mcGet rb) c.get := by
  obtain ⟨r, hr, hcontents⟩ := h.ring
  cases hget : mcGet rb with
  | none =>
    have hnil : c.queue = [] := by
      have hempty := (hr.get_none_iff he hfits).mp hget
      rw [hcontents] at hempty
      exact List.map_eq_nil_iff.mp hempty
    unfold Chan.get
    rw [hnil]
    exact Option.Rel.none
  | some pair =>
    obtain ⟨item, rb'⟩ := pair
    obtain ⟨hlt, hr', hitem⟩ := hr.get he hfits hget
    have htake := r.contents_get hlt
    rw [hcontents] at htake
    cases hq : c.queue with
    | nil =>
      rw [hq] at htake
      cases htake
    | cons y q =>
      rw [hq, List.map_cons, List.cons.injEq] at htake
      unfold Chan.get
      rw [hq]
      refine Option.Rel.some ⟨hitem.trans htake.1.symm, ?_, _, hr', htake.2.symm⟩
      rw [mcGet_owner hget, h.owner]

end Stores

end OsCourse.MemChan
