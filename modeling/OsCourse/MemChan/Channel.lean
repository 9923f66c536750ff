import OsCourse.Lib.Ints
import OsCourse.Lib.Ring
import OsCourse.MemChan.Model

/-! The channel is a ring of slots of `elem_size` bytes, and so a bounded FIFO of byte
strings. -/
namespace OsCourse.MemChan
open Function Ints Transition Wakeup RingBuffer
variable {cap es : Nat} {rb rb' : MemChannel} {r : Buffer (List UInt8)}

theorem mcPut_none (rb : MemChannel) (item : Nat → UInt8) :
    mcPut rb item = none ↔ rb.size = rb.capacity := by
  unfold mcPut
  split <;> simp [*]

theorem mcGet_none (rb : MemChannel) : mcGet rb = none ↔ rb.size = 0 := by
  unfold mcGet
  split <;> simp [*]

section Bytes

theorem copyOut_inside (mem : Int → UInt8) (dst : Int) (item : Nat → UInt8) (n : Nat) :
    copyOut (copyIn mem dst item n) dst n = itemBytes item n := by
  apply List.map_congr_left
  intro k hk
  have hlt := List.mem_range.mp hk
  unfold copyIn
  rw [if_pos (by omega)]
  congr 1
  omega

theorem copyOut_apart (mem : Int → UInt8) {dst src : Int} (item : Nat → UInt8) {n : Nat}
    (h : src + n ≤ dst ∨ dst + n ≤ src) :
    copyOut (copyIn mem dst item n) src n = copyOut mem src n := by
  apply List.map_congr_left
  intro k hk
  have hlt := List.mem_range.mp hk
  unfold copyIn
  rw [if_neg (by omega)]

theorem slots_apart {i j : Nat} (h : i ≠ j) :
    ((i * es : Nat) : Int) + es ≤ (j * es : Nat) ∨
      ((j * es : Nat) : Int) + es ≤ (i * es : Nat) := by
  have hmul (a b : Nat) (hab : a < b) : a * es + es ≤ b * es := by
    have := Nat.mul_le_mul_right es hab
    rwa [Nat.succ_mul] at this
  cases Nat.lt_or_gt_of_ne h with
  | inl hlt =>
    have := hmul i j hlt
    omega
  | inr hgt =>
    have := hmul j i hgt
    omega

end Bytes

section Represents

/-- The channel stores the ring `r` of `cap` slots of `es` bytes. -/
structure Represents (cap es : Nat) (rb : MemChannel) (r : Buffer (List UInt8)) : Prop where
  cap_eq : r.cap = cap
  capacity : rb.capacity = Int32.ofNat cap
  elemSize : rb.elemSize = Int32.ofNat es
  iput : rb.iput = Int32.ofNat r.iput
  iget : rb.iget = Int32.ofNat r.iget
  size : rb.size = Int32.ofNat r.size
  slot : ∀ k, r.slot k = copyOut rb.buf (k * es : Nat) es

theorem ofNat_next {i : Nat} (hi : i < cap) (hc : cap < 2 ^ 31) :
    (if Int32.ofNat i + 1 = Int32.ofNat cap then 0 else Int32.ofNat i + 1) =
      Int32.ofNat (next cap i) := by
  have hsucc : Int32.ofNat i + 1 = Int32.ofNat (i + 1) := (Int32.ofNat_add i 1).symm
  unfold next
  rw [hsucc]
  by_cases h : i + 1 = cap
  · rw [if_pos h, if_pos (congrArg Int32.ofNat h)]
    rfl
  · rw [if_neg h, if_neg fun he => h ((ofNat_inj (by omega) hc).mp he)]

theorem ofNat_offset {i : Nat} (hi : i < cap) (hfits : es * cap < 2 ^ 31) :
    (Int32.ofNat i * Int32.ofNat es).toInt = (i * es : Nat) := by
  have hle : i * es ≤ es * cap := by
    rw [Nat.mul_comm es cap]
    exact Nat.mul_le_mul_right es hi.le
  rw [← Int32.ofNat_mul, Int32.toInt_ofNat_of_lt (by omega)]

theorem cap_lt (he : 1 ≤ es) (hfits : es * cap < 2 ^ 31) : cap < 2 ^ 31 :=
  Nat.lt_of_le_of_lt (Nat.le_mul_of_pos_left cap he) hfits

theorem es_lt (hc : 1 ≤ cap) (hfits : es * cap < 2 ^ 31) : es < 2 ^ 31 :=
  Nat.lt_of_le_of_lt (Nat.le_mul_of_pos_right es hc) hfits

theorem Represents.put (h : Represents cap es rb r) (he : 1 ≤ es) (hfits : es * cap < 2 ^ 31)
    {item : Nat → UInt8} (hput : mcPut rb item = some rb') :
    ∃ hlt : r.size < r.cap, Represents cap es rb' (r.put (itemBytes item es) hlt) := by
  have hcap := cap_lt he hfits
  have hsize := r.size_le
  have hiput := r.iput_lt
  rw [h.cap_eq] at hsize hiput
  have hes : rb.elemSize.toInt.toNat = es := by
    rw [h.elemSize, Int32.toInt_ofNat_of_lt (es_lt (by omega) hfits)]
    exact Int.toNat_natCast es
  unfold mcPut at hput
  split at hput
  · cases hput
  · rename_i hnot
    have hne : r.size ≠ cap := fun heq => hnot (by rw [h.size, h.capacity, heq])
    cases hput
    refine ⟨by rw [h.cap_eq]; omega, h.cap_eq, h.capacity, h.elemSize, ?_, h.iget, ?_, ?_⟩
    · dsimp only [Buffer.put]
      rw [h.iput, h.capacity, h.cap_eq]
      exact ofNat_next hiput hcap
    · dsimp only [Buffer.put]
      rw [h.size]
      exact (Int32.ofNat_add r.size 1).symm
    · intro k
      dsimp only [Buffer.put]
      rw [hes, h.iput, h.elemSize, ofNat_offset hiput hfits]
      by_cases hk : k = r.iput
      · rw [hk, update_self, copyOut_inside]
      · rw [update_of_ne hk, h.slot k, copyOut_apart _ _ (slots_apart hk)]

theorem Represents.get (h : Represents cap es rb r) (he : 1 ≤ es) (hfits : es * cap < 2 ^ 31)
    {item : List UInt8} (hget : mcGet rb = some (item, rb')) :
    ∃ hlt : 0 < r.size, Represents cap es rb' (r.get hlt) ∧ item = r.slot r.iget := by
  have hcap := cap_lt he hfits
  have higet := r.iget_lt
  rw [h.cap_eq] at higet
  have hes : rb.elemSize.toInt.toNat = es := by
    rw [h.elemSize, Int32.toInt_ofNat_of_lt (es_lt (by omega) hfits)]
    exact Int.toNat_natCast es
  unfold mcGet at hget
  split at hget
  · cases hget
  · rename_i hnot
    have hne : r.size ≠ 0 := fun heq => hnot (by rw [h.size, heq]; rfl)
    cases hget
    refine ⟨by omega, ⟨h.cap_eq, h.capacity, h.elemSize, h.iput, ?_, ?_, h.slot⟩, ?_⟩
    · dsimp only [Buffer.get]
      rw [h.iget, h.capacity, h.cap_eq]
      exact ofNat_next higet hcap
    · dsimp only [Buffer.get]
      obtain ⟨n, hn⟩ := Nat.exists_eq_succ_of_ne_zero hne
      rw [h.size, hn, Nat.succ_sub_one, Nat.succ_eq_add_one, Int32.ofNat_add]
      exact Int32.add_sub_cancel _ _
    · rw [hes, h.iget, h.elemSize, ofNat_offset higet hfits, h.slot]

theorem create_represents {shmemCreate : String → UInt64 → Option (Int → UInt8)} {pid : Int32}
    {name : String} (hcap : 1 ≤ cap)
    (h : mcCreate shmemCreate pid (Int32.ofNat es) (Int32.ofNat cap) name = some rb) :
    ∃ r, Represents cap es rb r ∧ r.contents = [] := by
  obtain ⟨buf, _, rfl⟩ := Option.map_eq_some_iff.mp h
  exact ⟨Buffer.empty cap (fun k => copyOut buf (k * es : Nat) es) hcap,
    ⟨rfl, rfl, rfl, rfl, rfl, rfl, fun _ => rfl⟩, rfl⟩

/-- What the channel holds: `size` slots of `elem_size` bytes from `iget` on, around the end. -/
def contents (rb : MemChannel) : List (List UInt8) :=
  (List.range rb.size.toInt.toNat).map fun k : Nat =>
    copyOut rb.buf ((rb.iget.toInt + k) % rb.capacity.toInt * rb.elemSize.toInt)
      rb.elemSize.toInt.toNat

theorem Represents.fields (h : Represents cap es rb r) (he : 1 ≤ es)
    (hfits : es * cap < 2 ^ 31) :
    rb.capacity.toInt = cap ∧ rb.elemSize.toInt = es ∧ rb.iput.toInt = r.iput ∧
      rb.iget.toInt = r.iget ∧ rb.size.toInt = r.size := by
  have hcap := cap_lt he hfits
  have hsize := r.size_le
  have hiput := r.iput_lt
  have higet := r.iget_lt
  rw [h.cap_eq] at hsize hiput higet
  have hes : es < 2 ^ 31 := es_lt (by omega) hfits
  rw [h.capacity, h.elemSize, h.iput, h.iget, h.size]
  exact ⟨Int32.toInt_ofNat_of_lt hcap, Int32.toInt_ofNat_of_lt hes,
    Int32.toInt_ofNat_of_lt (by omega), Int32.toInt_ofNat_of_lt (by omega),
    Int32.toInt_ofNat_of_lt (by omega)⟩

theorem Represents.contents_eq (h : Represents cap es rb r) (he : 1 ≤ es)
    (hfits : es * cap < 2 ^ 31) : contents rb = r.contents := by
  obtain ⟨hc, hes, _, higet, hsize⟩ := h.fields he hfits
  unfold contents Buffer.contents
  rw [hc, hes, higet, hsize, Int.toNat_natCast, Int.toNat_natCast]
  apply List.map_congr_left
  intro k _
  rw [h.slot, h.cap_eq]
  congr 1

theorem Represents.in_range (h : Represents cap es rb r) (he : 1 ≤ es) (hfits : es * cap < 2 ^ 31) :
    (0 ≤ rb.iput.toInt ∧ rb.iput.toInt < cap) ∧ 0 ≤ rb.iget.toInt ∧ rb.iget.toInt < cap := by
  obtain ⟨_, _, hiput, higet, _⟩ := h.fields he hfits
  have h1 := r.iput_lt
  have h2 := r.iget_lt
  rw [h.cap_eq] at h1 h2
  omega

theorem Represents.put_none_iff (h : Represents cap es rb r) (he : 1 ≤ es)
    (hfits : es * cap < 2 ^ 31) (item : Nat → UInt8) :
    mcPut rb item = none ↔ r.contents.length = cap := by
  have hcap := cap_lt he hfits
  have hsize := r.size_le
  rw [h.cap_eq] at hsize
  rw [mcPut_none, h.size, h.capacity, ofNat_inj (by omega) hcap, r.length_contents]

theorem Represents.get_none_iff (h : Represents cap es rb r) (he : 1 ≤ es)
    (hfits : es * cap < 2 ^ 31) : mcGet rb = none ↔ r.contents = [] := by
  have hcap := cap_lt he hfits
  have hsize := r.size_le
  rw [h.cap_eq] at hsize
  have hzero : (0 : Int32) = Int32.ofNat 0 := rfl
  rw [mcGet_none, h.size, hzero, ofNat_inj (by omega) (by omega), ← List.length_eq_zero_iff,
    r.length_contents]

end Represents

section Runs
variable {P : Type*} [DecidableEq P] {s s' : State P} {l : Label P}

theorem Step.channel (h : Step s l s') (he : 1 ≤ es) (hfits : es * cap < 2 ^ 31)
    (hr : Represents cap es s.chan r) :
    ∃ r', Represents cap es s'.chan r' ∧
      ((s'.ops = s.ops ∧ r' = r) ∨
        ∃ op, s'.ops = s.ops ++ [op] ∧ BoundedFifo.Step cap r.contents op r'.contents) := by
  cases h with
  | @put p item rb' _ hput =>
    obtain ⟨hlt, hr'⟩ := hr.put he hfits hput
    have hes : s.chan.elemSize.toInt.toNat = es := by
      rw [(hr.fields he hfits).2.1]
      exact Int.toNat_natCast es
    refine ⟨_, hr', Or.inr ⟨_, rfl, ?_⟩⟩
    rw [hes]
    exact hr.cap_eq ▸ r.put_step _ hlt
  | @get p item rb' _ hget =>
    obtain ⟨hlt, hr', hitem⟩ := hr.get he hfits hget
    refine ⟨_, hr', Or.inr ⟨_, rfl, ?_⟩⟩
    rw [hitem]
    exact hr.cap_eq ▸ r.get_step hlt
  | callPut | waitSpace | spuriousPut | signalItems | callGet | waitItems | spuriousGet
  | signalSpace => exact ⟨r, hr, Or.inl ⟨rfl, rfl⟩⟩

theorem channel_of_runs (he : 1 ≤ es) (hcap : 1 ≤ cap) (hfits : es * cap < 2 ^ 31)
    {shmemCreate : String → UInt64 → Option (Int → UInt8)} {pid : Int32} {name : String}
    (hcreate : mcCreate shmemCreate pid (Int32.ofNat es) (Int32.ofNat cap) name = some rb)
    {ls : List (Label P)} (hrun : Runs Step (init rb) ls s) :
    ∃ r, Represents cap es s.chan r ∧ Runs (BoundedFifo.Step cap) [] s.ops r.contents := by
  apply hrun.invariant (P := fun a : State P => ∃ r, Represents cap es a.chan r ∧
    Runs (BoundedFifo.Step cap) [] a.ops r.contents)
  · obtain ⟨r, hr, hempty⟩ := create_represents hcap hcreate
    refine ⟨r, hr, ?_⟩
    rw [hempty]
    exact Runs.nil []
  · rintro a l b ⟨r, hr, hops⟩ hstep
    obtain ⟨r', hr', ⟨hsame, rfl⟩ | ⟨op, hop, hfifo⟩⟩ := hstep.channel he hfits hr
    · exact ⟨r', hr', hsame ▸ hops⟩
    · refine ⟨r', hr', ?_⟩
      rw [hop]
      exact hops.snoc hfifo

/-- In every run on a channel whose buffer fits in an `int`, the indices stay in range, and
the byte strings put and delivered are a run of the bounded FIFO, which holds what the
channel holds; `mc_put` waits exactly when it is full, and `mc_get` exactly when it is empty. -/
theorem refines_fifo (he : 1 ≤ es) (hcap : 1 ≤ cap) (hfits : es * cap < 2 ^ 31)
    (shmemCreate : String → UInt64 → Option (Int → UInt8)) (pid : Int32) (name : String)
    (rb : MemChannel)
    (hcreate : mcCreate shmemCreate pid (Int32.ofNat es) (Int32.ofNat cap) name = some rb)
    (ls : List (Label P)) (s : State P) (hrun : Runs Step (init rb) ls s) :
    (0 ≤ s.chan.size.toInt ∧ s.chan.size.toInt ≤ cap) ∧
      (0 ≤ s.chan.iput.toInt ∧ s.chan.iput.toInt < cap) ∧
      (0 ≤ s.chan.iget.toInt ∧ s.chan.iget.toInt < cap) ∧
      s.chan.iput.toInt = (s.chan.iget.toInt + s.chan.size.toInt) % cap ∧
      s.chan.capacity.toInt = cap ∧ s.chan.elemSize.toInt = es ∧
      Runs (BoundedFifo.Step cap) [] s.ops (contents s.chan) ∧
      BoundedFifo.puts s.ops = BoundedFifo.gets s.ops ++ contents s.chan ∧
      (∀ item, mcPut s.chan item = none ↔ (contents s.chan).length = cap) ∧
      (mcGet s.chan = none ↔ contents s.chan = []) := by
  obtain ⟨r, hr, hops⟩ := channel_of_runs he hcap hfits hcreate hrun
  obtain ⟨hc, hes, hiput, higet, hsize⟩ := hr.fields he hfits
  obtain ⟨hput, hget⟩ := hr.in_range he hfits
  rw [hr.contents_eq he hfits]
  have h1 := r.size_le
  have h4 := r.iput_eq
  rw [hr.cap_eq] at h1 h4
  refine ⟨by omega, hput, hget, ?_, hc, hes, hops, BoundedFifo.delivered hops,
    hr.put_none_iff he hfits, hr.get_none_iff he hfits⟩
  rw [hiput, higet, hsize, h4]
  push_cast
  rfl

end Runs

/-- One process puts two bytes, and another gets them. -/
theorem refines_fifo_one : ∃ (ls : List (Label Bool)) (s : State Bool),
    Runs Step (init ⟨0, 0, 2, 2, 0, 1, fun _ => 0⟩) ls s ∧ s.ops = [.put [7, 9], .get [7, 9]] ∧
      Runs (BoundedFifo.Step 2) [] s.ops (contents s.chan) ∧ contents s.chan = [] ∧
      mcGet s.chan = none := by
  have hcreate : mcCreate (fun _ _ => some fun _ => 0) 1 (Int32.ofNat 2) (Int32.ofNat 2) "c" =
    some ⟨0, 0, 2, 2, 0, 1, fun _ => 0⟩ := rfl
  have hcall := Runs.single (s := (init ⟨0, 0, 2, 2, 0, 1, fun _ => 0⟩ : State Bool))
    (l := Label.callPut false fun k => if k = 0 then 7 else 9) (Step.callPut rfl)
  have hput := hcall.snoc (l := Label.lockPut false) (Step.put rfl rfl)
  have hasks := hput.snoc (l := Label.callGet true) (Step.callGet rfl)
  have hgot := hasks.snoc (l := Label.lockGet true) (Step.get rfl rfl)
  obtain ⟨_, _, _, _, _, _, hops, _, _, hempty⟩ :=
    refines_fifo (by decide) (by decide) (by decide) _ 1 "c" _ hcreate _ _ hgot
  exact ⟨_, _, hgot, by decide, hops, by decide, hempty.mpr (by decide)⟩

end OsCourse.MemChan
