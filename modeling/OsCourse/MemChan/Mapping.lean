import OsCourse.MemChan.Channel

/-! The mapping of a channel: its size, which `mc_create` computes in `int`, against the
bytes that `mc_put` and `mc_get` copy. -/
namespace OsCourse.MemChan
open Function Ints Transition Wakeup

/-- The calls of the system in memutils.c: `ftruncate` says whether it succeeds. -/
structure Os where
  shmOpen : String → Option Int32
  ftruncate : Int32 → Int64 → Bool
  mmap : Int32 → UInt64 → Option (Int → UInt8)

/-- `ftruncate` fails with a negative length. -/
def Os.RefusesNegative (os : Os) : Prop :=
  ∀ fd length, length.toInt < 0 → os.ftruncate fd length = false

def shmemInternalMap (os : Os) (fd : Int32) (size : UInt64) : Option (Int → UInt8) :=
  os.mmap fd size

def shmemCreate (os : Os) (path : String) (size : UInt64) : Option (Int → UInt8) :=
  match os.shmOpen path with
  | none => none
  | some fd => if os.ftruncate fd size.toInt64 then shmemInternalMap os fd size else none

def totalSizeInBytes (elemSize capacity : Int32) : Int32 :=
  ((elemSize * capacity).toInt64.toUInt64 + sizeofMemChannel).toUInt32.toInt32

def offsetofBuf : Int := 160

/-- The slot of an index lies in a mapping of `total` bytes, and its offset in an `int`. -/
def SlotInside (total index elemSize : Int32) : Prop :=
  0 ≤ index.toInt * elemSize.toInt ∧
  index.toInt * elemSize.toInt ≤ Int32.maxValue.toInt ∧
  offsetofBuf + index.toInt * elemSize.toInt + elemSize.toInt ≤ total.toInt

def MemChannel.InMapping (total : Int32) (rb : MemChannel) : Prop :=
  SlotInside total rb.iput rb.elemSize ∧ SlotInside total rb.iget rb.elemSize

theorem totalSizeInBytes_eq (elemSize capacity : Int32) :
    totalSizeInBytes elemSize capacity = elemSize * capacity + 168 := by
  unfold totalSizeInBytes sizeofMemChannel
  rw [UInt64.toUInt32_add, UInt32.toInt32_add, toInt64_toUInt32]
  rfl

variable {cap es : Nat} {rb : MemChannel} {os : Os} {pid : Int32} {name : String}

/-- A channel that could be mapped has a size that did not turn negative. -/
theorem create_nonneg {elemSize capacity : Int32} (hos : os.RefusesNegative)
    (h : mcCreate (shmemCreate os) pid elemSize capacity name = some rb) :
    0 ≤ (totalSizeInBytes elemSize capacity).toInt := by
  obtain ⟨buf, hmap, _⟩ := Option.map_eq_some_iff.mp h
  by_contra hneg
  have hfails : ∀ fd, os.ftruncate fd
      (totalSizeInBytes elemSize capacity).toInt64.toUInt64.toInt64 = false := by
    intro fd
    apply hos
    rw [Int64.toInt64_toUInt64, Int32.toInt_toInt64]
    omega
  unfold shmemCreate at hmap
  split at hmap
  · cases hmap
  · rename_i fd _
    have hnone := hfails fd
    unfold totalSizeInBytes at hnone
    rw [hnone] at hmap
    cases hmap

theorem totalSize_toInt (hfits : es * cap < 2 ^ 31)
    (hpos : 0 ≤ (totalSizeInBytes (Int32.ofNat es) (Int32.ofNat cap)).toInt) :
    (totalSizeInBytes (Int32.ofNat es) (Int32.ofNat cap)).toInt = (es * cap : Nat) + 168 := by
  have hbuf : (Int32.ofNat es * Int32.ofNat cap).toInt = (es * cap : Nat) := by
    rw [← Int32.ofNat_mul, Int32.toInt_ofNat_of_lt hfits]
  have hheader : (168 : Int32).toInt = 168 := rfl
  rw [totalSizeInBytes_eq] at hpos ⊢
  by_cases hsum : (Int32.ofNat es * Int32.ofNat cap).toInt + (168 : Int32).toInt ≤
      Int32.maxValue.toInt
  · rw [toInt_add_of_fits (by decide) hsum, hbuf, hheader]
  · rw [toInt_add_of_over (not_le.mp hsum), hbuf, hheader] at hpos
    omega

theorem slotInside_of_lt {total index elemSize : Int32} (hfits : es * cap < 2 ^ 31)
    (htotal : total.toInt = (es * cap : Nat) + 168) (hes : elemSize.toInt = es)
    (h0 : 0 ≤ index.toInt) (hlt : index.toInt < cap) : SlotInside total index elemSize := by
  obtain ⟨i, hi⟩ := Int.eq_ofNat_of_zero_le h0
  have hmul : i * es + es ≤ es * cap := by
    have hle : (i + 1) * es ≤ cap * es := Nat.mul_le_mul_right es (by omega)
    rw [Nat.add_mul, Nat.one_mul, Nat.mul_comm cap es] at hle
    exact hle
  have hoffset : index.toInt * elemSize.toInt = (i * es : Nat) := by
    rw [hi, hes]
    exact (Int.natCast_mul i es).symm
  unfold SlotInside offsetofBuf
  rw [hoffset, htotal, hes, Int32.toInt_maxValue]
  omega

section Runs
variable {P : Type*} [DecidableEq P]

/-- All that a run of `mc_put` alone changes are the indices and the bytes. -/
structure PutOnly (cap es k : Nat) (s : State P) : Prop where
  capacity : s.chan.capacity = Int32.ofNat cap
  elemSize : s.chan.elemSize = Int32.ofNat es
  iput : s.chan.iput = Int32.ofNat k
  size : s.chan.size = Int32.ofNat k
  idle : ∀ p, s.pc p = .idle

theorem put_alone {s : State P} (hidle : ∀ q, s.pc q = .idle) (p : P) (item : Nat → UInt8)
    {rb rb' : MemChannel} (hchan : s.chan = rb) (hput : mcPut rb item = some rb') :
    ∃ t, Runs Step s [.callPut p item, .lockPut p, .signalItems p none] t ∧ t.chan = rb' ∧
      ∀ q, t.pc q = .idle := by
  subst hchan
  have hcall := Runs.single (l := Label.callPut p item) (Step.callPut (hidle p))
  have hasks : (update s.pc p (.putting item) p).toPut = some item := by
    rw [update_self]
    rfl
  have hlock := hcall.snoc (l := .lockPut p)
    (Step.put (s := { s with pc := update s.pc p (.putting item) }) hasks hput)
  have hsignal := hlock.snoc (l := .signalItems p none) (Step.signalItems (update_self _ _ _)
    (Signal.nobody fun q => by
      by_cases hq : q = p <;> simp [hq, hidle, Pc.wakeHasItems]))
  refine ⟨_, hsignal, rfl, ?_⟩
  intro q
  by_cases hq : q = p <;> simp [hq, hidle]

theorem get_alone {s : State P} (hidle : ∀ q, s.pc q = .idle) (p : P) {item : List UInt8}
    {rb rb' : MemChannel} (hchan : s.chan = rb) (hget : mcGet rb = some (item, rb')) :
    ∃ t, Runs Step s [.callGet p, .lockGet p, .signalSpace p none] t ∧ t.chan = rb' ∧
      ∀ q, t.pc q = .idle := by
  subst hchan
  have hcall := Runs.single (l := Label.callGet p) (Step.callGet (hidle p))
  have hasks : (update s.pc p .getting p).toGet = true := by
    rw [update_self]
    rfl
  have hlock := hcall.snoc (l := .lockGet p)
    (Step.get (s := { s with pc := update s.pc p .getting }) hasks hget)
  have hsignal := hlock.snoc (l := .signalSpace p none) (Step.signalSpace (update_self _ _ _)
    (Signal.nobody fun q => by
      by_cases hq : q = p <;> simp [hq, hidle, Pc.wakeHasSpace]))
  refine ⟨_, hsignal, rfl, ?_⟩
  intro q
  by_cases hq : q = p <;> simp [hq, hidle]

theorem PutOnly.put {k : Nat} {s : State P} (h : PutOnly cap es k s) (p : P)
    (item : Nat → UInt8) (hk : k + 1 < cap) (hcap : cap < 2 ^ 31) :
    ∃ t, Runs Step s [.callPut p item, .lockPut p, .signalItems p none] t ∧
      PutOnly cap es (k + 1) t := by
  have hroom : s.chan.size ≠ s.chan.capacity := by
    rw [h.size, h.capacity]
    intro he
    have := (ofNat_inj (by omega) hcap).mp he
    omega
  have hput : ∃ rb, mcPut s.chan item = some rb ∧ rb.capacity = s.chan.capacity ∧
      rb.elemSize = s.chan.elemSize ∧ rb.iput = Int32.ofNat (k + 1) ∧
      rb.size = Int32.ofNat (k + 1) := by
    have hnext := @ofNat_next cap k (by omega) hcap
    unfold RingBuffer.next at hnext
    rw [if_neg (c := k + 1 = cap) (by omega)] at hnext
    unfold mcPut
    rw [if_neg hroom]
    refine ⟨_, rfl, rfl, rfl, ?_, ?_⟩
    · dsimp only
      rw [h.iput, h.capacity]
      exact hnext
    · dsimp only
      rw [h.size]
      exact (Int32.ofNat_add k 1).symm
  obtain ⟨rb, hput, hcapacity, helem, hiput, hsize⟩ := hput
  obtain ⟨t, hrun, rfl, hidle⟩ := put_alone h.idle p item rfl hput
  exact ⟨t, hrun, hcapacity.trans h.capacity, helem.trans h.elemSize, hiput, hsize, hidle⟩

theorem putOnly_reached (p : P) (item : Nat → UInt8)
    (hcreate : mcCreate (shmemCreate os) pid (Int32.ofNat es) (Int32.ofNat cap) name = some rb)
    (hcap : cap < 2 ^ 31) (k : Nat) (hk : k < cap) :
    ∃ ls s, Runs Step (init rb : State P) ls s ∧ PutOnly cap es k s := by
  induction k with
  | zero =>
    obtain ⟨buf, _, rfl⟩ := Option.map_eq_some_iff.mp hcreate
    exact ⟨[], _, Runs.nil _, rfl, rfl, rfl, rfl, fun _ => rfl⟩
  | succ k ih =>
    obtain ⟨ls, s, hrun, hs⟩ := ih (by omega)
    obtain ⟨t, hmore, ht⟩ := hs.put p item hk hcap
    exact ⟨_, t, hrun.append hmore, ht⟩

/-- Puts and gets of a channel that was created stay in its mapping, in every run, exactly
when the size of the buffer does not overflow. -/
theorem accesses_inside_iff [Nonempty P] (os : Os) (hos : os.RefusesNegative) (pid : Int32)
    (name : String) (es cap : Nat) (he : 1 ≤ es) (he' : es < 2 ^ 31) (hc : 1 ≤ cap)
    (hc' : cap < 2 ^ 31) (rb : MemChannel)
    (hcreate : mcCreate (shmemCreate os) pid (Int32.ofNat es) (Int32.ofNat cap) name =
      some rb) :
    (∀ (ls : List (Label P)) (s : State P), Runs Step (init rb) ls s →
      s.chan.InMapping (totalSizeInBytes (Int32.ofNat es) (Int32.ofNat cap))) ↔
    es * cap < 2 ^ 31 := by
  constructor
  · intro hall
    obtain ⟨p⟩ := ‹Nonempty P›
    obtain ⟨ls, s, hrun, hs⟩ := putOnly_reached p (fun _ => 0) hcreate hc' (cap - 1) (by omega)
    have hin := (hall ls s hrun).1.2.2
    have htotal := Int32.toInt_lt (totalSizeInBytes (Int32.ofNat es) (Int32.ofNat cap))
    rw [hs.iput, hs.elemSize, Int32.toInt_ofNat_of_lt he', Int32.toInt_ofNat_of_lt (by omega)]
      at hin
    have hlast : (cap - 1) * es + es = es * cap := by
      rw [← Nat.succ_mul, Nat.succ_eq_add_one, Nat.sub_add_cancel hc, Nat.mul_comm]
    unfold offsetofBuf at hin
    rw [← Int.natCast_mul] at hin
    omega
  · intro hfits ls s hrun
    have htotal := totalSize_toInt hfits (create_nonneg hos hcreate)
    obtain ⟨r, hr, _⟩ := channel_of_runs he hc hfits hcreate hrun
    obtain ⟨⟨hput0, hput⟩, hget0, hget⟩ := hr.in_range he hfits
    have hes := (hr.fields he hfits).2.1
    exact ⟨slotInside_of_lt hfits htotal hes hput0 hput,
      slotInside_of_lt hfits htotal hes hget0 hget⟩

end Runs

def plainOs : Os :=
  { shmOpen := fun _ => some 3
    ftruncate := fun _ length => !decide (length.toInt < 0)
    mmap := fun _ _ => some fun _ => 0 }

theorem plainOs_refuses : plainOs.RefusesNegative := by
  intro fd length h
  simp [plainOs, h]

/-- Room for three items of four bytes: with four put and two taken out, `iput` has come
around. -/
theorem accesses_inside_three : ∃ rb ls, ∃ s : State Unit,
    mcCreate (shmemCreate plainOs) 1 (Int32.ofNat 4) (Int32.ofNat 3) "c" = some rb ∧
    Runs Step (init rb) ls s ∧ s.chan.iput = 1 ∧ s.chan.iget = 2 ∧
    s.chan.InMapping (totalSizeInBytes (Int32.ofNat 4) (Int32.ofNat 3)) := by
  have hcreate : mcCreate (shmemCreate plainOs) 1 (Int32.ofNat 4) (Int32.ofNat 3) "c" =
    some ⟨0, 0, 3, 4, 0, 1, fun _ => 0⟩ := rfl
  have hall := (accesses_inside_iff (P := Unit) plainOs plainOs_refuses 1 "c" 4 3 (by decide)
    (by decide) (by decide) (by decide) _ hcreate).mpr (by decide)
  obtain ⟨s1, h1, hc1, hi1⟩ := put_alone
    (s := (init ⟨0, 0, 3, 4, 0, 1, fun _ => 0⟩ : State Unit)) (fun _ => rfl) () (fun _ => 7) rfl rfl
  obtain ⟨s2, h2, hc2, hi2⟩ := put_alone hi1 () (fun _ => 8) hc1 rfl
  obtain ⟨s3, h3, hc3, hi3⟩ := put_alone hi2 () (fun _ => 9) hc2 rfl
  obtain ⟨s4, h4, hc4, hi4⟩ := get_alone hi3 () hc3 rfl
  obtain ⟨s5, h5, hc5, hi5⟩ := put_alone hi4 () (fun _ => 10) hc4 rfl
  obtain ⟨s6, h6, hc6, _⟩ := get_alone hi5 () hc5 rfl
  have hrun := ((((h1.append h2).append h3).append h4).append h5).append h6
  exact ⟨_, _, s6, hcreate, hrun, by rw [hc6]; decide, by rw [hc6]; decide, hall _ _ hrun⟩

/-- The product of 65536 and 65536 is zero in an `int`: the channel gets its header only,
and its first slot lies outside. -/
theorem create_too_small : ∃ rb,
    mcCreate (shmemCreate plainOs) 1 (Int32.ofNat 65536) (Int32.ofNat 65536) "c" = some rb ∧
    totalSizeInBytes (Int32.ofNat 65536) (Int32.ofNat 65536) = 168 ∧
    ¬ rb.InMapping (totalSizeInBytes (Int32.ofNat 65536) (Int32.ofNat 65536)) := by
  have hcreate : mcCreate (shmemCreate plainOs) 1 (Int32.ofNat 65536) (Int32.ofNat 65536) "c" =
    some ⟨0, 0, 65536, 65536, 0, 1, fun _ => 0⟩ := rfl
  refine ⟨_, hcreate, by decide, ?_⟩
  intro hin
  have hend := hin.1.2.2
  revert hend
  decide

end OsCourse.MemChan
