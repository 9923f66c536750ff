import OsCourse.Latch.Adder
import Mathlib.Algebra.Order.Ring.Nat

/-! The segments of `par_adder`, in tp_adder.c and in padder.c: what they cover of the
array, and what their sums make of it. -/
namespace OsCourse.Latch.Adder

/-- `seq_adder`, on the first `nvals` values. -/
def seqAdder (vals : List Int32) : Int64 :=
  vals.foldl (fun total x => total + x.toInt64) 0

/-- Position `j` is in the segment of context `i`. -/
def InSegment (size i j : Nat) : Prop :=
  (prepare size i).pstart ≤ j ∧ j < (prepare size i).pend

/-- The segments lie inside the array, have no position in common and cover it. -/
structure Partitioned (size : Nat) : Prop where
  inside : ∀ i < nProcessors, (prepare size i).pend ≤ size
  disjoint : ∀ i < nProcessors, ∀ i' < nProcessors, ∀ j,
    InSegment size i j → InSegment size i' j → i = i'
  covered : ∀ j < size, ∃ i < nProcessors, InSegment size i j

/-- The clamp to the end of the array never takes effect. -/
theorem prepare_pend {size i : Nat} (hi : i < nProcessors) :
    (prepare size i).pend = i * (size / nProcessors) + size / nProcessors := by
  have hmul : (i + 1) * (size / nProcessors) ≤ nProcessors * (size / nProcessors) :=
    Nat.mul_le_mul_right _ hi
  have hdiv : nProcessors * (size / nProcessors) ≤ size := Nat.mul_div_le size nProcessors
  rw [Nat.add_mul, Nat.one_mul] at hmul
  have hfits : ¬ i * (size / nProcessors) + size / nProcessors > size := by omega
  simp only [prepare, hfits, if_false]

theorem inSegment_iff {size i j : Nat} (hi : i < nProcessors) : InSegment size i j ↔
    i * (size / nProcessors) ≤ j ∧ j < i * (size / nProcessors) + size / nProcessors := by
  unfold InSegment
  rw [prepare_pend hi]
  rfl

theorem pend_le {size i : Nat} (hi : i < nProcessors) :
    (prepare size i).pend ≤ nProcessors * (size / nProcessors) := by
  have hmul : (i + 1) * (size / nProcessors) ≤ nProcessors * (size / nProcessors) :=
    Nat.mul_le_mul_right _ hi
  rw [Nat.add_mul, Nat.one_mul] at hmul
  rw [prepare_pend hi]
  exact hmul

theorem eq_div_of_inSegment {size i j : Nat} (hi : i < nProcessors) (h : InSegment size i j) :
    i = j / (size / nProcessors) := by
  rw [inSegment_iff hi] at h
  symm
  apply Nat.div_eq_of_lt_le h.1
  rw [Nat.add_mul, Nat.one_mul]
  exact h.2

theorem partitioned_iff (size : Nat) : Partitioned size ↔ size % nProcessors = 0 := by
  have hsplit := Nat.div_add_mod size nProcessors
  constructor
  · intro h
    by_contra hrest
    obtain ⟨i, hi, hseg⟩ := h.covered (size - 1) (by omega)
    have hlast := hseg.2
    have hle : (prepare size i).pend ≤ _ := pend_le hi
    omega
  · intro hrest
    refine ⟨?_, ?_, ?_⟩
    · intro i hi
      have hle : (prepare size i).pend ≤ _ := pend_le hi
      omega
    · intro i hi i' hi' j hj hj'
      rw [eq_div_of_inSegment hi hj, eq_div_of_inSegment hi' hj']
    · intro j hj
      have hpos : 0 < size / nProcessors := by
        by_contra hzero
        rw [Nat.eq_zero_of_not_pos hzero] at hsplit
        omega
      have hi : j / (size / nProcessors) < nProcessors := by
        rw [Nat.div_lt_iff_lt_mul hpos]
        omega
      refine ⟨j / (size / nProcessors), hi, (inSegment_iff hi).mpr ⟨?_, ?_⟩⟩
      · exact Nat.div_mul_le_self j _
      · have hlt := Nat.lt_div_mul_add (a := j) hpos
        exact hlt

section Sums

theorem foldl_add (vals : List Int32) (s : Int64) :
    vals.foldl (fun total x => total + x.toInt64) s = s + seqAdder vals := by
  unfold seqAdder
  induction vals generalizing s with
  | nil => simp
  | cons x xs ih =>
    rw [List.foldl_cons, List.foldl_cons, ih (s + x.toInt64), ih (0 + x.toInt64),
      Int64.zero_add, Int64.add_assoc]

theorem seqAdder_append (xs ys : List Int32) :
    seqAdder (xs ++ ys) = seqAdder xs + seqAdder ys := by
  rw [seqAdder, List.foldl_append, foldl_add]
  rfl

theorem foldl_segments (v : List Int32) (r n : Nat) :
    (List.range n).foldl (fun total i => total + seqAdder ((v.drop (i * r)).take r)) 0 =
      seqAdder (v.take (n * r)) := by
  induction n with
  | zero => simp [seqAdder]
  | succ n ih =>
    rw [List.range_succ, List.foldl_append, ih, Nat.add_mul, Nat.one_mul, List.take_add,
      seqAdder_append]
    rfl

def parSum (v : List Int32) : Int64 :=
  (List.range nProcessors).foldl
    (fun total i => total + workerSum v (prepare v.length i)) 0

/-- The values behind the last segment are missing. -/
theorem parSum_eq (v : List Int32) :
    parSum v = seqAdder (v.take (nProcessors * (v.length / nProcessors))) := by
  rw [← foldl_segments]
  apply List.foldl_ext
  intro total i hi
  have hpend := @prepare_pend v.length i (List.mem_range.mp hi)
  unfold workerSum
  rw [hpend]
  have hlen : i * (v.length / nProcessors) + v.length / nProcessors -
      (prepare v.length i).pstart = v.length / nProcessors := Nat.add_sub_cancel_left _ _
  rw [hlen]
  rfl

def remainder (v : List Int32) : List Int32 := v.drop (nProcessors * (v.length / nProcessors))

theorem parSum_eq_seqAdder_iff (v : List Int32) :
    parSum v = seqAdder v ↔ seqAdder (remainder v) = 0 := by
  have hsplit : seqAdder v = parSum v + seqAdder (remainder v) := by
    rw [parSum_eq, remainder, ← seqAdder_append, List.take_append_drop]
  rw [hsplit, eq_comm]
  exact Int64.add_eq_left

theorem remainder_length (v : List Int32) : (remainder v).length = v.length % nProcessors := by
  have hsplit := Nat.div_add_mod v.length nProcessors
  rw [remainder, List.length_drop]
  omega

end Sums

end OsCourse.Latch.Adder
