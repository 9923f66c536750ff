import Mathlib.Data.List.Nodup
import Mathlib.Algebra.Order.Ring.Int

/-! The two ways to sum the integers of a mapped file: from the middle outwards (maptest.c)
and upwards (the loop in its comment, and smem_reader.c). -/
namespace OsCourse.MapTest

/-- A `sum_ints`, with the indexes that it reads, in order. -/
structure Summed where
  reads : List Int
  sum : Int64

/-- The loop of `sum_ints` in maptest.c, from given indexes on. The memory at `ints` has
something at every index, inside the array or not. -/
def middleOut (ints : Int → Int32) (len i j : Int) (sum : Int64) : Summed :=
  if i < len then
    let rest := middleOut ints len (i + 1) (j - 1) (sum + (ints i).toInt64 + (ints j).toInt64)
    { rest with reads := i :: j :: rest.reads }
  else
    ⟨[], sum⟩
termination_by (len - i).toNat

def sumInts (ints : Int → Int32) (len : Int) : Summed :=
  middleOut ints len (len.tdiv 2) (len.tdiv 2 - 1) 0

/-- The loop of `sum_ints` in smem_reader.c. -/
def upwards (ints : Int → Int32) (len i : Int) (sum : Int64) : Summed :=
  if i < len then
    let rest := upwards ints len (i + 1) (sum + (ints i).toInt64)
    { rest with reads := i :: rest.reads }
  else
    ⟨[], sum⟩
termination_by (len - i).toNat

def smemSumInts (ints : Int → Int32) (len : Int) : Summed := upwards ints len 0 0

/-- What the reads of these indexes add to `sum`. -/
def total (ints : Int → Int32) (sum : Int64) (reads : List Int) : Int64 :=
  reads.foldl (fun sum k => sum + (ints k).toInt64) sum

variable {ints : Int → Int32} {len i j k : Int} {sum : Int64} {reads reads' : List Int}

theorem total_perm (h : reads.Perm reads') : total ints sum reads = total ints sum reads' := by
  apply h.foldl_eq'
  intro a _ b _ s
  rw [Int64.add_assoc, Int64.add_assoc, Int64.add_comm (ints a).toInt64]

theorem middleOut_sum : (middleOut ints len i j sum).sum =
    total ints sum (middleOut ints len i j sum).reads := by
  fun_induction middleOut ints len i j sum with
  | case1 i j sum hi rest ih => exact ih
  | case2 i j sum hi => rfl

theorem upwards_sum : (upwards ints len i sum).sum =
    total ints sum (upwards ints len i sum).reads := by
  fun_induction upwards ints len i sum with
  | case1 i sum hi rest ih => exact ih
  | case2 i sum hi => rfl

theorem mem_middleOut : k ∈ (middleOut ints len i j sum).reads ↔
    (i ≤ k ∧ k < len) ∨ (j - (len - i) < k ∧ k ≤ j ∧ i < len) := by
  fun_induction middleOut ints len i j sum with
  | case1 i j sum hi rest ih =>
    rw [List.mem_cons, List.mem_cons, ih]
    omega
  | case2 i j sum hi =>
    rw [List.mem_nil_iff, false_iff]
    omega

theorem middleOut_nodup (hji : j < i) : (middleOut ints len i j sum).reads.Nodup := by
  fun_induction middleOut ints len i j sum with
  | case1 i j sum hi rest ih =>
    have hrest : rest.reads.Nodup := ih (by omega)
    rw [List.nodup_cons, List.nodup_cons, List.mem_cons]
    refine ⟨?_, ?_, hrest⟩
    · rw [mem_middleOut]
      omega
    · rw [mem_middleOut]
      omega
  | case2 i j sum hi => exact List.nodup_nil

theorem mem_upwards : k ∈ (upwards ints len i sum).reads ↔ i ≤ k ∧ k < len := by
  fun_induction upwards ints len i sum with
  | case1 i sum hi rest ih =>
    rw [List.mem_cons, ih]
    omega
  | case2 i sum hi =>
    rw [List.mem_nil_iff, false_iff]
    omega

theorem upwards_nodup : (upwards ints len i sum).reads.Nodup := by
  fun_induction upwards ints len i sum with
  | case1 i sum hi rest ih =>
    rw [List.nodup_cons, mem_upwards]
    refine ⟨?_, ih⟩
    omega
  | case2 i sum hi => exact List.nodup_nil

/-- The odd one out, when the length is odd, is the integer before the array. -/
theorem mem_sumInts (hlen : 0 ≤ len) :
    k ∈ (sumInts ints len).reads ↔ -(len % 2) ≤ k ∧ k < len := by
  rw [sumInts, mem_middleOut, Int.tdiv_eq_ediv_of_nonneg hlen]
  omega

theorem sumInts_nodup : (sumInts ints len).reads.Nodup := by
  apply middleOut_nodup
  omega

theorem mem_smemSumInts : k ∈ (smemSumInts ints len).reads ↔ 0 ≤ k ∧ k < len := mem_upwards

theorem smemSumInts_nodup : (smemSumInts ints len).reads.Nodup := upwards_nodup

theorem sumInts_even (hlen : 0 ≤ len) (heven : len % 2 = 0) :
    (sumInts ints len).sum = (smemSumInts ints len).sum := by
  have hperm : (sumInts ints len).reads.Perm (smemSumInts ints len).reads := by
    apply (List.perm_ext_iff_of_nodup sumInts_nodup smemSumInts_nodup).mpr
    intro k
    rw [mem_sumInts hlen, mem_smemSumInts, heven, Int.neg_zero]
  rw [sumInts, middleOut_sum, smemSumInts, upwards_sum]
  exact total_perm hperm

theorem sumInts_odd (hlen : 0 ≤ len) (hodd : len % 2 = 1) :
    (sumInts ints len).sum = (smemSumInts ints len).sum + (ints (-1)).toInt64 := by
  have hperm : (sumInts ints len).reads.Perm ((smemSumInts ints len).reads ++ [-1]) := by
    have hfresh : -1 ∉ (smemSumInts ints len).reads := by
      rw [mem_smemSumInts]
      omega
    have hnodup : ((smemSumInts ints len).reads ++ [-1]).Nodup := by
      rw [← List.concat_eq_append]
      exact List.Nodup.concat hfresh smemSumInts_nodup
    apply (List.perm_ext_iff_of_nodup sumInts_nodup hnodup).mpr
    intro k
    rw [mem_sumInts hlen, List.mem_append, mem_smemSumInts, List.mem_singleton]
    omega
  rw [sumInts, middleOut_sum, smemSumInts, upwards_sum]
  refine (total_perm hperm).trans ?_
  rw [total, List.foldl_append]
  rfl

structure Agrees (ints : Int → Int32) (len : Int) : Prop where
  once : (sumInts ints len).reads.Nodup
  exactly : ∀ k, k ∈ (sumInts ints len).reads ↔ 0 ≤ k ∧ k < len
  sum : (sumInts ints len).sum = (smemSumInts ints len).sum

/-- The sum from the middle is the plain one on the arrays of even length. -/
theorem agrees_iff (ints : Int → Int32) (len : Int) (hlen : 0 ≤ len) :
    Agrees ints len ↔ len % 2 = 0 := by
  constructor
  · intro h
    by_contra hodd
    have hbefore : -1 ∈ (sumInts ints len).reads := by
      rw [mem_sumInts hlen]
      omega
    have hinside := (h.exactly (-1)).mp hbefore
    omega
  · intro heven
    refine ⟨sumInts_nodup, fun k => ?_, sumInts_even hlen heven⟩
    rw [mem_sumInts hlen, heven, Int.neg_zero]

theorem agrees_four : Agrees (fun k => Int32.ofInt k) 4 :=
  (agrees_iff _ 4 (by decide)).mpr (by decide)

/-- Of a single integer, the one before it is read as well. -/
theorem reads_before_array : ¬∀ (ints : Int → Int32) (len : Int), 0 ≤ len → Agrees ints len := by
  intro hall
  have hagrees := hall (fun _ => 0) 1 (by decide)
  have hbefore : -1 ∈ (sumInts (fun _ => 0) 1).reads := (mem_sumInts (by decide)).mpr (by decide)
  have hinside := (hagrees.exactly (-1)).mp hbefore
  omega

end OsCourse.MapTest
