import Mathlib.Algebra.Order.Ring.Nat

/-! 32-bit integers whose values fit. -/
namespace OsCourse.Ints

theorem ofNat_inj {a b : Nat} (ha : a < 2 ^ 31) (hb : b < 2 ^ 31) :
    Int32.ofNat a = Int32.ofNat b ↔ a = b := by
  constructor
  · intro h
    have hi := congrArg Int32.toInt h
    rw [Int32.toInt_ofNat_of_lt ha, Int32.toInt_ofNat_of_lt hb] at hi
    exact Int.ofNat_inj.mp hi
  · exact congrArg Int32.ofNat

theorem toInt_sub_of_fits {a b : Int32} (hb : 0 ≤ b.toInt) (h : b.toInt ≤ a.toInt) :
    (a - b).toInt = a.toInt - b.toInt := by
  refine Int32.toInt_sub_of_le a b ?_ (Int32.le_iff_toInt_le.2 h)
  simpa [Int32.le_iff_toInt_le] using hb

theorem toInt_add_of_fits {a b : Int32} (hb : 0 ≤ b.toInt)
    (h : a.toInt + b.toInt ≤ Int32.maxValue.toInt) : (a + b).toInt = a.toInt + b.toInt := by
  have hlow := Int32.le_toInt a
  rw [Int32.toInt_maxValue] at h
  rw [Int32.toInt_add]
  exact Int.bmod_eq_of_le (by omega) (by omega)

/-- A sum above the range comes out on the other side of it. -/
theorem toInt_add_of_over {a b : Int32} (h : Int32.maxValue.toInt < a.toInt + b.toInt) :
    (a + b).toInt = a.toInt + b.toInt - 4294967296 := by
  have ha := Int32.toInt_lt a
  have hb := Int32.toInt_lt b
  rw [Int32.toInt_maxValue] at h
  rw [Int32.toInt_add, Int.bmod_def]
  omega

theorem toInt64_toUInt32 (x : Int32) : x.toInt64.toUInt64.toUInt32.toInt32 = x := by
  rw [← Int32.toBitVec_inj]
  have hcut : (x.toBitVec.signExtend 64).setWidth 32 = x.toBitVec := by
    ext i hi
    have hwide : i < 64 := by omega
    rw [BitVec.getElem_setWidth, BitVec.getLsbD_signExtend, BitVec.getLsbD_eq_getElem hi]
    simp [hi, hwide]
  exact hcut

end OsCourse.Ints
