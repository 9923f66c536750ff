import Mathlib.Data.List.Nodup
import Mathlib.Logic.Function.Basic

/-! A machine with a stack: registers of any type, a memory of words of eight bytes,
and code at addresses. Blocks of pushes and pops save and restore registers. -/
namespace OsCourse.Machine
open Function
variable {R : Type*}

/-- `touched` is the sequence of the addresses read or written. -/
structure State (R : Type*) where
  reg : R → Nat
  rip : Nat
  mem : Nat → Nat
  touched : List Nat

/-- `store s d` is `mov %s, (%d)`, `load s d` is `mov (%s), %d`, and `storeAt s a` is
`mov %s, a`. -/
inductive Instr (R : Type*) where
  | push (r : R)
  | pop (r : R)
  | store (src dst : R)
  | load (src dst : R)
  | storeAt (src : R) (addr : Nat)
  | call (target : Nat)
  | ret
  deriving DecidableEq, Repr

def Instr.Straight : Instr R → Prop
  | .call _ | .ret => False
  | _ => True

/-- The instructions `is` stand one after the other from position `a` on. -/
def CodeAt (code : Nat → Option (Instr R)) (a : Nat) (is : List (Instr R)) : Prop :=
  ∀ k i, is[k]? = some i → code (a + k) = some i

variable {code : Nat → Option (Instr R)}

theorem CodeAt.head {a : Nat} {i : Instr R} {is : List (Instr R)} (h : CodeAt code a (i :: is)) :
    code a = some i := by
  simpa using h 0 i rfl

theorem CodeAt.tail {a : Nat} {i : Instr R} {is : List (Instr R)} (h : CodeAt code a (i :: is)) :
    CodeAt code (a + 1) is := by
  intro k j hk
  have hj := h (k + 1) j hk
  rwa [Nat.add_comm k 1, ← Nat.add_assoc] at hj

def pushes (rs : List R) : List (Instr R) := rs.map .push
def pops (rs : List R) : List (Instr R) := rs.map .pop

theorem pushes_cons (r : R) (rs : List R) : pushes (r :: rs) = .push r :: pushes rs := rfl
theorem pops_cons (r : R) (rs : List R) : pops (r :: rs) = .pop r :: pops rs := rfl

variable [DecidableEq R]

/-- One instruction, where `sp` is the stack pointer. An instruction takes one
position of the code. -/
def step (sp : R) (i : Instr R) (s : State R) : State R :=
  match i with
  | .push r =>
    { reg := update s.reg sp (s.reg sp - 8)
      rip := s.rip + 1
      mem := update s.mem (s.reg sp - 8) (s.reg r)
      touched := s.touched ++ [s.reg sp - 8] }
  | .pop r =>
    { reg := update (update s.reg sp (s.reg sp + 8)) r (s.mem (s.reg sp))
      rip := s.rip + 1
      mem := s.mem
      touched := s.touched ++ [s.reg sp] }
  | .store src dst =>
    { reg := s.reg
      rip := s.rip + 1
      mem := update s.mem (s.reg dst) (s.reg src)
      touched := s.touched ++ [s.reg dst] }
  | .load src dst =>
    { reg := update s.reg dst (s.mem (s.reg src))
      rip := s.rip + 1
      mem := s.mem
      touched := s.touched ++ [s.reg src] }
  | .storeAt src addr =>
    { reg := s.reg
      rip := s.rip + 1
      mem := update s.mem addr (s.reg src)
      touched := s.touched ++ [addr] }
  | .call target =>
    { reg := update s.reg sp (s.reg sp - 8)
      rip := target
      mem := update s.mem (s.reg sp - 8) (s.rip + 1)
      touched := s.touched ++ [s.reg sp - 8] }
  | .ret =>
    { reg := update s.reg sp (s.reg sp + 8)
      rip := s.mem (s.reg sp)
      mem := s.mem
      touched := s.touched ++ [s.reg sp] }

/-- `n` instructions fetched from `code`. -/
def run (sp : R) (code : Nat → Option (Instr R)) : Nat → State R → Option (State R)
  | 0, s => some s
  | n + 1, s =>
    match code s.rip with
    | some i => run sp code n (step sp i s)
    | none => none

def block (sp : R) (is : List (Instr R)) (s : State R) : State R :=
  is.foldl (fun s i => step sp i s) s

variable {sp : R}

theorem block_append (is js : List (Instr R)) (s : State R) :
    block sp (is ++ js) s = block sp js (block sp is s) := by
  simp [block, List.foldl_append]

theorem step_rip {i : Instr R} (hi : i.Straight) (s : State R) : (step sp i s).rip = s.rip + 1 := by
  cases i with
  | call target => exact hi.elim
  | ret => exact hi.elim
  | _ => rfl

/-- Straight code and the jump that ends it run as a block. -/
theorem run_block {is : List (Instr R)} {j : Instr R} {s : State R}
    (hs : ∀ i ∈ is, i.Straight) (hc : CodeAt code s.rip (is ++ [j])) :
    run sp code (is.length + 1) s = some (block sp (is ++ [j]) s) := by
  induction is generalizing s with
  | nil =>
    have hj : code s.rip = some j := hc.head
    simp [run, hj, block]
  | cons i is ih =>
    have hi : code s.rip = some i := hc.head
    have hrip : (step sp i s).rip = s.rip + 1 := step_rip (hs i (by simp)) s
    have hnext := ih (s := step sp i s) (fun x hx => hs x (List.mem_cons_of_mem i hx))
      (by rw [hrip]; exact hc.tail)
    rw [List.length_cons, run, hi]
    exact hnext

theorem block_cons (i : Instr R) (is : List (Instr R)) (s : State R) :
    block sp (i :: is) s = block sp is (step sp i s) := rfl

theorem call_sp (target : Nat) (s : State R) :
    (step sp (.call target) s).reg sp = s.reg sp - 8 := by
  simp [step]

theorem call_reg (target : Nat) (s : State R) {r : R} (hr : r ≠ sp) :
    (step sp (.call target) s).reg r = s.reg r := by
  simp [step, hr]

theorem pushes_sp (rs : List R) (s : State R) :
    (block sp (pushes rs) s).reg sp = s.reg sp - 8 * rs.length := by
  induction rs generalizing s with
  | nil => rfl
  | cons r rs ih =>
    rw [pushes_cons, block_cons, ih]
    simp only [step, update_self, List.length_cons]
    omega

theorem pushes_reg (rs : List R) (s : State R) {r : R} (hr : r ≠ sp) :
    (block sp (pushes rs) s).reg r = s.reg r := by
  induction rs generalizing s with
  | nil => rfl
  | cons x rs ih =>
    rw [pushes_cons, block_cons, ih]
    simp [step, hr]

theorem pushes_mem {rs : List R} {s : State R} {a : Nat} (h : 8 * rs.length ≤ s.reg sp)
    (ha : a < s.reg sp - 8 * rs.length ∨ s.reg sp ≤ a) :
    (block sp (pushes rs) s).mem a = s.mem a := by
  induction rs generalizing s with
  | nil => rfl
  | cons r rs ih =>
    rw [List.length_cons] at h ha
    have hne : a ≠ s.reg sp - 8 := by omega
    rw [pushes_cons, block_cons, ih]
    · simp [step, hne]
    · simp only [step, update_self]
      omega
    · simp only [step, update_self]
      omega

theorem pushes_saved {rs : List R} {s : State R} (hsp : sp ∉ rs) (h : 8 * rs.length ≤ s.reg sp)
    {k : Nat} {r : R} (hk : rs[k]? = some r) :
    (block sp (pushes rs) s).mem (s.reg sp - 8 * (k + 1)) = s.reg r := by
  induction rs generalizing s k with
  | nil => simp at hk
  | cons x rs ih =>
    rw [List.length_cons] at h
    rw [List.mem_cons, not_or] at hsp
    have hsp' : (step sp (.push x) s).reg sp = s.reg sp - 8 := by simp [step]
    rw [pushes_cons, block_cons]
    cases k with
    | zero =>
      have hx : x = r := by simpa using hk
      rw [pushes_mem (by rw [hsp']; omega) (by rw [hsp']; omega)]
      simp [step, hx]
    | succ k =>
      have hkr : rs[k]? = some r := by simpa using hk
      have hr : r ≠ sp := fun he => hsp.2 (he ▸ List.mem_of_getElem? hkr)
      have hnext := ih (s := step sp (.push x) s) hsp.2 (by rw [hsp']; omega) hkr
      rw [hsp'] at hnext
      have haddr : s.reg sp - 8 * (k + 1 + 1) = s.reg sp - 8 - 8 * (k + 1) := by omega
      rw [haddr, hnext]
      simp [step, hr]

theorem pops_mem (rs : List R) (s : State R) : (block sp (pops rs) s).mem = s.mem := by
  induction rs generalizing s with
  | nil => rfl
  | cons r rs ih =>
    rw [pops_cons, block_cons, ih]
    rfl

theorem pops_sp {rs : List R} (hsp : sp ∉ rs) (s : State R) :
    (block sp (pops rs) s).reg sp = s.reg sp + 8 * rs.length := by
  induction rs generalizing s with
  | nil => rfl
  | cons r rs ih =>
    rw [List.mem_cons, not_or] at hsp
    rw [pops_cons, block_cons, ih hsp.2]
    simp only [step, update_of_ne hsp.1, update_self, List.length_cons]
    omega

theorem pops_other {rs : List R} {r : R} (hr : r ∉ rs) (hne : r ≠ sp) (s : State R) :
    (block sp (pops rs) s).reg r = s.reg r := by
  induction rs generalizing s with
  | nil => rfl
  | cons x rs ih =>
    rw [List.mem_cons, not_or] at hr
    rw [pops_cons, block_cons, ih hr.2]
    simp [step, hr.1, hne]

theorem pops_loaded {rs : List R} (hnd : rs.Nodup) (hsp : sp ∉ rs) (s : State R)
    {k : Nat} {r : R} (hk : rs[k]? = some r) :
    (block sp (pops rs) s).reg r = s.mem (s.reg sp + 8 * k) := by
  induction rs generalizing s k with
  | nil => simp at hk
  | cons x rs ih =>
    rw [List.nodup_cons] at hnd
    rw [List.mem_cons, not_or] at hsp
    rw [pops_cons, block_cons]
    cases k with
    | zero =>
      have hx : x = r := by simpa using hk
      subst hx
      rw [pops_other hnd.1 (Ne.symm hsp.1)]
      simp [step]
    | succ k =>
      have hkr : rs[k]? = some r := by simpa using hk
      rw [ih hnd.2 hsp.2 _ hkr]
      simp only [step, update_of_ne hsp.1, update_self]
      rw [Nat.mul_add, Nat.mul_one, Nat.add_assoc, Nat.add_comm 8]

theorem pops_touched {rs : List R} (hsp : sp ∉ rs) (s : State R) :
    (block sp (pops rs) s).touched =
      s.touched ++ (List.range rs.length).map fun k => s.reg sp + 8 * k := by
  induction rs generalizing s with
  | nil => simp [block, pops]
  | cons x rs ih =>
    rw [List.mem_cons, not_or] at hsp
    rw [pops_cons, block_cons, ih hsp.2, List.length_cons, List.range_succ_eq_map]
    simp only [step, update_of_ne hsp.1, update_self, List.append_assoc, List.map_cons,
      List.map_map, List.singleton_append]
    congr 2
    apply List.map_congr_left
    intro k _
    simp only [comp_apply]
    omega

/-- The addresses from `lo` up to `hi`. -/
structure Area where
  lo : Nat
  hi : Nat
  deriving DecidableEq, Repr

/-- The word at `a` lies in the area. -/
def Area.Has (A : Area) (a : Nat) : Prop := A.lo ≤ a ∧ a + 8 ≤ A.hi

def Area.Apart (A B : Area) : Prop := A.hi ≤ B.lo ∨ B.hi ≤ A.lo

theorem Area.Apart.symm {A B : Area} (h : A.Apart B) : B.Apart A := Or.symm h

theorem Area.Apart.words {A B : Area} (h : A.Apart B) {a b : Nat} (ha : A.Has a) (hb : B.Has b) :
    a + 8 ≤ b ∨ b + 8 ≤ a := by
  unfold Area.Apart at h
  unfold Area.Has at ha hb
  omega

theorem Area.Apart.outside {A B : Area} (h : A.Apart B) {a : Nat} (ha : A.Has a) :
    a + 8 ≤ B.lo ∨ B.hi ≤ a := by
  unfold Area.Apart at h
  unfold Area.Has at ha
  omega

end OsCourse.Machine
