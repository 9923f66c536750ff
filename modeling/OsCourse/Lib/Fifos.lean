import Mathlib.Data.List.Basic
import Mathlib.Logic.Function.Basic

/-! Named pipes of a kernel: the names that there are, and for each pipe the bytes in it with the
processes that have it open. -/
namespace OsCourse.Fifos
open Function
variable {P : Type*}

/-- The processes that have the pipe open for reading and for writing, once for each descriptor. -/
structure Fifo (P : Type*) where
  bytes : List UInt8
  readers : List P
  writers : List P

structure Files (P : Type*) where
  names : String → Option Nat
  fifos : Nat → Fifo P
  count : Nat

section Calls
variable (f : Files P) (name : String) (k : Nat) (x : P)

def Files.set (c : Fifo P) : Files P := { f with fifos := update f.fifos k c }

/-- A name that is there already is left as it is. -/
def Files.mkfifo : Files P :=
  match f.names name with
  | some _ => f
  | none =>
    { names := update f.names name (some f.count)
      fifos := update f.fifos f.count ⟨[], [], []⟩
      count := f.count + 1 }

/-- `open` with `O_RDWR`. -/
def Files.openBoth : Files P :=
  f.set k { f.fifos k with
    readers := (f.fifos k).readers ++ [x]
    writers := (f.fifos k).writers ++ [x] }

/-- `open` with `O_WRONLY`, which waits for a reader. -/
def Files.openWrite : Files P :=
  f.set k { f.fifos k with writers := (f.fifos k).writers ++ [x] }

def Files.put (xs : List UInt8) : Files P :=
  f.set k { f.fifos k with bytes := (f.fifos k).bytes ++ xs }

/-- `read` of at most `n` bytes. -/
def Files.take (n : Nat) : Files P :=
  f.set k { f.fifos k with bytes := (f.fifos k).bytes.drop n }

/-- The bytes are gone when nobody has the pipe open any more. -/
def Fifo.close [DecidableEq P] (c : Fifo P) (x : P) : Fifo P :=
  { bytes := if c.readers.erase x = [] ∧ c.writers.erase x = [] then [] else c.bytes
    readers := c.readers.erase x
    writers := c.writers.erase x }

def Files.close [DecidableEq P] : Files P := f.set k ((f.fifos k).close x)

def Files.unlink : Files P := { f with names := update f.names name none }

end Calls

/-- The names are of different pipes, and pipes that have not been made are empty. -/
structure Files.Ok (f : Files P) : Prop where
  inj : ∀ a b k, f.names a = some k → f.names b = some k → a = b
  lt : ∀ a k, f.names a = some k → k < f.count
  fresh : ∀ k, f.count ≤ k → f.fifos k = ⟨[], [], []⟩

structure Files.Quiet (f : Files P) : Prop extends f.Ok where
  closed : ∀ k, f.fifos k = ⟨[], [], []⟩

structure OthersKeep (x : P) (f f' : Files P) : Prop where
  readers : ∀ k y, y ≠ x → (y ∈ (f'.fifos k).readers ↔ y ∈ (f.fifos k).readers)
  writers : ∀ k y, y ≠ x → (y ∈ (f'.fifos k).writers ↔ y ∈ (f.fifos k).writers)

variable {f : Files P} {name other : String} {k j n : Nat} {x y : P} {xs : List UInt8} {c : Fifo P}

section Names

theorem unlink_ne (h : other ≠ name) : (f.unlink name).names other = f.names other := by
  simp [Files.unlink, h]

theorem mkfifo_some (h : f.names name = some k) : f.mkfifo name = f := by
  unfold Files.mkfifo
  rw [h]

theorem mkfifo_none (h : f.names name = none) : f.mkfifo name =
    { names := update f.names name (some f.count)
      fifos := update f.fifos f.count ⟨[], [], []⟩
      count := f.count + 1 } := by
  unfold Files.mkfifo
  rw [h]

theorem mkfifo_ne (h : other ≠ name) : (f.mkfifo name).names other = f.names other := by
  cases hname : f.names name with
  | some k => rw [mkfifo_some hname]
  | none =>
    rw [mkfifo_none hname]
    exact update_of_ne h _ f.names

theorem mkfifo_self : ∃ k, (f.mkfifo name).names name = some k := by
  cases hname : f.names name with
  | some k =>
    rw [mkfifo_some hname]
    exact ⟨k, hname⟩
  | none =>
    rw [mkfifo_none hname]
    exact ⟨f.count, update_self name _ f.names⟩

theorem Files.Ok.mkfifo_fifos (h : f.Ok) : (f.mkfifo name).fifos = f.fifos := by
  cases hname : f.names name with
  | some j => rw [mkfifo_some hname]
  | none =>
    rw [mkfifo_none hname, ← h.fresh f.count (Nat.le_refl f.count)]
    exact update_eq_self f.count f.fifos

theorem Files.Ok.mkfifo (h : f.Ok) : (f.mkfifo name).Ok := by
  cases hname : f.names name with
  | some k =>
    rw [mkfifo_some hname]
    exact h
  | none =>
    have hfifos : (f.mkfifo name).fifos = f.fifos := h.mkfifo_fifos
    rw [mkfifo_none hname] at hfifos ⊢
    have hlt : ∀ a k, update f.names name (some f.count) a = some k →
        (a = name ∧ k = f.count) ∨ (f.names a = some k ∧ k < f.count) := by
      intro a k ha
      by_cases he : a = name
      · rw [he, update_self] at ha
        cases ha
        exact Or.inl ⟨he, rfl⟩
      · rw [update_of_ne he] at ha
        exact Or.inr ⟨ha, h.lt a k ha⟩
    constructor
    · intro a b k ha hb
      obtain ⟨hae, hak⟩ | ⟨ha, hak⟩ := hlt a k ha
      · obtain ⟨hbe, _⟩ | ⟨_, hbk⟩ := hlt b k hb
        · rw [hae, hbe]
        · omega
      · obtain ⟨_, hbk⟩ | ⟨hb, _⟩ := hlt b k hb
        · omega
        · exact h.inj a b k ha hb
    · intro a k ha
      obtain ⟨_, hk⟩ | ⟨_, hk⟩ := hlt a k ha
      · exact hk ▸ Nat.lt_succ_self f.count
      · exact Nat.lt_succ_of_lt hk
    · intro k hk
      rw [hfifos]
      exact h.fresh k (Nat.le_of_succ_le hk)

theorem Files.Ok.unlink (h : f.Ok) : (f.unlink name).Ok := by
  have hold : ∀ a k, (f.unlink name).names a = some k → f.names a = some k := by
    intro a k ha
    unfold Files.unlink at ha
    dsimp only at ha
    by_cases he : a = name
    · rw [he, update_self] at ha
      cases ha
    · rw [update_of_ne he] at ha
      exact ha
  constructor
  · intro a b k ha hb
    exact h.inj a b k (hold a k ha) (hold b k hb)
  · intro a k ha
    exact h.lt a k (hold a k ha)
  · exact h.fresh

end Names

section Ends

@[simp] theorem set_self : (f.set k c).fifos k = c := by
  simp [Files.set]

theorem set_ne (h : j ≠ k) : (f.set k c).fifos j = f.fifos j := by
  simp [Files.set, h]

theorem set_bytes (h : c.bytes = (f.fifos k).bytes) (j : Nat) :
    ((f.set k c).fifos j).bytes = (f.fifos j).bytes := by
  by_cases hj : j = k
  · rw [hj, set_self, h]
  · rw [set_ne hj]

theorem set_readers (h : c.readers = (f.fifos k).readers) (j : Nat) :
    ((f.set k c).fifos j).readers = (f.fifos j).readers := by
  by_cases hj : j = k
  · rw [hj, set_self, h]
  · rw [set_ne hj]

theorem openBoth_self : (f.openBoth k x).fifos k =
    ⟨(f.fifos k).bytes, (f.fifos k).readers ++ [x], (f.fifos k).writers ++ [x]⟩ := by
  unfold Files.openBoth
  rw [set_self]

theorem openBoth_ne (h : j ≠ k) : (f.openBoth k x).fifos j = f.fifos j := by
  unfold Files.openBoth
  rw [set_ne h]

theorem openBoth_opened : x ∈ ((f.openBoth k x).fifos k).readers ∧
    x ∈ ((f.openBoth k x).fifos k).writers := by
  rw [openBoth_self]
  exact ⟨List.mem_append_right _ List.mem_cons_self, List.mem_append_right _ List.mem_cons_self⟩

theorem openBoth_nodup (hk : (f.fifos k).readers = []) (h : ∀ j, (f.fifos j).readers.Nodup)
    (j : Nat) : ((f.openBoth k x).fifos j).readers.Nodup := by
  by_cases hj : j = k
  · rw [hj, openBoth_self, hk]
    exact List.nodup_cons.mpr ⟨List.not_mem_nil, List.nodup_nil⟩
  · rw [openBoth_ne hj]
    exact h j

theorem openBoth_idle (h : ∀ j, (f.fifos j).readers = [] → (f.fifos j).bytes = []) (j : Nat)
    (hj : ((f.openBoth k x).fifos j).readers = []) : ((f.openBoth k x).fifos j).bytes = [] := by
  by_cases hjk : j = k
  · rw [hjk, openBoth_self] at hj
    exact absurd (List.append_eq_nil_iff.mp hj).2 (List.cons_ne_nil x [])
  · rw [openBoth_ne hjk] at hj ⊢
    exact h j hj

theorem openBoth_bytes (j : Nat) : ((f.openBoth k x).fifos j).bytes = (f.fifos j).bytes := by
  apply set_bytes
  rfl

theorem openWrite_bytes (j : Nat) : ((f.openWrite k x).fifos j).bytes = (f.fifos j).bytes := by
  apply set_bytes
  rfl

theorem take_length_le (j : Nat) :
    ((f.take k n).fifos j).bytes.length ≤ (f.fifos j).bytes.length := by
  unfold Files.take
  by_cases hj : j = k
  · rw [hj, set_self, List.length_drop]
    exact Nat.sub_le _ _
  · apply Nat.le_of_eq
    rw [set_ne hj]

theorem put_length_le (j : Nat) :
    ((f.put k xs).fifos j).bytes.length ≤ (f.fifos j).bytes.length + xs.length := by
  unfold Files.put
  by_cases hj : j = k
  · apply Nat.le_of_eq
    rw [hj, set_self, List.length_append]
  · rw [set_ne hj]
    exact Nat.le_add_right _ _

theorem Files.Ok.set (h : f.Ok) (hk : k < f.count) : (f.set k c).Ok := by
  refine ⟨h.inj, h.lt, ?_⟩
  intro j hj
  rw [set_ne (Nat.ne_of_gt (Nat.lt_of_lt_of_le hk hj))]
  exact h.fresh j hj

theorem OthersKeep.set (hr : ∀ y, y ≠ x → (y ∈ c.readers ↔ y ∈ (f.fifos k).readers))
    (hw : ∀ y, y ≠ x → (y ∈ c.writers ↔ y ∈ (f.fifos k).writers)) :
    OthersKeep x f (f.set k c) := by
  constructor
  · intro j y hy
    by_cases hj : j = k
    · rw [hj, set_self]
      exact hr y hy
    · rw [set_ne hj]
  · intro j y hy
    by_cases hj : j = k
    · rw [hj, set_self]
      exact hw y hy
    · rw [set_ne hj]

theorem OthersKeep.openBoth : OthersKeep x f (f.openBoth k x) := by
  apply OthersKeep.set <;> (intro y hy; simp [hy])

theorem OthersKeep.openWrite : OthersKeep x f (f.openWrite k x) := by
  apply OthersKeep.set <;> (intro y hy; simp [hy])

theorem OthersKeep.put : OthersKeep x f (f.put k xs) :=
  OthersKeep.set (fun _ _ => Iff.rfl) fun _ _ => Iff.rfl

theorem OthersKeep.take : OthersKeep x f (f.take k n) :=
  OthersKeep.set (fun _ _ => Iff.rfl) fun _ _ => Iff.rfl

theorem OthersKeep.of_fifos {f' : Files P} (h : f'.fifos = f.fifos) : OthersKeep x f f' := by
  constructor <;> (intro k y _; rw [h])

variable [DecidableEq P]

theorem OthersKeep.close : OthersKeep x f (f.close k x) := by
  apply OthersKeep.set
  · intro y hy
    exact List.mem_erase_of_ne hy
  · intro y hy
    exact List.mem_erase_of_ne hy

theorem Files.Ok.close (h : f.Ok) : (f.close k x).Ok := by
  by_cases hk : k < f.count
  · exact h.set hk
  · refine ⟨h.inj, h.lt, ?_⟩
    intro j hj
    unfold Files.close
    by_cases hjk : j = k
    · rw [hjk, set_self, h.fresh k (Nat.le_of_not_lt hk)]
      rfl
    · rw [set_ne hjk]
      exact h.fresh j hj

/-- A close takes no byte when who leaves an empty pipe behind leaves no byte in it. -/
theorem close_bytes (h : (f.fifos k).readers.erase x = [] → (f.fifos k).bytes = []) (j : Nat) :
    ((f.close k x).fifos j).bytes = (f.fifos j).bytes := by
  unfold Files.close
  by_cases hj : j = k
  · rw [hj, set_self]
    unfold Fifo.close
    dsimp only
    split
    · rename_i hnil
      exact (h hnil.1).symm
    · rfl
  · rw [set_ne hj]

theorem close_length_le (j : Nat) :
    ((f.close k x).fifos j).bytes.length ≤ (f.fifos j).bytes.length := by
  unfold Files.close
  by_cases hj : j = k
  · rw [hj, set_self]
    unfold Fifo.close
    dsimp only
    split
    · exact Nat.zero_le _
    · exact Nat.le_refl _
  · apply Nat.le_of_eq
    rw [set_ne hj]

end Ends

end OsCourse.Fifos
