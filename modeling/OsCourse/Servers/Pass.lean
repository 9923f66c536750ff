import Mathlib.Data.Fintype.EquivFin
import OsCourse.Lib.Calls
import OsCourse.Lib.Sweep
import OsCourse.Servers.SelectTable

/-! The passes of `process` over the table of the select server. The last client takes the
place of one that is removed, and the loop goes on behind that place. -/
namespace OsCourse.Servers
open Transition

/-- A server with a table of clients, as its function `process` runs. -/
structure Scanner where
  State : Type
  Label : Type
  init : State
  Step : State → Label → State → Prop
  /-- `process` is called with the size of the ready set, and there is room for a client that
  connects -/
  Called : State → Prop
  Returned : State → Prop
  /-- a step of `process` in which no `accept` fails -/
  Passes : Label → Prop
  /-- the connections in the table -/
  clients : State → List Nat
  Ready : State → Nat → Prop
  /-- the connection that a step reads from -/
  readFd : State → Label → Option Nat
  /-- the client that takes the place of one that is removed, if there is one, is not ready -/
  Kept : State → Label → Prop

def Scanner.Turn (v : Scanner) (a : v.State × List Nat) (l : v.Label) (b : v.State × List Nat) :
    Prop :=
  v.Step a.1 l b.1 ∧ v.Passes l ∧ b.2 = a.2 ++ (v.readFd a.1 l).toList

theorem Scanner.length_le (v : Scanner) {left : v.State → Nat}
    (hs : ∀ s l s', v.Step s l s' → v.Passes l → left s' + 1 ≤ left s)
    {a b : v.State × List Nat} {ls : List v.Label} (h : Runs v.Turn a ls b) :
    ls.length ≤ left a.1 := by
  have hle := @Calls.length_le _ _ v.Turn a b (fun _ => false) (fun c => left c.1) 0
    (fun _ _ _ hturn => hs _ _ _ hturn.1 hturn.2.1) ls h
  rw [Nat.zero_mul] at hle
  exact (Nat.le_add_left _ _).trans hle

namespace Select
open OsCourse.Compact Function Relay Sweep
variable {s s' : State} {l : Label}

def Label.Passes : Label → Prop
  | .noAccept | .accept _ | .skip | .read _ _ | .done => True
  | .socket _ | .fails | .select _ _ | .acceptFails => False

def readFd (s : State) : Label → Option Nat
  | .read _ _ =>
    match s.pc with
    | .scan i _ => some (s.clients i)
    | _ => none
  | _ => none

def Kept (s : State) : Label → Prop
  | .read _ .done => ∀ i nready, s.pc = .scan i nready → i + 1 < s.nclients →
      s.clients (s.nclients - 1) ∉ s.rset
  | _ => True

def scanner : Scanner where
  State := State
  Label := Label
  init := init
  Step := Step
  Called s := s.pc = .process s.rset.card ∧ (s.listenfd ∈ s.rset → s.nclients ≠ maxclients)
  Returned s := s.pc = .select
  Passes := Label.Passes
  clients s := entries s.clients s.nclients
  Ready s fd := fd ∈ s.rset
  readFd := readFd
  Kept := Kept

def accepts (s : State) : Nat := if s.listenfd ∈ s.rset then 1 else 0

def view (a : State × List Nat) : Sweep.State Nat :=
  match a.1.pc with
  | .process nready => ⟨entries a.1.clients a.1.nclients, nready - accepts a.1, a.2⟩
  | .scan i nready => ⟨(entries a.1.clients a.1.nclients).drop i, nready, a.2⟩
  | .main | .select | .exited => ⟨[], 0, a.2⟩

/-- What a pass keeps, beside the table, while the ready set is `rset`. -/
structure Passing (rset : Finset Nat) (a : State × List Nat) : Prop where
  inv : Inv a.1
  running : a.1.pc ≠ .main ∧ a.1.pc ≠ .exited
  same : a.1.rset = rset
  told : ∀ nready, a.1.pc = .process nready →
    a.1.rset ⊆ a.1.allset ∧ (a.1.listenfd ∈ a.1.rset → a.1.nclients ≠ maxclients)

/-- `select` reports descriptors of the bitmap that it is given. -/
def Told (s : State) : Prop := ∀ nready, s.pc = .process nready → s.rset ⊆ s.allset

theorem Step.not_process (h : Step s l s') (hpass : l.Passes) (nready : Int) :
    s'.pc ≠ .process nready := by
  intro hpc
  cases h with
  | accept =>
    dsimp only [State.fdSet, State.fdIsset, afterAccept] at hpc
    split at hpc <;> cases hpc
  | socket | fails | select | acceptFails => cases hpass
  | _ => cases hpc

theorem Step.told (h : Step s l s') : Told s' := by
  intro nready hpc
  cases h with
  | select _ hsub => exact hsub
  | accept hproc hlisten hfree hroom hadd =>
    exact absurd hpc ((Step.accept hproc hlisten hfree hroom hadd).not_process trivial nready)
  | _ => cases hpc

section View
variable {rs : List Nat}

theorem view_process (nready : Int) (hpc : s.pc = .process nready) :
    view (s, rs) = ⟨entries s.clients s.nclients, nready - accepts s, rs⟩ := by
  unfold view
  dsimp only
  rw [hpc]

theorem view_scan (i : Nat) (nready : Int) (hpc : s.pc = .scan i nready) :
    view (s, rs) = ⟨(entries s.clients s.nclients).drop i, nready, rs⟩ := by
  unfold view
  dsimp only
  rw [hpc]

theorem view_select (hpc : s.pc = .select) : view (s, rs) = ⟨[], 0, rs⟩ := by
  unfold view
  dsimp only
  rw [hpc]

theorem view_scan_cons (i : Nat) (nready : Int) (hpc : s.pc = .scan i nready)
    (hi : i < s.nclients) : view (s, rs) =
    ⟨s.clients i :: (entries s.clients s.nclients).drop (i + 1), nready, rs⟩ := by
  rw [view_scan i nready hpc, drop_entries hi]

end View

/-- A new descriptor was not in the bitmap, so `select` did not report it. -/
theorem Inv.not_reported (h : Inv s) (hsub : s.rset ⊆ s.allset) {cfd : Nat}
    (hfree : LowestFree s.opened cfd) : cfd ∉ s.rset := by
  intro hin
  have hall := hsub hin
  rw [h.allset, Finset.mem_insert] at hall
  cases hall with
  | inl hlisten => exact ne_listenfd hfree hlisten
  | inr hconn => exact not_mem_conns hfree hconn

theorem kept_close {i : Nat} {nready : Int} {request : EchoMsg} (hpc : s.pc = .scan i nready) :
    Kept s (.read request .done) ↔
      ∀ fd ∈ ((entries s.clients s.nclients).drop (i + 1)).getLast?, fd ∉ s.rset := by
  rw [forall_getLast_drop_entries]
  constructor
  · intro h
    exact h i nready hpc
  · intro h k m hk
    cases hpc.symm.trans hk
    exact h

theorem Step.running (h : Step s l s') (hpass : l.Passes) :
    s'.pc ≠ .main ∧ s'.pc ≠ .exited := by
  cases h with
  | socket | fails | select | acceptFails => cases hpass
  | accept =>
    dsimp only [State.fdSet, State.fdIsset, afterAccept]
    split <;> exact ⟨nofun, nofun⟩
  | _ => exact ⟨nofun, nofun⟩

theorem Step.passing {rset : Finset Nat} {rs rs' : List Nat} (hstep : Step s l s')
    (hpass : l.Passes) (h : Passing rset (s, rs)) : Passing rset (s', rs') := by
  have hrun := hstep.running hpass
  have hinv := (hstep.ready (h.inv.ready h.running.1 h.running.2)).inv hrun.1 hrun.2
  refine ⟨hinv, hrun, ?_, fun nready hpc => absurd hpc (hstep.not_process hpass nready)⟩
  have hsame := h.same
  cases hstep with
  | socket | fails | select | acceptFails => cases hpass
  | accept _ _ _ _ hadd =>
    obtain ⟨_, rfl⟩ := addClient_some hadd
    exact hsame
  | _ => exact hsame

theorem Step.move {rs rs' : List Nat} (hstep : Step s l s') (hpass : l.Passes)
    (h : Passing s.rset (s, rs)) (hreads : rs' = rs ++ (readFd s l).toList) :
    Move (· ∈ s.rset) (view (s, rs)) (Kept s l) (view (s', rs')) := by
  cases hstep with
  | socket | fails | select | acceptFails => cases hpass
  | @noAccept nready hpc hnone =>
    have hrs : rs' = rs := by simpa [readFd] using hreads
    have hzero : accepts s = 0 := if_neg hnone
    rw [hrs, view_process nready hpc, hzero, Nat.cast_zero, Int.sub_zero]
    exact Move.stay _
  | refuse hpc hlisten _ hfull =>
    have hroom := (h.told _ hpc).2 hlisten
    cases hfull with
    | inl hmax => exact absurd hmax hroom
    | inr hnone =>
      unfold addClient at hnone
      rw [if_neg hroom] at hnone
      cases hnone
  | @accept t nready cfd hpc hlisten hfree hroom hadd =>
    have hrs : rs' = rs := by simpa [readFd] using hreads
    have hone : accepts s = 1 := if_pos hlisten
    have hnew := h.inv.not_reported (h.told nready hpc).1 hfree
    obtain ⟨_, rfl⟩ := addClient_some hadd
    rw [hrs, view_process nready hpc, hone, Nat.cast_one]
    by_cases hlast : nready - 1 = 0
    · rw [view_select (by simp [State.fdSet, State.fdIsset, afterAccept, hlast])]
      exact Move.finish (Or.inr (le_of_eq hlast))
    · rw [view_scan 0 (nready - 1)
        (by simp [State.fdSet, State.fdIsset, afterAccept, hlast])]
      dsimp only [State.fdSet, State.fdIsset]
      rw [entries_add]
      exact Move.extend hnew
  | @skip i nready hpc hi _ hnot =>
    have hrs : rs' = rs := by simpa [readFd] using hreads
    rw [hrs, view_scan_cons i nready hpc hi]
    exact Move.skip hnot
  | @echo i nready request c hpc hi =>
    have hrs : rs' = rs ++ [s.clients i] := by simpa [readFd, hpc] using hreads
    rw [hrs, view_scan_cons i nready hpc hi]
    exact Move.keep
  | @close i nready request hpc hi hpos hread =>
    have hrs : rs' = rs ++ [s.clients i] := by simpa [readFd, hpc] using hreads
    rw [hrs, view_scan_cons i nready hpc hi, view_scan (i + 1) (nready - 1) rfl]
    dsimp only [remClient, State.fdClr, State.fdIsset]
    rw [drop_entries_remove]
    exact (Move.drop hpos fun _ => hread).congr (kept_close hpc)
  | @done i nready hpc hend =>
    have hrs : rs' = rs := by simpa [readFd] using hreads
    rw [hrs, view_scan i nready hpc, view_select rfl]
    apply Move.finish
    by_cases hi : i < s.nclients
    · exact Or.inr (not_lt.mp fun hpos => hend ⟨hi, hpos⟩)
    · exact Or.inl (drop_entries_eq_nil.mpr (not_lt.mp hi))

theorem Passing.turn {rset : Finset Nat} {a b : State × List Nat} (h : Passing rset a)
    (hturn : scanner.Turn a l b) :
    Passing rset b ∧ Move (· ∈ rset) (view a) (Kept a.1 l) (view b) := by
  obtain ⟨s, rs⟩ := a
  obtain ⟨s', rs'⟩ := b
  obtain ⟨hstep, hpass, hreads⟩ := hturn
  have hsame := h.same
  dsimp only at hsame
  rw [← hsame] at h ⊢
  exact ⟨Step.passing hstep hpass h, Step.move hstep hpass h hreads⟩

theorem Inv.countP_le (h : Inv s) :
    ((entries s.clients s.nclients).countP fun fd => fd ∈ s.rset) + accepts s ≤ s.rset.card := by
  have hnodup := h.table.nodup.filter fun fd => fd ∈ s.rset
  rw [List.countP_eq_length_filter, ← List.toFinset_card_of_nodup hnodup]
  have hsub : ((entries s.clients s.nclients).filter fun fd => fd ∈ s.rset).toFinset ⊆
      s.rset.erase s.listenfd := by
    intro fd hfd
    rw [List.mem_toFinset, List.mem_filter, decide_eq_true_eq] at hfd
    rw [Finset.mem_erase]
    refine ⟨?_, hfd.2⟩
    rintro rfl
    exact h.listenfd ((h.table.mem _).mp hfd.1)
  have hcard := Finset.card_le_card hsub
  unfold accepts
  split
  · rename_i hlisten
    have hpos : 0 < s.rset.card := Finset.card_pos.mpr ⟨_, hlisten⟩
    rw [Finset.card_erase_of_mem hlisten] at hcard
    omega
  · rename_i hnone
    rw [Finset.erase_eq_of_notMem hnone] at hcard
    exact hcard

theorem exists_lowestFree (opened : Finset Nat) : ∃ fd, LowestFree opened fd := by
  have hfree := Infinite.exists_notMem_finset opened
  refine ⟨Nat.find hfree, Nat.find_spec hfree, ?_⟩
  intro n hn
  exact not_not.mp (Nat.find_min hfree hn)

def turnsLeft (s : State) : Nat :=
  match s.pc with
  | .process _ => s.nclients + 3
  | .scan i _ => s.nclients - i + 1
  | .main | .select | .exited => 0

theorem Step.turnsLeft (h : Step s l s') (hpass : l.Passes) :
    turnsLeft s' + 1 ≤ turnsLeft s := by
  unfold Select.turnsLeft
  cases h with
  | socket | fails | select | acceptFails => cases hpass
  | noAccept hpc | refuse hpc =>
    rw [hpc]
    dsimp only [State.fdIsset]
    omega
  | @accept t nready cfd hpc _ _ _ hadd =>
    obtain ⟨_, rfl⟩ := addClient_some hadd
    rw [hpc]
    dsimp only [State.fdSet, State.fdIsset, afterAccept]
    by_cases hlast : nready - 1 = 0
    · rw [if_pos hlast]
      dsimp only
      omega
    · rw [if_neg hlast]
      dsimp only
      omega
  | skip hpc hi | echo hpc hi =>
    rw [hpc]
    dsimp only [State.fdIsset]
    omega
  | close hpc hi =>
    rw [hpc]
    dsimp only [remClient, State.fdClr, State.fdIsset]
    omega
  | done hpc =>
    rw [hpc]
    dsimp only
    omega

theorem Passing.goesOn {rset : Finset Nat} {rs : List Nat} (h : Passing rset (s, rs))
    (hpc : s.pc ≠ .select) : ∃ l b, scanner.Turn (s, rs) l b := by
  have hgoes : ∃ l s', Step s l s' ∧ l.Passes := by
    cases hat : s.pc with
    | main => exact absurd hat h.running.1
    | exited => exact absurd hat h.running.2
    | select => exact absurd hat hpc
    | process nready =>
      by_cases hlisten : s.listenfd ∈ s.rset
      · obtain ⟨cfd, hfree⟩ := exists_lowestFree s.opened
        have hroom := (h.told nready hat).2 hlisten
        have hadd : addClient s cfd = some _ := if_neg hroom
        exact ⟨_, _, Step.accept hat hlisten hfree hroom hadd, trivial⟩
      · exact ⟨_, _, Step.noAccept hat hlisten, trivial⟩
    | scan i nready =>
      by_cases hmore : i < s.nclients ∧ nready > 0
      · by_cases hready : s.clients i ∈ s.rset
        · exact ⟨.read EchoMsg.zeros .done, _, Step.close hat hmore.1 hmore.2 hready, trivial⟩
        · exact ⟨_, _, Step.skip hat hmore.1 hmore.2 hready, trivial⟩
      · exact ⟨_, _, Step.done hat hmore, trivial⟩
  obtain ⟨l, s', hstep, hpass⟩ := hgoes
  exact ⟨l, (s', _), hstep, hpass, rfl⟩

theorem called_passing {ls : List Label} (hrun : Runs Step init ls s) (hcall : scanner.Called s) :
    Passing s.rset (s, []) := by
  have hpc : s.pc = .process s.rset.card := hcall.1
  have hboth := hrun.invariant (P := fun a => Ready a ∧ Told a) ⟨⟨rfl, rfl⟩, nofun⟩
    fun _ _ _ h hstep => ⟨hstep.ready h.1, hstep.told⟩
  have hin : s.pc ≠ .main ∧ s.pc ≠ .exited := by
    rw [hpc]
    exact ⟨nofun, nofun⟩
  exact ⟨hboth.1.inv hin.1 hin.2, hin, rfl, fun nready h => ⟨hboth.2 nready h, hcall.2⟩⟩

end Select

end OsCourse.Servers
