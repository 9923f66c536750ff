import OsCourse.SemQueue.Supply

/-! What `queue_get` writes to the buffer of its caller. The steps are those of the model, with
the bytes that the callers put and the buffers that they offer. -/
namespace OsCourse.SemQueue.Buffers
open Function Transition

/-- The arguments of a call of `queue_put`. -/
structure Put where
  msg : Nat → UInt8
  size : Int32

/-- A call of `queue_get` that returned. `number` is history: how many nodes were removed before
the one that it took. `before` and `after` are the bytes from its buffer on. -/
structure Get where
  number : Nat
  capacity : Int32
  result : Int32
  written : List Nat
  before : Nat → UInt8
  after : Nat → UInt8

/-- `memcpy(dest, src, n)`, on the bytes from `dest` on. -/
def memcpy (dest : Nat → UInt8) (src : List UInt8) (n : Nat) (i : Nat) : UInt8 :=
  if i < n then src.getD i (dest i) else dest i

/-- The end of `queue_get`, after `sem_post`. -/
def copyOut (number : Nat) (capacity : Int32) (node : Node) (buf : Nat → UInt8) : Get :=
  let size := node.msgSize
  { number := number
    capacity := capacity
    result := size
    written := List.range node.msgSize.toInt.toNat
    before := buf
    after := memcpy buf node.msg node.msgSize.toInt.toNat }

/-- `puts` has the calls of `queue_put` in the order of the queue, and `gets` the calls of
`queue_get` as they returned. -/
structure State (T : Type*) where
  base : SemQueue.State T
  puts : List Put
  number : T → Nat
  gets : List Get

variable {T : Type*}

def State.fresh (elem space : Nat) : State T :=
  ⟨SemQueue.State.fresh elem space, [], fun _ => 0, []⟩

def Plain : Label T → Prop
  | .lockPut _ | .lockGet _ | .ret _ => False
  | _ => True

variable [DecidableEq T]

inductive Step : State T → Label T → State T → Prop
  | lockPut {s : State T} {b : SemQueue.State T} {t : T} {msg : Nat → UInt8} {size : Int32} :
      s.base.pc t = .putting msg size → SemQueue.Step s.base (.lockPut t) b →
      Step s (.lockPut t) { s with base := b, puts := s.puts ++ [⟨msg, size⟩] }
  | lockGet {s : State T} {b : SemQueue.State T} {t : T} : SemQueue.Step s.base (.lockGet t) b →
      Step s (.lockGet t)
        { s with base := b, number := update s.number t s.base.removed.length }
  | ret {s : State T} {b : SemQueue.State T} {t : T} {capacity : Int32} {node : Node}
      {buf : Nat → UInt8} :
      s.base.pc t = .copying capacity (some node) → SemQueue.Step s.base (.ret t) b →
      Step s (.ret t)
        { s with base := b, gets := s.gets ++ [copyOut (s.number t) capacity node buf] }
  | plain {s : State T} {b : SemQueue.State T} {l : Label T} : Plain l →
      SemQueue.Step s.base l b → Step s l { s with base := b }

theorem Step.base {s s' : State T} {l : Label T} (h : Step s l s') :
    SemQueue.Step s.base l s'.base := by
  cases h with
  | lockPut _ hbase | lockGet hbase | ret _ hbase | plain _ hbase => exact hbase

theorem exists_step {s : State T} {l : Label T} {b : SemQueue.State T}
    (h : SemQueue.Step s.base l b) : ∃ s', Step s l s' ∧ s'.base = b := by
  have hstep := h
  cases h with
  | lockPut hpc => exact ⟨_, Step.lockPut hpc hstep, rfl⟩
  | lockGet => exact ⟨_, Step.lockGet hstep, rfl⟩
  | ret hpc => exact ⟨_, @Step.ret _ _ _ _ _ _ _ (fun _ => 0) hpc hstep, rfl⟩
  | callPut | waitSpace | postElem | callGet | waitElem | postSpace =>
    exact ⟨_, Step.plain trivial hstep, rfl⟩

def NonnegArgs : Label T → Prop
  | .callPut _ _ size => 0 ≤ size.toInt
  | .callGet _ capacity => 0 ≤ capacity.toInt
  | _ => True

/-- A step with arguments that are not negative, of a queue whose semaphores count the nodes. -/
def UseStep [Fintype T] (s : State T) (l : Label T) (s' : State T) : Prop :=
  Step s l s' ∧ NonnegArgs l ∧ Counted s.base l

/-- What is promised to a call of `queue_get` that gets the message of `p`. -/
structure Get.Respects (g : Get) (p : Put) : Prop where
  inside : ∀ i ∈ g.written, (i : Int) < g.capacity.toInt
  length_le : (g.written.length : Int) ≤ g.capacity.toInt
  result : p.size.toInt ≤ g.capacity.toInt → g.result = p.size
  bytes : p.size.toInt ≤ g.capacity.toInt → ∀ i : Nat, i < p.size.toInt → g.after i = p.msg i
  kept : ∀ i : Nat, p.size.toInt ≤ i → g.after i = g.before i

/-- The call copied the message of `p`. -/
structure Get.Copies (g : Get) (p : Put) : Prop where
  result : g.result = p.size
  written : g.written = List.range p.size.toInt.toNat
  after : g.after = memcpy g.before (nodeCreate p.msg p.size).msg p.size.toInt.toNat

theorem copyOut_copies (number : Nat) (capacity : Int32) (p : Put) (buf : Nat → UInt8) :
    (copyOut number capacity (nodeCreate p.msg p.size) buf).Copies p := ⟨rfl, rfl, rfl⟩

theorem nodeCreate_getD {msg : Nat → UInt8} {size : Int32} {i : Nat} {d : UInt8}
    (hi : i < size.toInt.toNat) : (nodeCreate msg size).msg.getD i d = msg i := by
  rw [nodeCreate, List.getD_eq_getElem?_getD, List.getElem?_map, List.getElem?_range hi]
  rfl

/-- The copy is as long as the message, whatever the capacity. -/
theorem Get.Copies.respects_iff {g : Get} {p : Put} (h : g.Copies p)
    (hcapacity : 0 ≤ g.capacity.toInt) :
    g.Respects p ↔ p.size.toInt ≤ g.capacity.toInt := by
  have hlength : g.written.length = p.size.toInt.toNat := by
    rw [h.written, List.length_range]
  constructor
  · intro hr
    have hle := hr.length_le
    omega
  · intro hle
    refine ⟨?_, ?_, fun _ => h.result, ?_, ?_⟩
    · intro i hi
      rw [h.written, List.mem_range] at hi
      omega
    · omega
    · intro _ i hi
      have hlt : i < p.size.toInt.toNat := by omega
      rw [h.after, memcpy, if_pos hlt, nodeCreate_getD hlt]
    · intro i hi
      have hge : ¬i < p.size.toInt.toNat := by omega
      rw [h.after, memcpy, if_neg hge]

/-- A call of `queue_get` has a capacity that is not negative, and the node that it took is that
of the put of its number. -/
def CallOk (puts : List Put) (number : Nat) : Pc → Prop
  | .getCalled capacity | .getting capacity => 0 ≤ capacity.toInt
  | .got capacity node | .copying capacity node => 0 ≤ capacity.toInt ∧
      ∃ p, puts[number]? = some p ∧ node = some (nodeCreate p.msg p.size)
  | _ => True

theorem getElem?_snoc {puts : List Put} {n : Nat} {p q : Put} (h : puts[n]? = some p) :
    (puts ++ [q])[n]? = some p := by
  have hlt := (List.getElem?_eq_some_iff.mp h).1
  rw [List.getElem?_append_left hlt]
  exact h

theorem CallOk.snoc {puts : List Put} {number : Nat} {pc : Pc} {q : Put}
    (h : CallOk puts number pc) : CallOk (puts ++ [q]) number pc := by
  cases pc with
  | got capacity node | copying capacity node =>
    obtain ⟨hcapacity, p, hp, hnode⟩ := h
    exact ⟨hcapacity, p, getElem?_snoc hp, hnode⟩
  | idle | putCalled | putting | put => trivial
  | getCalled | getting => exact h

theorem calls_update {puts : List Put} {number : T → Nat} {pcs : T → Pc} {t : T} {pc : Pc}
    (h : ∀ u, CallOk puts (number u) (pcs u)) (hpc : CallOk puts (number t) pc) :
    ∀ u, CallOk puts (number u) (update pcs t pc u) := by
  intro u
  by_cases hu : u = t
  · rw [hu, update_self]
    exact hpc
  · rw [update_of_ne hu]
    exact h u

theorem plain_calls {s : State T} {b : SemQueue.State T} {l : Label T} (hl : Plain l)
    (h : SemQueue.Step s.base l b) (ha : NonnegArgs l)
    (hcalls : ∀ t, CallOk s.puts (s.number t) (s.base.pc t)) :
    b.inserted = s.base.inserted ∧ ∀ t, CallOk s.puts (s.number t) (b.pc t) := by
  cases h with
  | callPut | waitSpace | postElem => exact ⟨rfl, calls_update hcalls trivial⟩
  | callGet => exact ⟨rfl, calls_update hcalls ha⟩
  | @waitElem t _ _ hpc | @postSpace t _ _ hpc =>
    have hcall := hcalls t
    rw [hpc] at hcall
    exact ⟨rfl, calls_update hcalls hcall⟩
  | lockPut | lockGet | ret => exact hl.elim

section Runs
variable [Fintype T] {s s' : State T} {l : Label T} {ls : List (Label T)} {maxSize : Nat}

/-- The nodes are those of the puts, in their order, and every call goes with its own. -/
structure Paired (maxSize : Nat) (s : State T) : Prop where
  sound : Sound maxSize s.base
  inserted : s.base.inserted = s.puts.map fun p => nodeCreate p.msg p.size
  calls : ∀ t, CallOk s.puts (s.number t) (s.base.pc t)
  gets : ∀ g ∈ s.gets, 0 ≤ g.capacity.toInt ∧ ∃ p, s.puts[g.number]? = some p ∧ g.Copies p

theorem fresh_paired (elem : Nat) : Paired maxSize (State.fresh elem maxSize : State T) where
  sound := fresh_sound elem
  inserted := rfl
  calls := fun _ => trivial
  gets := fun g hg => by cases hg

theorem Paired.next (h : Paired maxSize s) {n : Node} {rest : List Node}
    (hhead : s.base.head = n :: rest) :
    ∃ p, s.puts[s.base.removed.length]? = some p ∧ n = nodeCreate p.msg p.size := by
  have hfifo := h.sound.fifo
  rw [hhead, h.inserted] at hfifo
  have hget := congrArg (fun l => l[s.base.removed.length]?) hfifo
  rw [List.getElem?_append_right (by simp), List.length_map, Nat.sub_self, List.getElem?_map,
    List.getElem?_cons_zero] at hget
  obtain ⟨p, hp, hnode⟩ := Option.map_eq_some_iff.mp hget
  exact ⟨p, hp, hnode.symm⟩

theorem UseStep.paired (h : UseStep s l s') (hp : Paired maxSize s) : Paired maxSize s' := by
  obtain ⟨hstep, hargs, hcounted⟩ := h
  have hsound : Sound maxSize s'.base := hstep.base.sound hcounted hp.sound
  cases hstep with
  | lockPut hpc hbase =>
    cases hbase with
    | lockPut hpc' =>
      cases hpc.symm.trans hpc'
      refine ⟨hsound, ?_, calls_update (fun u => (hp.calls u).snoc) trivial, ?_⟩
      · rw [List.map_append, ← hp.inserted]
        rfl
      · intro g hg
        obtain ⟨hcapacity, p, hput, hcopies⟩ := hp.gets g hg
        exact ⟨hcapacity, p, getElem?_snoc hput, hcopies⟩
  | @lockGet b t hbase =>
    cases hbase with
    | lockGet hpc hremove =>
      obtain ⟨n, hhead, rfl⟩ := hp.sound.removes hpc hremove
      obtain ⟨p, hput, rfl⟩ := hp.next hhead
      have hcall := hp.calls t
      rw [hpc] at hcall
      refine ⟨hsound, hp.inserted, ?_, hp.gets⟩
      intro u
      by_cases hu : u = t
      · rw [hu]
        dsimp only
        rw [update_self, update_self]
        exact ⟨hcall, p, hput, rfl⟩
      · dsimp only
        rw [update_of_ne hu, update_of_ne hu]
        exact hp.calls u
  | @ret b t capacity node buf hpc hbase =>
    have hcall := hp.calls t
    rw [hpc] at hcall
    obtain ⟨hcapacity, p, hput, hnode⟩ := hcall
    cases hbase with
    | ret hpc' =>
      refine ⟨hsound, hp.inserted, calls_update hp.calls trivial, ?_⟩
      intro g hg
      cases List.mem_append.mp hg with
      | inl hold => exact hp.gets g hold
      | inr hnew =>
        cases hnode
        rw [List.mem_singleton.mp hnew]
        exact ⟨hcapacity, p, hput, copyOut_copies (s.number t) capacity p buf⟩
  | plain hl hbase =>
    obtain ⟨hinserted, hcalls⟩ := plain_calls hl hbase hargs hp.calls
    exact ⟨hsound, hinserted.trans hp.inserted, hcalls, hp.gets⟩

theorem counted_of_zero
    (hrun : Runs (fun a l b => Step a l b ∧ NonnegArgs l) (State.fresh 0 maxSize) ls s) :
    Runs UseStep (State.fresh 0 maxSize) ls s := by
  have hinit : Sound maxSize (SemQueue.State.fresh 0 maxSize : SemQueue.State T) ∧
      Accounted 0 (SemQueue.State.fresh 0 maxSize : SemQueue.State T) :=
    ⟨fresh_sound 0, fresh_accounted⟩
  refine (hrun.mono_of (P := fun a => Sound maxSize a.base ∧ Accounted 0 a.base) hinit ?_).1
  rintro a l b ⟨hs, ha⟩ ⟨hstep, hargs⟩
  have hcounted := hstep.base.counted_of_accounted ha
  exact ⟨⟨hstep, hargs, hcounted⟩, hstep.base.sound hcounted hs, hstep.base.accounted hs ha⟩

theorem paired_run {elem : Nat} (hrun : Runs UseStep (State.fresh elem maxSize) ls s) :
    Paired maxSize s :=
  hrun.invariant (fresh_paired elem) fun _ _ _ hp hstep => hstep.paired hp

/-- Each call of `queue_get` gets the message of the put that its turn pairs it with, and keeps
to its buffer exactly when that message is no longer than the buffer. -/
theorem get_respects_iff {elem : Nat} (hrun : Runs UseStep (State.fresh elem maxSize) ls s)
    {g : Get} (hg : g ∈ s.gets) : ∃ p, s.puts[g.number]? = some p ∧
      (g.Respects p ↔ p.size.toInt ≤ g.capacity.toInt) := by
  obtain ⟨hcapacity, p, hput, hcopies⟩ := (paired_run hrun).gets g hg
  exact ⟨p, hput, hcopies.respects_iff hcapacity⟩

def letters (i : Nat) : UInt8 := if i = 0 then 97 else 98

theorem putGet_run (size capacity : Int32) (hs : 0 ≤ size.toInt) (hc : 0 ≤ capacity.toInt) :
    ∃ s, Runs UseStep (State.fresh 1 1 : State Unit)
      [.callPut () letters size, .waitSpace (), .lockPut (), .postElem (), .callGet () capacity,
        .waitElem (), .lockGet (), .postSpace (), .ret ()] s ∧
      s.puts = [⟨letters, size⟩] ∧
      s.gets = [copyOut 0 capacity (nodeCreate letters size) fun _ => 0] := by
  have hcall : UseStep (State.fresh 1 1 : State Unit) (.callPut () letters size) _ :=
    ⟨Step.plain trivial (SemQueue.Step.callPut rfl), hs, trivial⟩
  have hspace := (Runs.single hcall).snoc (l := Label.waitSpace ())
    ⟨Step.plain trivial (SemQueue.Step.waitSpace rfl rfl), trivial, trivial⟩
  have hlocked := hspace.snoc (l := Label.lockPut ())
    ⟨Step.lockPut rfl (SemQueue.Step.lockPut rfl), trivial, trivial⟩
  have hput := hlocked.snoc (l := Label.postElem ())
    ⟨Step.plain trivial (SemQueue.Step.postElem rfl), trivial, trivial⟩
  have hget := hput.snoc (l := Label.callGet () capacity)
    ⟨Step.plain trivial (SemQueue.Step.callGet rfl), hc, trivial⟩
  have helem := hget.snoc (l := Label.waitElem ())
    ⟨Step.plain trivial (SemQueue.Step.waitElem rfl rfl), trivial, Nat.zero_lt_one⟩
  have htaken := helem.snoc (l := Label.lockGet ())
    ⟨Step.lockGet (SemQueue.Step.lockGet rfl rfl), trivial, trivial⟩
  have hposted := htaken.snoc (l := Label.postSpace ())
    ⟨Step.plain trivial (SemQueue.Step.postSpace rfl), trivial, trivial⟩
  have hreturned := hposted.snoc (l := Label.ret ())
    ⟨@Step.ret _ _ _ _ _ _ _ (fun _ => 0) rfl (SemQueue.Step.ret rfl), trivial, trivial⟩
  exact ⟨_, hreturned, rfl, rfl⟩

/-- Two bytes, with room for two. -/
theorem get_respects_iff_two :
    (copyOut 0 2 (nodeCreate letters 2) fun _ => 0).Respects ⟨letters, 2⟩ := by
  obtain ⟨s, hrun, hputs, hgets⟩ := putGet_run 2 2 (by decide) (by decide)
  have hmem : copyOut 0 2 (nodeCreate letters 2) (fun _ => 0) ∈ s.gets := by
    rw [hgets]
    exact List.mem_singleton_self _
  obtain ⟨p, hput, hiff⟩ := get_respects_iff hrun hmem
  rw [hputs] at hput
  cases hput
  exact hiff.mpr (by decide)

/-- Two bytes, with room for one. -/
theorem get_overruns : ¬∀ (elem maxSize : Nat) (ls : List (Label Unit)) (s : State Unit),
    Runs UseStep (State.fresh elem maxSize) ls s →
    ∀ g ∈ s.gets, ∃ p, s.puts[g.number]? = some p ∧ g.Respects p := by
  intro hall
  obtain ⟨s, hrun, hputs, hgets⟩ := putGet_run 2 1 (by decide) (by decide)
  have hmem : copyOut 0 1 (nodeCreate letters 2) (fun _ => 0) ∈ s.gets := by
    rw [hgets]
    exact List.mem_singleton_self _
  obtain ⟨p, -, hrespects⟩ := hall 1 1 _ s hrun _ hmem
  exact absurd hrespects.length_le (by decide)

end Runs

end OsCourse.SemQueue.Buffers
