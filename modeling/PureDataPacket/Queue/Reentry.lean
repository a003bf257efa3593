/-
# `PureDataPacket.Queue.Reentry` — what holds when no callback loop is entered twice

As long as no callback of a callback loop enters a callback loop, the task of the
callback that is running is the only one that has begun and is not retired.  Then
the counters stay in order, the slots between them are those of their tasks, and
each task is called back once, in the order of the ring.

| | |
| :-- | :-- |
| `enter` | a call begins while no callback of a loop is running |
| `push` | a call begins or ends that has nothing to do with the callback loop |
| `restack` | steps that leave the ring where it is |
| `CalledOnce` | callbacks and process methods are called once, in the order of the ring |
-/
import PureDataPacket.Queue.Nested
import Mathlib.Data.List.Range

namespace PureDataPacket

namespace NestedQueue

/-- A frame of a callback loop, or one that enters it again. -/
def inLoop (f : Frame) : Bool :=
  f = .advance ∨ f = .loop ∨ f = .again

/-- What the slot of a task has, or had. -/
def entry (s : NestedQueue) (j : Nat) : Option QueueItem :=
  s.tasks[j]?.map fun item => if j ∈ s.struck then item.struck else item

/-- The callback loop calls something for this task. -/
def calls (s : NestedQueue) (j : Nat) : Bool := (s.entry j).any QueueItem.callback

/-- The worker calls something for this task. -/
def processes (s : NestedQueue) (j : Nat) : Bool := (s.entry j).any QueueItem.process

/-- What holds of every state. -/
structure Valid (k : Nat) (s : NestedQueue) : Prop where
  head_eq : s.q.head = toInt32 s.tasks.length
  curr_eq : s.q.curr = toInt32 s.curr
  tail_eq : s.q.tail = toInt32 s.tail
  begun_le : s.begun ≤ s.curr
  ran_le : s.ran ≤ s.tasks.length
  length_lt : s.tasks.length < s.tail + 2 ^ k
  slots_eq : ∀ j item, s.begun ≤ j → s.entry j = some item → s.q.slots (j % 2 ^ k) = item
  id_eq : ∀ j item, s.entry j = some item → item.id = j
  oneLoop : s.stack.Pairwise fun f g => inLoop f = true → g ≠ .advance
  called_eq : s.called = (List.range s.begun).filter s.calls
  processed_eq : s.processed = (List.range s.ran).filter s.processes
  struck_lt : ∀ j ∈ s.struck, j < s.tasks.length

theorem tail_le_begun (s : NestedQueue) : s.tail ≤ s.begun := by
  unfold begun
  split <;> omega

theorem curr_le_ran (s : NestedQueue) : s.curr ≤ s.ran := by
  unfold ran
  split <;> omega

theorem begun_of_mem {s : NestedQueue} (h : .advance ∈ s.stack) : s.begun = s.tail + 1 := if_pos h

theorem begun_of_not_mem {s : NestedQueue} (h : .advance ∉ s.stack) : s.begun = s.tail := if_neg h

namespace Valid

variable {k : Nat} {s : NestedQueue}

theorem tail_le (h : Valid k s) : s.tail ≤ s.curr := (tail_le_begun s).trans h.begun_le

theorem curr_le (h : Valid k s) : s.curr ≤ s.tasks.length := (curr_le_ran s).trans h.ran_le

theorem full_iff (h : Valid k s) (hk : 1 ≤ k) (hk' : k ≤ 32) :
    pdpProcqueueFull k s.q = true ↔ s.tasks.length + 1 = s.tail + 2 ^ k :=
  pdpProcqueueFull_iff hk hk' h.tail_eq h.head_eq (h.tail_le.trans h.curr_le) h.length_lt

theorem hasData_iff (h : Valid k s) (hk' : k ≤ 32) :
    hasData k s.q = true ↔ s.curr < s.tasks.length := by
  have hlt := h.length_lt
  have htail := h.tail_le
  exact hasData_iff_lt hk' h.curr_eq h.head_eq h.curr_le (by omega)

theorem hasFinished_iff (h : Valid k s) (hk' : k ≤ 32) :
    hasFinished k s.q = true ↔ s.tail < s.curr :=
  hasFinished_iff_lt hk' h.curr_eq h.tail_eq h.tail_le (h.curr_le.trans_lt h.length_lt)

theorem entry_eq_some (j : Nat) (hj : j < s.tasks.length) : ∃ item, s.entry j = some item :=
  ⟨_, by rw [entry, List.getElem?_eq_getElem hj]; rfl⟩

/-- What the worker finds at `curr`. -/
theorem currItem_eq (h : Valid k s) (hk' : k ≤ 32) (hc : s.curr < s.tasks.length) :
    s.entry s.curr = some (s.currItem k) := by
  obtain ⟨item, hitem⟩ := entry_eq_some s.curr hc
  rw [hitem, currItem, h.curr_eq, slotOf_toInt32 hk', h.slots_eq _ _ h.begun_le hitem]

/-- What the callback loop finds at `tail`. -/
theorem tailItem_eq (h : Valid k s) (hk' : k ≤ 32) (hloop : .advance ∉ s.stack)
    (ht : s.tail < s.curr) : s.entry s.tail = some (s.tailItem k) := by
  obtain ⟨item, hitem⟩ := entry_eq_some s.tail (ht.trans_le h.curr_le)
  rw [hitem, tailItem, h.tail_eq, slotOf_toInt32 hk',
    h.slots_eq _ _ (begun_of_not_mem hloop).le hitem]

theorem restack (h : Valid k s) {stack : List Frame}
    (hadvance : .advance ∈ stack ↔ .advance ∈ s.stack)
    (hone : stack.Pairwise fun f g => inLoop f = true → g ≠ .advance) (useThread unfinished : Bool)
    (cells : Nat → Int) :
    Valid k { s with
      q := { s.q with useThread := useThread }
      cells := cells
      stack := stack
      unfinished := unfinished } := by
  have hbegun : (if .advance ∈ stack then s.tail + 1 else s.tail) = s.begun := by
    unfold begun
    exact if_congr hadvance rfl rfl
  refine ⟨h.head_eq, h.curr_eq, h.tail_eq, hbegun.trans_le h.begun_le, h.ran_le, h.length_lt,
    fun j item hj => h.slots_eq j item (hbegun.symm.trans_le hj), h.id_eq, hone, ?_,
    h.processed_eq, h.struck_lt⟩
  show s.called = (List.range (if .advance ∈ stack then s.tail + 1 else s.tail)).filter s.calls
  rw [hbegun]
  exact h.called_eq

theorem push (h : Valid k s) {l : List Frame} (hframes : ∀ f ∈ l, inLoop f = false) :
    Valid k { s with stack := l ++ s.stack } := by
  refine h.restack ?_ ?_ s.q.useThread s.unfinished s.cells
  · rw [List.mem_append]
    exact or_iff_right fun hmem => by cases hframes _ hmem
  · rw [List.pairwise_append]
    refine ⟨?_, h.oneLoop, fun f hf _ _ hl => ?_⟩
    · exact List.pairwise_of_forall_mem_list fun f hf _ _ hl => by
        rw [hframes f hf] at hl
        cases hl
    · rw [hframes f hf] at hl
      cases hl

theorem enter (h : Valid k s) {l : List Frame} (hframes : .advance ∉ l)
    (hfree : .advance ∉ s.stack) : Valid k { s with stack := l ++ s.stack } := by
  have hnone : .advance ∉ l ++ s.stack := fun hmem =>
    (List.mem_append.mp hmem).elim hframes hfree
  refine h.restack (iff_of_false hnone hfree) ?_ s.q.useThread s.unfinished s.cells
  exact List.pairwise_of_forall_mem_list fun _ _ g hg _ he => hnone (he ▸ hg)

theorem leave (h : Valid k s) {f : Frame} {rest : List Frame} (hstack : s.stack = f :: rest)
    (hf : f ≠ .advance) (useThread unfinished : Bool) :
    Valid k { s with
      q := { s.q with useThread := useThread }
      stack := rest
      unfinished := unfinished } := by
  have hone := h.oneLoop
  rw [hstack] at hone
  refine h.restack ?_ (List.pairwise_cons.mp hone).2 useThread unfinished s.cells
  rw [hstack, List.mem_cons]
  exact (or_iff_right hf.symm).symm

/-- Below a frame of a callback loop no callback is running. -/
theorem not_mem_of_inLoop (h : Valid k s) {f : Frame} {rest : List Frame}
    (hstack : s.stack = f :: rest) (hf : inLoop f = true) : .advance ∉ rest := by
  have hone := h.oneLoop
  rw [hstack] at hone
  exact fun hmem => (List.pairwise_cons.mp hone).1 _ hmem hf rfl

/-- At the top of the loop no callback of it is running. -/
theorem not_mem_of_top (h : Valid k s) {f : Frame} {rest : List Frame}
    (hstack : s.stack = f :: rest) (hf : inLoop f = true) (hne : f ≠ .advance) :
    .advance ∉ s.stack := by
  rw [hstack]
  exact fun hmem => (List.mem_cons.mp hmem).elim (fun he => hne he.symm)
    (h.not_mem_of_inLoop hstack hf)

end Valid

theorem Valid.init {k : Nat} : Valid k init where
  head_eq := QueueSystem.toInt32_zero.symm
  curr_eq := QueueSystem.toInt32_zero.symm
  tail_eq := QueueSystem.toInt32_zero.symm
  begun_le := le_rfl
  ran_le := le_rfl
  length_lt := by
    show 0 < 0 + 2 ^ k
    positivity
  slots_eq := fun _ _ _ h => by cases h
  id_eq := fun _ _ h => by cases h
  oneLoop := List.Pairwise.nil
  called_eq := rfl
  processed_eq := rfl
  struck_lt := fun _ h => by cases h

/-! ## The steps -/

section Steps

variable {k : Nat} {s s' : NestedQueue}

theorem entry_append (s : NestedQueue) (item : QueueItem) {j : Nat} (hj : j < s.tasks.length) :
    entry { s with tasks := s.tasks ++ [item] } j = s.entry j := by
  show (s.tasks ++ [item])[j]?.map _ = s.tasks[j]?.map _
  rw [List.getElem?_append_left hj]

theorem entry_new (s : NestedQueue) (item : QueueItem) (h : ∀ j ∈ s.struck, j < s.tasks.length) :
    entry { s with tasks := s.tasks ++ [item] } s.tasks.length = some item := by
  show (s.tasks ++ [item])[s.tasks.length]?.map _ = some item
  rw [List.getElem?_append_right le_rfl, Nat.sub_self]
  exact congrArg some (if_neg fun hmem => Nat.lt_irrefl _ (h _ hmem))

/-- An entry is an old one or the new one. -/
theorem entry_append_cases {j : Nat} (h : ∀ j ∈ s.struck, j < s.tasks.length)
    (item other : QueueItem) (hother : entry { s with tasks := s.tasks ++ [item] } j = some other) :
    (j < s.tasks.length ∧ s.entry j = some other) ∨ (j = s.tasks.length ∧ other = item) := by
  rcases Nat.lt_trichotomy j s.tasks.length with hj | rfl | hj
  · rw [entry_append s item hj] at hother
    exact .inl ⟨hj, hother⟩
  · rw [entry_new s item h] at hother
    exact .inr ⟨rfl, (Option.some.inj hother).symm⟩
  · have hnone : (s.tasks ++ [item])[j]? = none :=
      List.getElem?_eq_none (by rw [List.length_append, List.length_singleton]; omega)
    change (s.tasks ++ [item])[j]?.map _ = some other at hother
    rw [hnone] at hother
    cases hother

theorem Valid.queue (h : Valid k s) (hk : 1 ≤ k) (hk' : k ≤ 32) (item : QueueItem)
    (hitem : item.id = s.tasks.length) (hfull : pdpProcqueueFull k s.q = false)
    (cells : Nat → Int) :
    Valid k { s with
      q := { s.q with
        slots := Function.update s.q.slots (slotOf k s.q.head) item
        head := toInt32 (s.q.head + 1) }
      cells := cells
      tasks := s.tasks ++ [item] } := by
  have hroom : s.tasks.length + 1 ≠ s.tail + 2 ^ k := by
    rw [ne_eq, ← h.full_iff hk hk', hfull]
    exact Bool.false_ne_true
  have hlt := h.length_lt
  have hran := h.ran_le
  have hcurr := curr_le_ran s
  have hbegun := h.begun_le
  have htail := tail_le_begun s
  have hlength : (s.tasks ++ [item]).length = s.tasks.length + 1 := by simp
  have hcases := fun j other => entry_append_cases (j := j) (s := s) h.struck_lt item other
  refine ⟨?_, h.curr_eq, h.tail_eq, h.begun_le, ?_, ?_, ?_, ?_, h.oneLoop, ?_, ?_, ?_⟩
  · show toInt32 (s.q.head + 1) = toInt32 (s.tasks ++ [item]).length
    rw [h.head_eq, hlength]
    exact QueueSystem.toInt32_succ _
  · show s.ran ≤ (s.tasks ++ [item]).length
    omega
  · show (s.tasks ++ [item]).length < s.tail + 2 ^ k
    omega
  · intro j other hj hother
    have hj : s.begun ≤ j := hj
    show Function.update s.q.slots (slotOf k s.q.head) item (j % 2 ^ k) = other
    rw [h.head_eq, slotOf_toInt32 hk']
    rcases hcases j other hother with ⟨hold, hentry⟩ | ⟨rfl, rfl⟩
    · have hne : j % 2 ^ k ≠ s.tasks.length % 2 ^ k := by
        intro heq
        have := slot_inj (by omega : s.tail ≤ j) (by omega) (by omega) hlt heq
        omega
      rw [Function.update_of_ne hne]
      exact h.slots_eq j other hj hentry
    · exact Function.update_self ..
  · intro j other hother
    rcases hcases j other hother with ⟨_, hentry⟩ | ⟨rfl, rfl⟩
    · exact h.id_eq j other hentry
    · exact hitem
  · show s.called = (List.range s.begun).filter _
    rw [h.called_eq]
    refine List.filter_congr fun j hj => ?_
    have hj : j < s.tasks.length := by have := List.mem_range.mp hj; omega
    exact congrArg (fun e => Option.any QueueItem.callback e) (entry_append s item hj).symm
  · show s.processed = (List.range s.ran).filter _
    rw [h.processed_eq]
    refine List.filter_congr fun j hj => ?_
    have hj : j < s.tasks.length := by have := List.mem_range.mp hj; omega
    exact congrArg (fun e => Option.any QueueItem.process e) (entry_append s item hj).symm
  · intro j hj
    show j < (s.tasks ++ [item]).length
    have := h.struck_lt j hj
    omega

theorem inLoop_methods (mode : Mode) (item : QueueItem) :
    ∀ f ∈ methods mode item, inLoop f = false := by
  intro f hf
  unfold methods at hf
  split at hf
  · cases hf
  · rw [List.mem_singleton.mp hf]
    rfl

theorem pdpProcqueueAdd_skip (q : ProcQueue) (cells : Nat → Int) (item : QueueItem)
    (h : q.useThread = false ∨ pdpProcqueueFull k q = true) :
    ∃ mode, mode ≠ .queued ∧
      pdpProcqueueAdd k q cells item = (mode, q, setQueueId cells item.queueId (-1)) := by
  unfold pdpProcqueueAdd
  by_cases hthread : q.useThread = true
  · have hfull : pdpProcqueueFull k q = true :=
      h.resolve_left fun hoff => by rw [hoff] at hthread; cases hthread
    rw [if_neg (by simp [hthread]), if_pos (by simp [hfull])]
    exact ⟨.full, by decide, rfl⟩
  · rw [if_pos (by simp [hthread])]
    exact ⟨.direct, by decide, rfl⟩

/-- A task that is not queued leaves the ring alone. -/
theorem add_skipped (s : NestedQueue) (item : QueueItem)
    (h : s.q.useThread = false ∨ pdpProcqueueFull k s.q = true) :
    ∃ mode, s.add k item = { s with
      cells := setQueueId s.cells item.queueId (-1)
      stack := methods mode { item with id := s.tasks.length } ++ s.stack } := by
  obtain ⟨mode, hmode, hadd⟩ :=
    pdpProcqueueAdd_skip s.q s.cells { item with id := s.tasks.length } h
  refine ⟨mode, ?_⟩
  unfold NestedQueue.add
  simp only [hadd, hmode, if_false]

theorem add_queued (s : NestedQueue) (item : QueueItem) (hthread : s.q.useThread = true)
    (hfull : pdpProcqueueFull k s.q = false) :
    s.add k item = { s with
      q := { s.q with
        slots := Function.update s.q.slots (slotOf k s.q.head) { item with id := s.tasks.length }
        head := toInt32 (s.q.head + 1) }
      cells := setQueueId s.cells item.queueId (slotOf k s.q.head)
      tasks := s.tasks ++ [{ item with id := s.tasks.length }] } := by
  have hadd : pdpProcqueueAdd k s.q s.cells { item with id := s.tasks.length } =
      (.queued, { s.q with
        slots := Function.update s.q.slots (slotOf k s.q.head) { item with id := s.tasks.length }
        head := toInt32 (s.q.head + 1) },
      setQueueId s.cells item.queueId (slotOf k s.q.head)) := by
    unfold pdpProcqueueAdd
    rw [if_neg (by simp [hthread]), if_neg (by simp [hfull])]
  unfold NestedQueue.add
  simp only [hadd, if_true]
  rfl

theorem queued_or_skipped (k : Nat) (q : ProcQueue) :
    (q.useThread = true ∧ pdpProcqueueFull k q = false) ∨
      (q.useThread = false ∨ pdpProcqueueFull k q = true) := by
  cases q.useThread <;> cases pdpProcqueueFull k q <;> simp

theorem Valid.add (h : Valid k s) (hk : 1 ≤ k) (hk' : k ≤ 32) (item : QueueItem) :
    Valid k (s.add k item) := by
  rcases queued_or_skipped k s.q with ⟨hthread, hfull⟩ | hskip
  · rw [add_queued s item hthread hfull]
    exact h.queue hk hk' _ rfl hfull _
  · obtain ⟨mode, hadd⟩ := add_skipped s item hskip
    rw [hadd]
    have hpush := h.push (inLoop_methods mode { item with id := s.tasks.length })
    exact hpush.restack Iff.rfl hpush.oneLoop s.q.useThread s.unfinished _

/-- The list of the calls goes on when a task begins. -/
theorem filter_range_succ (p : Nat → Bool) (n : Nat) :
    (List.range (n + 1)).filter p = (List.range n).filter p ++ if p n then [n] else [] := by
  rw [List.range_succ, List.filter_append, List.filter_singleton, Bool.cond_eq_ite]

theorem Valid.callNext (h : Valid k s) (hk' : k ≤ 32) {rest : List Frame}
    (hstack : s.stack = .loop :: rest) (hdata : hasFinished k s.q = true) :
    Valid k (s.callNext k) := by
  have hnone := h.not_mem_of_top hstack rfl (by decide)
  have hlt := (h.hasFinished_iff hk').mp hdata
  have hitem := h.tailItem_eq hk' hnone hlt
  have hbegun := begun_of_not_mem hnone
  have hadvance : (.advance : Frame) ∈ (s.callNext k).stack := by
    unfold NestedQueue.callNext
    dsimp only
    split <;> simp
  have hbegun' : (s.callNext k).begun = s.tail + 1 := begun_of_mem hadvance
  refine ⟨h.head_eq, h.curr_eq, h.tail_eq, hbegun'.trans_le hlt, h.ran_le, h.length_lt,
    fun j item hj => h.slots_eq j item ?_, h.id_eq, ?_, ?_, h.processed_eq, h.struck_lt⟩
  · rw [hbegun'] at hj
    rw [hbegun]
    exact Nat.le_of_succ_le hj
  · have hone : (Frame.advance :: s.stack).Pairwise fun f g => inLoop f = true → g ≠ .advance :=
      List.pairwise_cons.mpr ⟨fun _ hg _ he => hnone (he ▸ hg), h.oneLoop⟩
    unfold NestedQueue.callNext
    dsimp only
    split
    · exact List.pairwise_cons.mpr ⟨fun _ _ hl => (by cases hl), hone⟩
    · exact hone
  · have hcalls : s.calls s.tail = (s.tailItem k).callback := by
      unfold calls
      rw [hitem]
      rfl
    have hid := h.id_eq _ _ hitem
    rw [hbegun']
    show (if (s.tailItem k).callback then s.called ++ [(s.tailItem k).id] else s.called) =
      (List.range (s.tail + 1)).filter s.calls
    rw [filter_range_succ, hcalls, hid, h.called_eq, hbegun]
    split
    · rfl
    · rw [List.append_nil]

theorem Valid.advance (h : Valid k s) {rest : List Frame} (hstack : s.stack = .advance :: rest) :
    Valid k { s with
      q := { s.q with tail := toInt32 (s.q.tail + 1) }
      stack := rest
      tail := s.tail + 1 } := by
  have hrest := h.not_mem_of_inLoop hstack rfl
  have hbegun : s.begun = s.tail + 1 := begun_of_mem (by rw [hstack]; exact List.mem_cons_self)
  have hbegun' : (if .advance ∈ rest then s.tail + 1 + 1 else s.tail + 1) = s.begun := by
    rw [if_neg hrest, hbegun]
  have hone := h.oneLoop
  rw [hstack] at hone
  refine ⟨h.head_eq, h.curr_eq, ?_, hbegun'.trans_le h.begun_le, h.ran_le, ?_,
    fun j item hj => h.slots_eq j item (hbegun'.symm.trans_le hj), h.id_eq,
    (List.pairwise_cons.mp hone).2, ?_, h.processed_eq, h.struck_lt⟩
  · show toInt32 (s.q.tail + 1) = _
    rw [h.tail_eq]
    exact QueueSystem.toInt32_succ _
  · have := h.length_lt
    show s.tasks.length < s.tail + 1 + 2 ^ k
    omega
  · show s.called = (List.range (if .advance ∈ rest then s.tail + 1 + 1 else s.tail + 1)).filter _
    rw [hbegun']
    exact h.called_eq

theorem mem_waitingAt {indx : Int} {j : Nat} :
    j ∈ s.waitingAt k indx ↔
      j < s.tasks.length ∧ s.begun ≤ j ∧ j % 2 ^ k = slotOf k indx := by
  unfold waitingAt
  rw [List.mem_filter, List.mem_range, decide_eq_true_iff]

theorem entry_strikeOut (k : Nat) (s : NestedQueue) (indx : Int) (j : Nat) :
    (s.strikeOut k indx).entry j =
      (s.entry j).map fun item => if j ∈ s.waitingAt k indx then item.struck else item := by
  unfold entry
  rw [Option.map_map]
  refine congrArg (fun f => s.tasks[j]?.map f) (funext fun item => ?_)
  show (if j ∈ s.struck ++ s.waitingAt k indx then item.struck else item) =
    if j ∈ s.waitingAt k indx then (if j ∈ s.struck then item.struck else item).struck
      else if j ∈ s.struck then item.struck else item
  by_cases hold : j ∈ s.struck
  · rw [if_pos (List.mem_append_left _ hold), if_pos hold]
    split <;> rfl
  · by_cases hnew : j ∈ s.waitingAt k indx
    · rw [if_pos (List.mem_append_right _ hnew), if_pos hnew, if_neg hold]
    · rw [if_neg (fun hmem => (List.mem_append.mp hmem).elim hold hnew), if_neg hnew, if_neg hold]

theorem entry_strikeOut_of_not_mem {indx : Int} {j : Nat} (hj : j ∉ s.waitingAt k indx) :
    (s.strikeOut k indx).entry j = s.entry j := by
  rw [entry_strikeOut]
  simp only [hj, if_false, Option.map_id']

theorem Valid.strikeOut (h : Valid k s) (indx : Int) : Valid k (s.strikeOut k indx) := by
  have hlt := h.length_lt
  have htail := tail_le_begun s
  refine ⟨h.head_eq, h.curr_eq, h.tail_eq, h.begun_le, h.ran_le, h.length_lt, ?_, ?_, h.oneLoop,
    ?_, ?_, ?_⟩
  · intro j item hj hitem
    have hj : s.begun ≤ j := hj
    rw [entry_strikeOut] at hitem
    obtain ⟨old, hold, hitem⟩ := Option.map_eq_some_iff.mp hitem
    have hlen : j < s.tasks.length := by
      unfold entry at hold
      obtain ⟨_, hget, _⟩ := Option.map_eq_some_iff.mp hold
      exact (List.getElem?_eq_some_iff.mp hget).1
    have hslot := h.slots_eq j old hj hold
    show Function.update s.q.slots (slotOf k indx) (s.q.slots (slotOf k indx)).struck (j % 2 ^ k) =
      item
    by_cases heq : j % 2 ^ k = slotOf k indx
    · rw [if_pos (mem_waitingAt.mpr ⟨hlen, hj, heq⟩)] at hitem
      rw [← heq, Function.update_self, hslot, hitem]
    · rw [if_neg (fun hmem => heq (mem_waitingAt.mp hmem).2.2)] at hitem
      rw [Function.update_of_ne heq, hslot, hitem]
  · intro j item hitem
    rw [entry_strikeOut] at hitem
    obtain ⟨old, hold, hitem⟩ := Option.map_eq_some_iff.mp hitem
    rw [← h.id_eq j old hold, ← hitem]
    split <;> rfl
  · show s.called = (List.range s.begun).filter (s.strikeOut k indx).calls
    rw [h.called_eq]
    refine List.filter_congr fun j hj => ?_
    have hne : j ∉ s.waitingAt k indx := fun hmem =>
      absurd (mem_waitingAt.mp hmem).2.1 (Nat.not_le_of_lt (List.mem_range.mp hj))
    unfold calls
    rw [entry_strikeOut_of_not_mem hne]
  · show s.processed = (List.range s.ran).filter (s.strikeOut k indx).processes
    rw [h.processed_eq]
    refine List.filter_congr fun j _ => ?_
    unfold processes
    rw [entry_strikeOut]
    cases s.entry j with
    | none => rfl
    | some item =>
        show item.process =
          QueueItem.process (if j ∈ s.waitingAt k indx then item.struck else item)
        split <;> rfl
  · intro j hj
    exact (List.mem_append.mp hj).elim (h.struck_lt j) fun hmem => (mem_waitingAt.mp hmem).1

theorem Valid.process (h : Valid k s) (hk' : k ≤ 32) (hidle : s.running = false)
    (hdata : hasData k s.q = true) :
    Valid k { s with
      running := true
      processed :=
        if (s.currItem k).process then s.processed ++ [(s.currItem k).id] else s.processed } := by
  have hlt := (h.hasData_iff hk').mp hdata
  have hitem := h.currItem_eq hk' hlt
  have hran : s.ran = s.curr := if_neg (by rw [hidle]; exact Bool.false_ne_true)
  refine ⟨h.head_eq, h.curr_eq, h.tail_eq, h.begun_le, hlt, h.length_lt, h.slots_eq, h.id_eq,
    h.oneLoop, h.called_eq, ?_, h.struck_lt⟩
  have hprocesses : s.processes s.curr = (s.currItem k).process := by
    unfold processes
    rw [hitem]
    rfl
  show (if (s.currItem k).process then s.processed ++ [(s.currItem k).id] else s.processed) =
    (List.range (s.curr + 1)).filter s.processes
  rw [filter_range_succ, hprocesses, h.id_eq _ _ hitem, h.processed_eq, hran]
  split
  · rfl
  · rw [List.append_nil]

theorem Valid.processReturn (h : Valid k s) (hrunning : s.running = true) :
    Valid k { s with
      running := false
      q := { s.q with curr := toInt32 (s.q.curr + 1) }
      curr := s.curr + 1 } := by
  have hran : s.ran = s.curr + 1 := if_pos hrunning
  have hle := h.ran_le
  have hcalled := h.processed_eq
  rw [hran] at hle hcalled
  refine ⟨h.head_eq, ?_, h.tail_eq, h.begun_le.trans (Nat.le_succ _), hle, h.length_lt,
    h.slots_eq, h.id_eq, h.oneLoop, h.called_eq, hcalled, h.struck_lt⟩
  show toInt32 (s.q.curr + 1) = _
  rw [h.curr_eq]
  exact QueueSystem.toInt32_succ _

theorem Valid.step (hk : 1 ≤ k) (hk' : k ≤ 32) (h : Valid k s) {a : Act} (ha : NoReentry s a)
    (hstep : Step k s a s') : Valid k s' := by
  cases hstep with
  | add item hcall => exact h.add hk hk' item
  | wait hcall => exact h.push (l := [.wait]) (by decide)
  | finishNone hcall => exact h
  | finish indx hcall hindx =>
      refine h.push (l := [.wait, .strike indx]) fun f hf => ?_
      rcases List.mem_pair.mp hf with rfl | rfl <;> rfl
  | flush hcall => exact h.enter (by decide) (ha (.inl rfl))
  | useThreadOn hcall => exact h.restack Iff.rfl h.oneLoop true s.unfinished s.cells
  | useThreadOff hcall => exact h.enter (by decide) (ha (.inr rfl))
  | tick hstack hthread =>
      have hnone : Frame.advance ∉ s.stack := by rw [hstack]; exact List.not_mem_nil
      have henter := h.enter (l := [.loop]) (by decide) hnone
      rw [hstack] at henter
      exact henter
  | methodReturn hstack => exact h.leave hstack (by decide) s.q.useThread s.unfinished
  | advance hstack => exact h.advance hstack
  | loopCall hstack hdata => exact h.callNext hk' hstack hdata
  | loopEnd hstack hdata => exact h.leave hstack (by decide) s.q.useThread _
  | waited hstack hdata => exact h.leave hstack (by decide) s.q.useThread s.unfinished
  | flushAgain hstack hdata =>
      have hrest := h.not_mem_of_inLoop hstack rfl
      have hleave := h.leave hstack (by decide) s.q.useThread s.unfinished
      exact hleave.enter (l := [.loop, .wait, .again]) (by decide) hrest
  | flushReturn hstack hdata => exact h.leave hstack (by decide) s.q.useThread s.unfinished
  | strike hstack =>
      exact (h.strikeOut _).leave hstack (fun he => by cases he) s.q.useThread s.unfinished
  | disable hstack => exact h.leave hstack (by decide) false s.unfinished
  | process hidle hdata => exact h.process hk' hidle hdata
  | processReturn hrunning => exact h.processReturn hrunning

theorem Run.valid (hk : 1 ≤ k) (hk' : k ≤ 32) (h : Run k NoReentry s) : Valid k s := by
  induction h with
  | init => exact Valid.init
  | step _ ha hstep ih => exact ih.step hk hk' ha hstep

end Steps

theorem Run.quiet {k : Nat} {s s' : NestedQueue} {a : Act} (hs : Run k NoReentry s)
    (h : Step k s a s') (hflush : a ≠ .flush) (hoff : a ≠ .useThread false) :
    Run k NoReentry s' :=
  hs.step (fun ha => absurd ha (not_or.mpr ⟨hflush, hoff⟩)) h

/-! ## Each callback is called once -/

/-- Callbacks and process methods are called once, in the order of the ring. -/
structure CalledOnce (s : NestedQueue) : Prop where
  tail_eq : s.q.tail = toInt32 s.tail
  curr_eq : s.q.curr = toInt32 s.curr
  tail_le : s.tail ≤ s.curr
  order : s.called.Pairwise (· < ·)
  known : ∀ j ∈ s.called, j < s.tasks.length
  /-- as soon as the callback loop has come to the task, and never again -/
  once : ∀ j item, s.tasks[j]? = some item → s.called.count j =
    if j < s.begun ∧ item.callback = true ∧ j ∉ s.struck then 1 else 0
  processedOnce : ∀ j item, s.tasks[j]? = some item → s.processed.count j =
    if j < s.ran ∧ item.process = true then 1 else 0

theorem count_filter_range (p : Nat → Bool) (n j : Nat) :
    ((List.range n).filter p).count j = if j < n ∧ p j = true then 1 else 0 := by
  by_cases h : j < n ∧ p j = true
  · rw [if_pos h]
    exact List.count_eq_one_of_mem (List.nodup_range.filter p)
      (List.mem_filter.mpr ⟨List.mem_range.mpr h.1, h.2⟩)
  · rw [if_neg h, List.count_eq_zero]
    exact fun hmem => h ⟨List.mem_range.mp (List.mem_filter.mp hmem).1, (List.mem_filter.mp hmem).2⟩

section Once

variable {k : Nat} {s : NestedQueue} {j : Nat} {item : QueueItem}

theorem calls_iff (hitem : s.tasks[j]? = some item) :
    s.calls j = true ↔ item.callback = true ∧ j ∉ s.struck := by
  unfold calls entry
  rw [hitem, Option.map_some, Option.any_some]
  by_cases hstruck : j ∈ s.struck
  · rw [if_pos hstruck]
    exact iff_of_false Bool.false_ne_true fun h => h.2 hstruck
  · rw [if_neg hstruck]
    exact ⟨fun h => ⟨h, hstruck⟩, And.left⟩

theorem processes_eq (hitem : s.tasks[j]? = some item) : s.processes j = item.process := by
  unfold processes entry
  rw [hitem, Option.map_some, Option.any_some]
  split <;> rfl

theorem Valid.calledOnce (h : Valid k s) : CalledOnce s where
  tail_eq := h.tail_eq
  curr_eq := h.curr_eq
  tail_le := h.tail_le
  order := by
    rw [h.called_eq]
    exact List.pairwise_lt_range.filter _
  known j hj := by
    rw [h.called_eq] at hj
    have hlt := List.mem_range.mp (List.mem_filter.mp hj).1
    exact hlt.trans_le (h.begun_le.trans h.curr_le)
  once j item hitem := by
    rw [h.called_eq, count_filter_range]
    exact if_congr (and_congr_right fun _ => calls_iff hitem) rfl rfl
  processedOnce j item hitem := by
    rw [h.processed_eq, count_filter_range, processes_eq hitem]

end Once

/-- As long as no callback loop is entered from a callback of a callback loop, each
task is called back once, and `tail` does not pass `curr`. -/
theorem run_calledOnce {k : Nat} (hk : 1 ≤ k) (hk' : k ≤ 32) {s : NestedQueue}
    (h : Run k NoReentry s) : CalledOnce s :=
  (h.valid hk hk').calledOnce

/-- A task with both methods, that is not waited for. -/
def plainTask : QueueItem := ⟨0, true, true, none⟩

theorem run_processed (ok : NestedQueue → Act → Prop)
    (hok : ∀ s a, a ≠ .flush → a ≠ .useThread false → ok s a) :
    ∃ s, Run 10 ok s ∧ s.stack = [] ∧ s.q = ⟨Function.update (fun _ => ⟨0, false, false, none⟩) 0
      plainTask, 1, 0, 1, true⟩ ∧ s.called = [] ∧ s.tasks = [plainTask] ∧ s.running = false := by
  have hs₁ := Run.step Run.init (hok _ _ (fun he => by cases he) fun he => by cases he)
    (Step.add (k := 10) plainTask fun f hf => by cases hf)
  have hs₂ := Run.step hs₁ (hok _ _ (fun he => by cases he) fun he => by cases he)
    (Step.process rfl (by decide))
  have hs₃ := Run.step hs₂ (hok _ _ (fun he => by cases he) fun he => by cases he)
    (Step.processReturn rfl)
  exact ⟨_, hs₃, rfl, rfl, rfl, rfl, rfl⟩

theorem run_calledOnce_processed : ∃ s, Run 10 NoReentry s ∧ CalledOnce s ∧ s.q.curr = 1 := by
  obtain ⟨s, hs, _, hq, _⟩ := run_processed NoReentry fun s a h₁ h₂ ha =>
    absurd ha (not_or.mpr ⟨h₁, h₂⟩)
  exact ⟨s, hs, run_calledOnce (by decide) (by decide) hs, by rw [hq]⟩

/-- A callback that flushes the queue is called again. -/
theorem called_again : ¬ ∀ s, Run 10 (fun _ _ => True) s → CalledOnce s := by
  intro hall
  obtain ⟨s, hs, hstack, hq, hcalled, htasks, _⟩ :=
    run_processed (fun _ _ => True) fun _ _ _ _ => trivial
  have hdata : hasFinished 10 s.q = true := by rw [hq]; decide
  have hnone : hasData 10 s.q = false := by rw [hq]; decide
  have hitem : s.tailItem 10 = plainTask := by
    rw [tailItem, hq]
    rfl
  have hs₁ := Run.step hs trivial (Step.tick hstack (by rw [hq]))
  have hs₂ := Run.step hs₁ trivial (Step.loopCall rfl hdata)
  have hs₃ := Run.step hs₂ trivial (Step.flush fun f hf => ?_)
  · have hs₄ := Run.step hs₃ trivial (Step.waited rfl hnone)
    have hs₅ := Run.step hs₄ trivial (Step.loopCall rfl hdata)
    have honce := (hall _ hs₅).order
    change List.Pairwise (· < ·) (if (s.tailItem 10).callback
      then (if (s.tailItem 10).callback then s.called ++ [(s.tailItem 10).id] else s.called) ++
        [(s.tailItem 10).id]
      else if (s.tailItem 10).callback then s.called ++ [(s.tailItem 10).id] else s.called) at honce
    rw [hitem, hcalled] at honce
    exact absurd honce (by decide)
  · change f ∈ (if (s.tailItem 10).callback then Frame.callback :: .advance :: [.loop]
      else .advance :: [.loop]).head? at hf
    rw [hitem] at hf
    exact (Option.some.inj hf).symm

end NestedQueue

end PureDataPacket
