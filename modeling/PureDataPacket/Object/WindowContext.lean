/-
# `PureDataPacket.Object.WindowContext` — two rendering chains

A bang of `3dp_windowcontext` starts a rendering chain: the object and those below it
queue their commands, and then a task is queued that does nothing.  Its queue id goes
into one of two cells, by turns, and a bang is ignored as long as the cell that is
next has an id: the chain before the last one is not finished.

A task for which the queue has no room gets the id -1 at once, as if it were done.  And
the next cell is only chosen when a bang has ended, but what the bang does may be
to send another one.

| | |
| :-- | :-- |
| `HasRoom` | the task that does nothing finds room, or no chain has anything left in the queue |
| `Orderly` | the condition |
| `Linked` | cells, tasks and chains belong together |
| `Valid.accepts_iff` | when the next bang is accepted |
-/
import PureDataPacket.Queue.Finish

namespace PureDataPacket

/-- A bang of the object that has been accepted and is being executed. -/
structure Bang where
  /-- the local variable of `pdp_3d_windowcontext_bang` -/
  cur : Nat
  /-- how many calls the Pd thread was in when it came -/
  level : Nat
  /-- how many tasks had been queued -/
  start : Nat

/-- A bang that has ended, with the tasks that were queued until then. -/
structure Chain where
  start : Nat
  stop : Nat

/-- `t_pdp_3d_windowcontext` and its queue.  `x_finish_queue_id` is in the cells 0 and 1.
`chains` is read by nothing. -/
structure WindowContext where
  queue : NestedQueue
  xFinishQueueIdCurrent : Nat
  /-- the innermost comes first -/
  bangs : List Bang
  /-- the last one comes first -/
  chains : List Chain

namespace WindowContext

/-- `pdp_3d_windowcontext_new`. -/
def new : WindowContext := ⟨NestedQueue.init, 0, [], []⟩

/-- A task of the chain has not been called back. -/
def unfinished (queue : NestedQueue) (c : Chain) : Bool :=
  c.start < c.stop ∧ queue.begun < c.stop

/-- How many chains are not finished, with those that are only being queued. -/
def busy (s : WindowContext) : Nat := s.bangs.length + s.chains.countP (unfinished s.queue)

/-- `-1 == x->x_finish_queue_id[cur]`. -/
def accepts (s : WindowContext) : Prop := s.queue.cells s.xFinishQueueIdCurrent = -1

def dummy (cur : Nat) : QueueItem := ⟨0, false, false, some cur⟩

/-- The end of `pdp_3d_windowcontext_bang`. -/
def bangEnd (k : Nat) (s : WindowContext) (b : Bang) (rest : List Bang) : WindowContext where
  queue := s.queue.add k (dummy b.cur)
  xFinishQueueIdCurrent := if b.cur = 0 then 1 else 0
  bangs := rest
  chains := ⟨b.start, (s.queue.add k (dummy b.cur)).tasks.length⟩ :: s.chains

/-- What happens in the patch. -/
inductive Act where
  /-- the queue goes on, or another object uses it -/
  | queue (a : NestedQueue.Act)
  | bang
  | bangEnd

/-- One step, on a queue of `2 ^ k` slots.  The cells of the object are its own, and its
tasks are not struck out, which happens only when an object is freed. -/
inductive Step (k : Nat) : WindowContext → Act → WindowContext → Prop
  | queue {s : WindowContext} {a : NestedQueue.Act} {queue : NestedQueue}
      (h : NestedQueue.Step k s.queue a queue)
      (hown : ∀ item c, a = .add item → c < 2 → item.queueId ≠ some c)
      (hstruck : queue.struck = s.queue.struck) (htick : a = .tick → s.bangs = [])
      (hreturn : a = .methodReturn → ∀ b ∈ s.bangs.head?, b.level < s.queue.stack.length) :
      Step k s (.queue a) { s with queue := queue }
  | ignored {s : WindowContext} (hcall : s.queue.MayCall) (hbusy : ¬ s.accepts) : Step k s .bang s
  | accepted {s : WindowContext} (hcall : s.queue.MayCall) (haccepts : s.accepts) :
      Step k s .bang { s with
        bangs := ⟨s.xFinishQueueIdCurrent, s.queue.stack.length, s.queue.tasks.length⟩ :: s.bangs }
  | bangEnd {s : WindowContext} {b : Bang} {rest : List Bang} (hbangs : s.bangs = b :: rest)
      (hcall : s.queue.MayCall) (hlevel : s.queue.stack.length = b.level) :
      Step k s .bangEnd (s.bangEnd k b rest)

/-- The states of runs whose steps all meet a condition. -/
inductive Run (k : Nat) (ok : WindowContext → Act → Prop) : WindowContext → Prop
  | new : Run k ok new
  | step {s s' : WindowContext} {a : Act} (hs : Run k ok s) (ha : ok s a) (h : Step k s a s') :
      Run k ok s'

/-- The task that does nothing finds room, or no chain has anything left in the queue. -/
def HasRoom (k : Nat) (s : WindowContext) (b : Bang) : Prop :=
  (s.queue.q.useThread = true ∧ pdpProcqueueFull k s.queue.q = false) ∨
    ∀ c ∈ ⟨b.start, s.queue.tasks.length⟩ :: s.chains, unfinished s.queue c = false

/-- No callback loop is entered from one of its callbacks, no bang comes while another one is
being executed, and at the end of a bang there is room. -/
def Orderly (k : Nat) (s : WindowContext) : Act → Prop
  | .queue a => s.queue.NoReentry a
  | .bang => s.bangs = []
  | .bangEnd => ∀ b ∈ s.bangs.head?, HasRoom k s b

/-- The pipeline has depth two. -/
structure DepthTwo (s : WindowContext) : Prop where
  busy_le : s.busy ≤ 2
  /-- a bang is accepted exactly if there is room for its chain -/
  accepts_iff : s.bangs = [] → (s.accepts ↔ s.busy < 2)

/-! ## The cells -/

/-- A task of the ring whose callback is to come has this cell for its queue id. -/
def Waits (queue : NestedQueue) (e j : Nat) : Prop :=
  queue.begun ≤ j ∧ ∃ item, queue.entry j = some item ∧ item.queueId = some e

/-- The cell of a chain, counted from the last one. -/
def cellOf (cur i : Nat) : Nat := (cur + 1 + i) % 2

/-- Cells, tasks and chains belong together. -/
structure Linked (queue : NestedQueue) (cur : Nat) (chains : List Chain) : Prop where
  /-- the last two chains wait for the task of their cell, as long as they are not finished -/
  link : ∀ i c, i < 2 → chains[i]? = some c → ∀ j,
    Waits queue (cellOf cur i) j ↔ j + 1 = c.stop ∧ unfinished queue c = true
  unused : ∀ i, i < 2 → chains[i]? = none → ∀ j, ¬ Waits queue (cellOf cur i) j
  cell : ∀ e, e < 2 → (queue.cells e = -1 ↔ ∀ j, ¬ Waits queue e j)
  older : ∀ c ∈ chains.drop 2, unfinished queue c = false
  /-- the chain before the last one is finished first -/
  order : ∀ c₀ c₁, chains[0]? = some c₀ → chains[1]? = some c₁ → unfinished queue c₁ = true →
    c₀.start < c₀.stop ∧ c₁.stop ≤ c₀.stop
  stop_le : ∀ c ∈ chains, c.stop ≤ queue.tasks.length

section Cells

variable {k : Nat} {queue queue' : NestedQueue} {cur e : Nat} {chains : List Chain}

theorem unfinished_iff {c : Chain} :
    unfinished queue c = true ↔ c.start < c.stop ∧ queue.begun < c.stop := decide_eq_true_iff

/-- Each cell is that of one of the last two chains. -/
theorem exists_cellOf (he : e < 2) : ∃ i, i < 2 ∧ cellOf cur i = e := by
  refine ⟨(e + cur + 1) % 2, Nat.mod_lt _ (by omega), ?_⟩
  unfold cellOf
  omega

theorem Linked.unique (h : Linked queue cur chains) (he : e < 2) {i j : Nat}
    (hi : Waits queue e i) (hj : Waits queue e j) : i = j := by
  obtain ⟨n, hn, rfl⟩ := @exists_cellOf cur e he
  cases hc : chains[n]? with
  | none => exact absurd hi (h.unused n hn hc i)
  | some c =>
      have hi := ((h.link n c hn hc i).mp hi).1
      have hj := ((h.link n c hn hc j).mp hj).1
      omega

/-- What the queue does to a cell that no task is added with. -/
structure Moves (queue queue' : NestedQueue) : Prop where
  begun : queue.begun ≤ queue'.begun
  tasks : queue.tasks.length ≤ queue'.tasks.length
  waits : ∀ e, e < 2 → ∀ j, Waits queue' e j ↔ Waits queue e j ∧ queue'.begun ≤ j
  cleared : ∀ e, e < 2 → ∀ j, Waits queue e j → j < queue'.begun → queue'.cells e = -1
  kept : ∀ e, e < 2 → (∀ j, Waits queue e j → queue'.begun ≤ j) → queue'.cells e = queue.cells e

theorem moves_of_step (hk' : k ≤ 32) (hs : NestedQueue.Valid k queue) {a : NestedQueue.Act}
    (h : NestedQueue.Step k queue a queue')
    (hown : ∀ item c, a = .add item → c < 2 → item.queueId ≠ some c)
    (hstruck : queue'.struck = queue.struck) : Moves queue queue' := by
  have hgrows := h.grows
  have hpasses := h.passes hk' hs
  refine ⟨hgrows.begun, hgrows.tasks.length_le, fun e he j => ⟨?_, ?_⟩, fun e he j hj hlt => ?_,
    fun e he hall => ?_⟩
  · rintro ⟨hj, item, hitem, hid⟩
    refine ⟨⟨hgrows.begun.trans hj, item, ?_, hid⟩, hj⟩
    rcases h.entry hs hitem with hold | hnone | ⟨new, ha, hnew⟩
    · exact hold
    · rw [hnone] at hid
      cases hid
    · exact absurd (hnew.symm.trans hid) (hown new e ha he)
  · rintro ⟨⟨_, item, hitem, hid⟩, hj⟩
    refine ⟨hj, item, ?_, hid⟩
    obtain ⟨more, hmore⟩ := hgrows.tasks
    unfold NestedQueue.entry at hitem ⊢
    obtain ⟨task, htask, hitem⟩ := Option.map_eq_some_iff.mp hitem
    rw [← hmore, hstruck, List.getElem?_append_left (List.getElem?_eq_some_iff.mp htask).1, htask,
      Option.map_some, hitem]
  · obtain ⟨hj, item, hitem, hid⟩ := hj
    rcases hpasses with ⟨hle, _⟩ | ⟨hbegun, next, hnext, hcells⟩
    · omega
    · have hj : j = queue.begun := by omega
      rw [hj, hnext] at hitem
      rw [hcells, Option.some.inj hitem, hid]
      exact Function.update_self ..
  · rcases hpasses with ⟨_, hcells⟩ | ⟨hbegun, next, hnext, hcells⟩
    · exact hcells e fun item ha => hown item e ha he
    · rw [hcells]
      refine NestedQueue.setQueueId_of_ne fun hid => ?_
      have := hall queue.begun ⟨le_rfl, next, hnext, hid⟩
      omega

theorem Linked.moves (h : Linked queue cur chains) (hm : Moves queue queue') :
    Linked queue' cur chains := by
  have hless : ∀ c, unfinished queue' c = true → unfinished queue c = true := fun c hc => by
    have hbegun := hm.begun
    rw [unfinished_iff] at hc ⊢
    omega
  have hcell : ∀ i, cellOf cur i < 2 := fun i => Nat.mod_lt _ (by omega)
  refine ⟨fun i c hi hc j => ?_, fun i hi hc j hj => ?_, fun e he => ?_, fun c hc => ?_,
    fun c₀ c₁ h₀ h₁ hunf => h.order c₀ c₁ h₀ h₁ (hless c₁ hunf),
    fun c hc => (h.stop_le c hc).trans hm.tasks⟩
  · have hbegun := hm.begun
    rw [hm.waits _ (hcell i), h.link i c hi hc, unfinished_iff, unfinished_iff]
    omega
  · exact h.unused i hi hc j ((hm.waits _ (hcell i) j).mp hj).1
  · by_cases hpast : ∃ j, Waits queue e j ∧ j < queue'.begun
    · obtain ⟨j, hj, hlt⟩ := hpast
      refine iff_of_true (hm.cleared e he j hj hlt) fun i hi => ?_
      obtain ⟨hi, hle⟩ := (hm.waits e he i).mp hi
      rw [h.unique he hi hj] at hle
      omega
    · have hall : ∀ j, Waits queue e j → queue'.begun ≤ j := fun j hj =>
        Nat.le_of_not_lt fun hlt => hpast ⟨j, hj, hlt⟩
      rw [hm.kept e he hall, h.cell e he]
      refine forall_congr' fun j => not_congr ?_
      rw [hm.waits e he]
      exact ⟨fun hj => ⟨hj, hall j hj⟩, And.left⟩
  · rw [← Bool.not_eq_true]
    intro hunf
    have hfinished := h.older c hc
    rw [hless c hunf] at hfinished
    cases hfinished

theorem unfinished_congr (hbegun : queue'.begun = queue.begun) (c : Chain) :
    unfinished queue' c = unfinished queue c := by
  unfold unfinished
  rw [hbegun]

/-- The chain before the last one does not wait in the next cell any more. -/
theorem Linked.free (h : Linked queue cur chains) (hcur : cur < 2)
    (hfinished : ∀ c, chains[1]? = some c → unfinished queue c = false) (j : Nat) :
    ¬ Waits queue cur j := by
  have hcell : cellOf cur 1 = cur := by
    unfold cellOf
    omega
  intro hj
  cases hc : chains[1]? with
  | none => exact h.unused 1 (by omega) hc j (by rw [hcell]; exact hj)
  | some c =>
      have hunf := ((h.link 1 c (by omega) hc j).mp (by rw [hcell]; exact hj)).2
      rw [hfinished c hc] at hunf
      cases hunf

/-- A bang ends, and its chain is the last one now. -/
theorem Linked.ended (h : Linked queue cur chains) (hcur : cur < 2) {c : Chain}
    (hfinished : ∀ c, chains[1]? = some c → unfinished queue c = false)
    (hbegun : queue'.begun = queue.begun) (htasks : queue.tasks.length ≤ queue'.tasks.length)
    (hstop : c.stop ≤ queue'.tasks.length)
    (hwaits : ∀ e j, Waits queue' e j ↔
      Waits queue e j ∨ (e = cur ∧ j + 1 = c.stop ∧ unfinished queue' c = true))
    (hcells : ∀ e, e ≠ cur → queue'.cells e = queue.cells e)
    (hcell : queue'.cells cur = -1 ↔ unfinished queue' c = false)
    (horder : ∀ c₁, chains[0]? = some c₁ → unfinished queue c₁ = true →
      c.start < c.stop ∧ c₁.stop ≤ c.stop) :
    Linked queue' (if cur = 0 then 1 else 0) (c :: chains) := by
  have hfree := h.free hcur hfinished
  have hcell₀ : cellOf (if cur = 0 then 1 else 0) 0 = cur := by
    unfold cellOf
    split <;> omega
  have hcell₁ : cellOf (if cur = 0 then 1 else 0) 1 = cellOf cur 0 := by
    unfold cellOf
    split <;> omega
  have hne : cellOf cur 0 ≠ cur := by
    unfold cellOf
    omega
  have hlast : ∀ j, Waits queue' cur j ↔ j + 1 = c.stop ∧ unfinished queue' c = true := fun j => by
    rw [hwaits, or_iff_right (hfree j), and_iff_right rfl]
  have hother : ∀ e j, e ≠ cur → (Waits queue' e j ↔ Waits queue e j) := fun e j he => by
    rw [hwaits, or_iff_left fun hnew => he hnew.1]
  refine ⟨fun i c' hi hc' j => ?_, fun i hi hc' j => ?_, fun e he => ?_, fun c' hc' => ?_,
    fun c₀ c₁ h₀ h₁ hunf => ?_, fun c' hc' => ?_⟩
  · obtain rfl | rfl : i = 0 ∨ i = 1 := by omega
    · rw [hcell₀, hlast, ← Option.some.inj hc']
    · rw [hcell₁, hother _ _ hne, h.link 0 c' (by omega) hc' j, unfinished_congr hbegun]
  · obtain rfl | rfl : i = 0 ∨ i = 1 := by omega
    · cases hc'
    · rw [hcell₁, hother _ _ hne]
      exact h.unused 0 (by omega) hc' j
  · by_cases heq : e = cur
    · rw [heq, hcell]
      constructor
      · intro hunf j hj
        rw [((hlast j).mp hj).2] at hunf
        cases hunf
      · intro hnone
        rw [← Bool.not_eq_true]
        intro hunf
        have hlt := (unfinished_iff.mp hunf).1
        exact hnone (c.stop - 1) ((hlast _).mpr ⟨by omega, hunf⟩)
    · rw [hcells e heq, h.cell e he]
      exact forall_congr' fun j => not_congr (hother e j heq).symm
  · rw [unfinished_congr hbegun]
    cases hchains : chains with
    | nil =>
        rw [hchains] at hc'
        cases hc'
    | cons c₁ rest =>
        rw [hchains] at hc' hfinished
        cases hrest : rest with
        | nil =>
            rw [hrest] at hc'
            cases hc'
        | cons c₂ rest' =>
            rw [hrest] at hc' hfinished
            rcases List.mem_cons.mp hc' with rfl | hmem
            · exact hfinished _ rfl
            · exact h.older c' (by rw [hchains, hrest]; exact hmem)
  · rw [← Option.some.inj h₀]
    rw [unfinished_congr hbegun] at hunf
    exact horder c₁ h₁ hunf
  · rcases List.mem_cons.mp hc' with rfl | hmem
    · exact hstop
    · exact (h.stop_le c' hmem).trans htasks

theorem methods_dummy (mode : Mode) (item : QueueItem) (hprocess : item.process = false)
    (hcallback : item.callback = false) : NestedQueue.methods mode item = [] := by
  unfold NestedQueue.methods
  refine if_pos ?_
  cases mode <;> simp [Mode.calls, QueueItem.processes, QueueItem.callsBack, hprocess, hcallback]

theorem Linked.queued (h : Linked queue cur chains) (hcur : cur < 2)
    (hs : NestedQueue.Valid k queue)
    (hfinished : ∀ c, chains[1]? = some c → unfinished queue c = false)
    (hthread : queue.q.useThread = true) (hfull : pdpProcqueueFull k queue.q = false) {start : Nat}
    (hstart : start ≤ queue.tasks.length) :
    Linked (queue.add k (dummy cur)) (if cur = 0 then 1 else 0)
      (⟨start, (queue.add k (dummy cur)).tasks.length⟩ :: chains) := by
  rw [NestedQueue.add_queued queue (dummy cur) hthread hfull]
  have hle := hs.begun_le.trans hs.curr_le
  have hlength : ∀ item, (queue.tasks ++ [item]).length = queue.tasks.length + 1 := fun _ => by simp
  have hnew := NestedQueue.entry_new queue { dummy cur with id := queue.tasks.length } hs.struck_lt
  refine h.ended hcur hfinished rfl ?_ le_rfl (fun e j => ⟨?_, ?_⟩) (fun e he => ?_)
    (iff_of_false (fun he => ?_) ?_) fun c₁ h₁ _ => ?_
  · show queue.tasks.length ≤ (queue.tasks ++ [_]).length
    rw [hlength]
    omega
  · rintro ⟨hj, item, hitem, hid⟩
    rcases NestedQueue.entry_append_cases hs.struck_lt _ _ hitem with ⟨_, hold⟩ | ⟨rfl, rfl⟩
    · exact .inl ⟨hj, item, hold, hid⟩
    · refine .inr ⟨(Option.some.inj hid).symm, (hlength _).symm, unfinished_iff.mpr ⟨?_, ?_⟩⟩
      · show start < (queue.tasks ++ [_]).length
        rw [hlength]
        omega
      · show queue.begun < (queue.tasks ++ [_]).length
        rw [hlength]
        omega
  · rintro (⟨hj, item, hitem, hid⟩ | ⟨rfl, hj, _⟩)
    · refine ⟨hj, item, ?_, hid⟩
      refine (NestedQueue.entry_append queue _ ?_).trans hitem
      unfold NestedQueue.entry at hitem
      obtain ⟨_, htask, _⟩ := Option.map_eq_some_iff.mp hitem
      exact (List.getElem?_eq_some_iff.mp htask).1
    · have hj : j = queue.tasks.length := by
        change j + 1 = (queue.tasks ++ [_]).length at hj
        rw [hlength] at hj
        omega
      subst hj
      exact ⟨hle, _, hnew, rfl⟩
  · exact NestedQueue.setQueueId_of_ne fun hid => he (Option.some.inj hid).symm
  · change Function.update queue.cells cur _ cur = -1 at he
    rw [Function.update_self] at he
    omega
  · rw [Bool.not_eq_false, unfinished_iff]
    refine ⟨?_, ?_⟩
    · show start < (queue.tasks ++ [_]).length
      rw [hlength]
      omega
    · show queue.begun < (queue.tasks ++ [_]).length
      rw [hlength]
      omega
  · have hstop := h.stop_le c₁ (List.mem_of_getElem? h₁)
    show start < (queue.tasks ++ [_]).length ∧ c₁.stop ≤ (queue.tasks ++ [_]).length
    rw [hlength]
    omega

/-- The task that does nothing is not queued, and no chain has anything in the queue. -/
theorem Linked.skipped (h : Linked queue cur chains) (hcur : cur < 2)
    (hskip : queue.q.useThread = false ∨ pdpProcqueueFull k queue.q = true) {start : Nat}
    (hall : ∀ c ∈ ⟨start, queue.tasks.length⟩ :: chains, unfinished queue c = false) :
    Linked (queue.add k (dummy cur)) (if cur = 0 then 1 else 0)
      (⟨start, (queue.add k (dummy cur)).tasks.length⟩ :: chains) := by
  have hfinished : ∀ c, chains[1]? = some c → unfinished queue c = false := fun c hc =>
    hall c (List.mem_cons_of_mem _ (List.mem_of_getElem? hc))
  have hlast := hall _ List.mem_cons_self
  obtain ⟨mode, hadd⟩ := NestedQueue.add_skipped queue (dummy cur) hskip
  rw [hadd, methods_dummy mode _ rfl rfl]
  refine h.ended hcur hfinished rfl le_rfl le_rfl (fun e j => ?_) (fun e he => ?_)
    (iff_of_true ?_ hlast) fun c₁ h₁ hunf => ?_
  · refine (or_iff_left fun hnew => ?_).symm
    have hunf := hnew.2.2
    change unfinished queue ⟨start, queue.tasks.length⟩ = true at hunf
    rw [hlast] at hunf
    cases hunf
  · exact NestedQueue.setQueueId_of_ne fun hid => he (Option.some.inj hid).symm
  · exact Function.update_self ..
  · rw [hall c₁ (List.mem_cons_of_mem _ (List.mem_of_getElem? h₁))] at hunf
    cases hunf

end Cells

/-! ## All steps -/

/-- What holds of every state. -/
structure Valid (k : Nat) (s : WindowContext) : Prop where
  queue : NestedQueue.Run k NestedQueue.NoReentry s.queue
  linked : Linked s.queue s.xFinishQueueIdCurrent s.chains
  current_lt : s.xFinishQueueIdCurrent < 2
  /-- a bang that is being executed is the only one, and there was room for its chain -/
  alone : ∀ b rest, s.bangs = b :: rest → rest = [] ∧ b.cur = s.xFinishQueueIdCurrent ∧
    b.start ≤ s.queue.tasks.length ∧ ∀ c, s.chains[1]? = some c → unfinished s.queue c = false

section Steps

variable {k : Nat} {s s' : WindowContext}

theorem Valid.new (k : Nat) : Valid k new where
  queue := .init
  linked := by
    have hnone : ∀ e j, ¬ Waits NestedQueue.init e j := by
      rintro e j ⟨_, _, hitem, _⟩
      cases hitem
    refine ⟨fun i c _ hc => ?_, fun i _ _ j => hnone _ j, fun e _ => iff_of_true rfl (hnone e),
      fun c hc => ?_, fun c₀ c₁ h₀ => ?_, fun c hc => ?_⟩
    · cases hc
    · cases hc
    · cases h₀
    · cases hc
  current_lt := Nat.succ_pos 1
  alone := fun _ _ h => by cases h

/-- The next cell has no queue id exactly if the chain before the last one is finished. -/
theorem Valid.accepts_iff (h : Valid k s) :
    s.accepts ↔ ∀ c, s.chains[1]? = some c → unfinished s.queue c = false := by
  unfold accepts
  rw [h.linked.cell _ h.current_lt]
  refine ⟨fun hnone c hc => ?_, fun hfinished j => h.linked.free h.current_lt hfinished j⟩
  rw [← Bool.not_eq_true]
  intro hunf
  have hlt := (unfinished_iff.mp hunf).1
  have hcell : cellOf s.xFinishQueueIdCurrent 1 = s.xFinishQueueIdCurrent := by
    have := h.current_lt
    unfold cellOf
    omega
  have hwaits := (h.linked.link 1 c (by omega) hc (c.stop - 1)).mpr ⟨by omega, hunf⟩
  rw [hcell] at hwaits
  exact hnone _ hwaits

/-- Less than two chains are in the queue exactly if the one before the last is finished. -/
theorem Linked.countP {queue : NestedQueue} {cur : Nat} {chains : List Chain}
    (h : Linked queue cur chains) : chains.countP (unfinished queue) ≤ 2 ∧
      (chains.countP (unfinished queue) < 2 ↔
        ∀ c, chains[1]? = some c → unfinished queue c = false) := by
  rcases chains with _ | ⟨c₀, _ | ⟨c₁, rest⟩⟩
  · exact ⟨Nat.zero_le 2, iff_of_true (Nat.succ_pos 1) fun c hc => by cases hc⟩
  · have hle : [c₀].countP (unfinished queue) ≤ 1 := List.countP_le_length
    exact ⟨by omega, iff_of_true (by omega) fun c hc => by cases hc⟩
  · have hrest : rest.countP (unfinished queue) = 0 := by
      rw [List.countP_eq_zero]
      intro c hc
      rw [h.older c hc]
      exact Bool.false_ne_true
    rw [List.countP_cons, List.countP_cons, hrest]
    have hlast : ∀ c, (c₀ :: c₁ :: rest)[1]? = some c ↔ c₁ = c := fun c => Option.some_inj
    cases h₁ : unfinished queue c₁ with
    | false =>
        have hle : (if unfinished queue c₀ = true then 1 else 0) ≤ 1 := by split <;> omega
        rw [if_neg Bool.false_ne_true]
        refine ⟨by omega, iff_of_true (by omega) fun c hc => ?_⟩
        rw [← (hlast c).mp hc]
        exact h₁
    | true =>
        have horder := h.order c₀ c₁ rfl rfl h₁
        have h₀ : unfinished queue c₀ = true := by
          rw [unfinished_iff] at h₁ ⊢
          omega
        rw [h₀]
        refine ⟨le_rfl, iff_of_false (by simp) fun hall => ?_⟩
        have hfalse := hall c₁ rfl
        rw [h₁] at hfalse
        cases hfalse

theorem Valid.depthTwo (h : Valid k s) : DepthTwo s := by
  obtain ⟨hle, hlt⟩ := h.linked.countP
  refine ⟨?_, fun hbangs => ?_⟩
  · unfold busy
    cases hbangs : s.bangs with
    | nil =>
        rw [List.length_nil]
        omega
    | cons b rest =>
        obtain ⟨hrest, _, _, hfinished⟩ := h.alone b rest hbangs
        have := hlt.mpr hfinished
        rw [hrest, List.length_singleton]
        omega
  · unfold busy
    rw [h.accepts_iff, hbangs, List.length_nil, Nat.zero_add, hlt]

theorem Valid.bangEnd (hk : 1 ≤ k) (hk' : k ≤ 32) (h : Valid k s) {b : Bang} {rest : List Bang}
    (hbangs : s.bangs = b :: rest) (hcall : s.queue.MayCall) (hroom : HasRoom k s b) :
    Valid k (s.bangEnd k b rest) := by
  obtain ⟨hrest, hcur, hstart, hfinished⟩ := h.alone b rest hbangs
  have hqueue : NestedQueue.Run k NestedQueue.NoReentry (s.queue.add k (dummy b.cur)) :=
    h.queue.step (fun ha => by rcases ha with ha | ha <;> cases ha) (.add _ hcall)
  have hlinked := h.linked
  rw [← hcur] at hlinked
  have hlt : b.cur < 2 := hcur.trans_lt h.current_lt
  refine ⟨hqueue, ?_, ?_, fun b' rest' hb' => ?_⟩
  · rcases NestedQueue.queued_or_skipped k s.queue.q with ⟨hthread, hfull⟩ | hskip
    · exact hlinked.queued hlt (h.queue.valid hk hk') hfinished hthread hfull hstart
    · rcases hroom with ⟨hthread, hfull⟩ | hall
      · exact hlinked.queued hlt (h.queue.valid hk hk') hfinished hthread hfull hstart
      · exact hlinked.skipped hlt hskip hall
  · show (if b.cur = 0 then 1 else 0) < 2
    split <;> omega
  · rw [show rest = b' :: rest' from hb'] at hrest
    cases hrest

theorem Valid.step (hk : 1 ≤ k) (hk' : k ≤ 32) (h : Valid k s) {a : Act} (ha : Orderly k s a)
    (hstep : Step k s a s') : Valid k s' := by
  cases hstep with
  | @queue _ queue' hq hown hstruck htick hreturn =>
      have hmoves := moves_of_step hk' (h.queue.valid hk hk') hq hown hstruck
      refine ⟨h.queue.step ha hq, h.linked.moves hmoves, h.current_lt, fun b rest hb => ?_⟩
      obtain ⟨hrest, hcur, hstart, hfinished⟩ := h.alone b rest hb
      refine ⟨hrest, hcur, hstart.trans hmoves.tasks, fun c hc => ?_⟩
      show unfinished queue' c = false
      have hold := hfinished c hc
      have hbegun := hmoves.begun
      rw [← Bool.not_eq_true, unfinished_iff] at hold ⊢
      omega
  | ignored hcall hbusy => exact h
  | accepted hcall haccepts =>
      have hnone : s.bangs = [] := ha
      refine ⟨h.queue, h.linked, h.current_lt, fun b rest hb => ?_⟩
      rw [hnone] at hb
      injection hb with hb hrest
      subst hb
      exact ⟨hrest.symm, rfl, le_rfl, h.accepts_iff.mp haccepts⟩
  | bangEnd hbangs hcall hlevel =>
      exact h.bangEnd hk hk' hbangs hcall (ha _ (by rw [hbangs]; rfl))

/-- In every orderly run at most two chains are not finished, and a bang is accepted exactly if
these are less than two. -/
theorem run_depthTwo (hk : 1 ≤ k) (hk' : k ≤ 32) (h : Run k (Orderly k) s) : DepthTwo s := by
  have hs : Valid k s := by
    induction h with
    | new => exact Valid.new k
    | step _ ha hstep ih => exact ih.step hk hk' ha hstep
  exact hs.depthTwo

end Steps

def command : QueueItem := ⟨0, true, false, none⟩

/-- Two chains of one command each, and a third bang that is ignored. -/
theorem run_depthTwo_bangs :
    ∃ s, Run 16 (Orderly 16) s ∧ DepthTwo s ∧ s.busy = 2 ∧ s.queue.tasks.length = 4 := by
  have hidle : ∀ f ∈ ([] : List Frame).head?, f = .callback := fun f hf => by cases hf
  have hcommand : ∀ {s : WindowContext}, Run 16 (Orderly 16) s → s.queue.MayCall →
      (s.queue.add 16 command).struck = s.queue.struck →
      Run 16 (Orderly 16) { s with queue := s.queue.add 16 command } := fun hs hcall hstruck =>
    hs.step (a := .queue (.add command)) (fun he => by rcases he with he | he <;> cases he)
      (.queue (.add command hcall) (fun item c he _ hid => by
        injection he with he
        rw [← he] at hid
        cases hid) hstruck (fun he => by cases he) fun he => by cases he)
  have hs₀ : Run 16 (Orderly 16) new := .new
  have hs₁ := hs₀.step (a := .bang) rfl (.accepted hidle rfl)
  have hs₂ := hcommand hs₁ hidle rfl
  have hs₃ := hs₂.step (a := .bangEnd) (fun b _ => .inl ⟨rfl, rfl⟩) (.bangEnd rfl hidle rfl)
  have hs₄ := hs₃.step (a := .bang) rfl (.accepted hidle rfl)
  have hs₅ := hcommand hs₄ hidle rfl
  have hs₆ := hs₅.step (a := .bangEnd) (fun b _ => .inl ⟨rfl, rfl⟩) (.bangEnd rfl hidle rfl)
  have hs₇ := hs₆.step (a := .bang) rfl (.ignored hidle (show ¬ (1 : Int) = -1 by decide))
  exact ⟨_, hs₇, run_depthTwo (by decide) (by decide) hs₇, rfl, rfl⟩

/-- There is no room for the task that does nothing, in a queue that has room for three. -/
theorem accepts_third : ¬ ∀ s, Run 2 (fun _ _ => True) s → DepthTwo s := by
  intro hall
  have hqueue : ∀ {s : WindowContext} {a : NestedQueue.Act} {queue : NestedQueue},
      Run 2 (fun _ _ => True) s → NestedQueue.Step 2 s.queue a queue →
      queue.struck = s.queue.struck →
      (∀ item c, a = .add item → c < 2 → item.queueId ≠ some c) → a ≠ .tick → a ≠ .methodReturn →
      Run 2 (fun _ _ => True) { s with queue := queue } :=
    fun hs h hstruck hown htick hreturn => hs.step trivial
      (.queue h hown hstruck (fun he => absurd he htick) fun he => absurd he hreturn)
  have hcommand : ∀ {s : WindowContext}, Run 2 (fun _ _ => True) s → s.queue.MayCall →
      (s.queue.add 2 command).struck = s.queue.struck →
      Run 2 (fun _ _ => True) { s with queue := s.queue.add 2 command } := fun hs hcall hstruck =>
    hqueue hs (.add command hcall) hstruck (fun item c he _ hid => by
      injection he with he
      rw [← he] at hid
      cases hid) (fun he => by cases he) fun he => by cases he
  have hown : ∀ {a : NestedQueue.Act}, (∀ item, a ≠ .add item) →
      ∀ item c, a = .add item → c < 2 → item.queueId ≠ some c := fun h item _ he =>
    absurd he (h item)
  have hidle : ∀ f ∈ ([] : List Frame).head?, f = .callback := fun f hf => by cases hf
  -- the first chain fills the queue
  have hs₀ : Run 2 (fun _ _ => True) new := .new
  have hs₁ := hs₀.step (a := .bang) trivial (.accepted hidle rfl)
  have hs₂ := hcommand (hcommand (hcommand hs₁ hidle rfl) hidle rfl) hidle rfl
  have hs₃ := hs₂.step (a := .bangEnd) trivial (.bangEnd rfl hidle rfl)
  -- its first command is done
  have hs₄ := hqueue hs₃ (.process rfl rfl) rfl (hown fun _ he => by cases he)
    (fun he => by cases he) fun he => by cases he
  have hs₅ := hqueue hs₄ (.processReturn rfl) rfl (hown fun _ he => by cases he)
    (fun he => by cases he) fun he => by cases he
  have hs₆ := hs₅.step trivial (.queue (.tick rfl rfl) (hown fun _ he => by cases he) rfl
    (fun _ => rfl) fun he => by cases he)
  have hs₇ := hqueue hs₆ (.loopCall rfl rfl) rfl (hown fun _ he => by cases he)
    (fun he => by cases he) fun he => by cases he
  have hs₈ := hqueue hs₇ (.advance rfl) rfl (hown fun _ he => by cases he)
    (fun he => by cases he) fun he => by cases he
  have hs₉ := hqueue hs₈ (.loopEnd rfl rfl) rfl (hown fun _ he => by cases he)
    (fun he => by cases he) fun he => by cases he
  -- the second chain has room for one command
  have hs₁₀ := hs₉.step (a := .bang) trivial (.accepted hidle rfl)
  have hs₁₁ := hcommand hs₁₀ hidle rfl
  have hs₁₂ := hs₁₁.step (a := .bangEnd) trivial (.bangEnd rfl hidle rfl)
  have hthird := ((hall _ hs₁₂).accepts_iff rfl).mp rfl
  exact absurd hthird (by decide)

end WindowContext

end PureDataPacket
