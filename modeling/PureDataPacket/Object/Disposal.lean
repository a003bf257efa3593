/-
# `PureDataPacket.Object.Disposal` — tasks of objects that are freed

The objects of a patch share the process queue.  A task of the queue uses the
memory of its owner, in the worker and in its callback, and the cell that it
has been given for its queue id.

`pdp_base` queues one task at a time, and `pdp_base_free` waits for the worker
and strikes out what is left of this task.  A `pdp_dpd_base` queues commands
without a cell and a `pdp_ca` does not look at its cell when it is freed, so
their tasks stay in the queue; they are safe only when there are none.

Pd deletes an object when it is idle or from a callback.  `pdp_procqueue_wait`
is not a step of its own: while the Pd thread is blocked the worker goes on,
and what it does then it may as well have done before.
-/
import PureDataPacket.Queue.Ring

namespace PureDataPacket

/-- The classes of objects that queue tasks. -/
inductive ObjectKind where
  | pdpBase
  | pdpDpdBase
  | pdpCa
  deriving DecidableEq

/-- A call of `pdp_procqueue_add` by the method of an object. -/
inductive Request where
  | pdpBaseBang
  | pdpDpdBaseQueueCommand (process callback : Bool)
  | pdpCaBang
  deriving DecidableEq

namespace Request

/-- The class whose method it is. -/
def kind : Request → ObjectKind
  | pdpBaseBang => .pdpBase
  | pdpDpdBaseQueueCommand _ _ => .pdpDpdBase
  | pdpCaBang => .pdpCa

/-- The test that is made before, of the object's queue id. -/
def mayQueue (queueId : Int) : Request → Prop
  | pdpBaseBang => queueId = -1
  | pdpDpdBaseQueueCommand _ _ => True
  | pdpCaBang => queueId = -1

/-- The task.  The cell of object `o` has number `o`. -/
def item (id o : Nat) : Request → QueueItem
  | pdpBaseBang => ⟨id, true, true, some o⟩
  | pdpDpdBaseQueueCommand process callback => ⟨id, process, callback, none⟩
  | pdpCaBang => ⟨id, true, true, some o⟩

end Request

/-- The queue and the objects that use it. -/
structure Patch where
  queue : QueueSystem
  /-- for each slot the object that `x_owner` is, or is a command of -/
  xOwner : Nat → Nat
  /-- the owners of the callbacks that `pdp_procqueue_add` has called and that are running -/
  callers : List Nat
  freed : Nat → Bool

/-- `pdp_procqueue_finish`, once the worker has nothing to do. -/
def pdpProcqueueFinish (k : Nat) (s : QueueSystem) (indx : Int) : QueueSystem :=
  if indx = -1 then s
  else
    let i := slotOf k indx
    { s with
      q := { s.q with slots := Function.update s.q.slots i (s.q.slots i).struck }
      queued := s.queued.mapIdx fun j item =>
        if s.tail ≤ j ∧ j % 2 ^ k = i then item.struck else item }

namespace Patch

/-- No object has been freed, and no task queued. -/
def init : Patch where
  queue := QueueSystem.init
  xOwner := fun _ => 0
  callers := []
  freed := fun _ => false

/-- The state after object `o` has called `pdp_procqueue_add`, or in the callback of this. -/
def add (k : Nat) (p : Patch) (o : Nat) (item : QueueItem) : Patch :=
  { p with
    queue := p.queue.afterAdd k item
    xOwner :=
      if QueueSystem.addMode k p.queue = .queued then
        Function.update p.xOwner (slotOf k p.queue.q.head) o
      else p.xOwner
    callers :=
      if QueueSystem.addMode k p.queue ≠ .queued ∧ item.callback = true then o :: p.callers
      else p.callers }

/-- `pdp_base_free`. -/
def pdpBaseFree (k : Nat) (p : Patch) (o : Nat) : Patch :=
  { p with
    queue := pdpProcqueueFinish k p.queue (p.queue.cells o)
    freed := Function.update p.freed o true }

/-- `pdp_dpd_base_free`. -/
def pdpDpdBaseFree (k : Nat) (p : Patch) (o : Nat) : Patch := p.pdpBaseFree k o

/-- `pdp_ca_free`. -/
def pdpCaFree (p : Patch) (o : Nat) : Patch := { p with freed := Function.update p.freed o true }

/-- The free method of a class. -/
def free (k : Nat) (kind : ObjectKind) (p : Patch) (o : Nat) : Patch :=
  match kind with
  | .pdpBase => p.pdpBaseFree k o
  | .pdpDpdBase => p.pdpDpdBaseFree k o
  | .pdpCa => p.pdpCaFree o

/-- The free method does not wait, or the worker is done. -/
def FreeReturns (k : Nat) (kind : ObjectKind) (p : Patch) (o : Nat) : Prop :=
  kind = .pdpCa ∨ p.queue.cells o = -1 ∨ hasData k p.queue.q = false

/-- The states of a patch with objects of these classes in which an object is freed only if
`ok`. -/
inductive Reachable (ok : Patch → Nat → Prop) (k : Nat) (kind : Nat → ObjectKind) : Patch → Prop
  | init : Reachable ok k kind init
  | message {p : Patch} (hp : Reachable ok k kind p) (o : Nat) (r : Request)
      (hkind : r.kind = kind o) (hpd : p.queue.MayAdd) (halive : p.freed o = false)
      (hmay : r.mayQueue (p.queue.cells o)) :
      Reachable ok k kind (p.add k o (r.item p.queue.added.length o))
  | callbackReturn {p : Patch} (hp : Reachable ok k kind p) {n : Nat}
      (hdepth : p.queue.depth = n + 1) :
      Reachable ok k kind
        { p with queue := { p.queue with depth := n }, callers := p.callers.tail }
  | queue {p : Patch} {s : QueueSystem} (hp : Reachable ok k kind p)
      (hstep : QueueSystem.Step k p.queue s) (hadded : s.added = p.queue.added)
      (hdepth : s.depth = p.queue.depth) : Reachable ok k kind { p with queue := s }
  | free {p : Patch} (hp : Reachable ok k kind p) (o : Nat) (hpd : p.queue.MayAdd)
      (halive : p.freed o = false) (hreturns : FreeReturns k (kind o) p o) (hok : ok p o) :
      Reachable ok k kind (p.free k (kind o) o)

/-! ## What tasks use -/

/-- The task in place `j` is going to use the memory of an object, in the worker or in its
callback, or to write its cell; or it is in one of these. -/
inductive UsesAt (k : Nat) (p : Patch) (o j : Nat) : Prop
  | process (hcurr : p.queue.curr ≤ j) (hprocess : (p.queue.q.slots (j % 2 ^ k)).process = true)
      (howner : p.xOwner (j % 2 ^ k) = o)
  | callback (hcallback : (p.queue.q.slots (j % 2 ^ k)).callback = true)
      (howner : p.xOwner (j % 2 ^ k) = o)
  | queueId (hbegun : p.queue.begun ≤ j)
      (hcell : (p.queue.q.slots (j % 2 ^ k)).queueId = some o)

/-- A task of the queue refers to an object. -/
def Refers (k : Nat) (p : Patch) (o : Nat) : Prop :=
  ∃ j, p.queue.tail ≤ j ∧ j < p.queue.queued.length ∧ UsesAt k p o j

/-- A callback of the object is running. -/
def InCallback (k : Nat) (p : Patch) (o : Nat) : Prop :=
  o ∈ p.callers ∨ p.queue.base = .called ∧ p.xOwner (p.queue.tail % 2 ^ k) = o

/-- The next step of the worker or of the callback loop uses memory of an object. -/
inductive Touches (k : Nat) (p : Patch) (o : Nat) : Prop
  | process (hdata : hasData k p.queue.q = true)
      (hprocess : (p.queue.currItem k).process = true)
      (howner : p.xOwner (slotOf k p.queue.q.curr) = o)
  | callback (hdata : hasFinished k p.queue.q = true)
      (hcallback : (p.queue.tailItem k).callback = true)
      (howner : p.xOwner (slotOf k p.queue.q.tail) = o)
  | queueId (hdata : hasFinished k p.queue.q = true) (hloop : p.queue.base = .loop)
      (hcell : (p.queue.tailItem k).queueId = some o)
  | running (hcaller : o ∈ p.callers)

/-- No task can reach the object any more. -/
structure Unreferenced (k : Nat) (p : Patch) (o : Nat) : Prop where
  not_refers : ¬ Refers k p o
  not_touches : ¬ Touches k p o

/-- The state in which an object may be freed: it is in no callback of its own, and if its free
method cannot strike out its tasks it has none. -/
structure Free (k : Nat) (kind : Nat → ObjectKind) (p : Patch) (o : Nat) : Prop where
  not_inCallback : ¬ InCallback k p o
  not_refers : kind o = .pdpBase ∨ ¬ Refers k p o

/-! ## The invariant -/

/-- What the cells and the slots have of the tasks.  A task of a `pdp_base` that is not done is
in the slot that the cell of the object says. -/
structure Valid (k : Nat) (kind : Nat → ObjectKind) (p : Patch) : Prop where
  ring : QueueSystem.RingValid k p.queue
  cell_owner : ∀ j o, p.queue.tail ≤ j → j < p.queue.queued.length →
    (p.queue.q.slots (j % 2 ^ k)).queueId = some o → p.xOwner (j % 2 ^ k) = o
  base_cell : ∀ j o, p.queue.begun ≤ j → j < p.queue.queued.length → kind o = .pdpBase →
    p.xOwner (j % 2 ^ k) = o → UsesAt k p o j → p.queue.cells o = (j % 2 ^ k : Nat)
  freed : ∀ o, p.freed o = true → ¬ Refers k p o ∧ o ∉ p.callers

section Steps

variable {k : Nat} {kind : Nat → ObjectKind} {p : Patch} {s s' : QueueSystem}

/-- What a step that is no call of `pdp_procqueue_add` and no return from one does: the counters
go on, and only the callback loop writes a cell, that of the task it comes to. -/
structure Quiet (k : Nat) (s s' : QueueSystem) : Prop where
  slots : s'.q.slots = s.q.slots
  queued : s'.queued = s.queued
  tail_le : s.tail ≤ s'.tail
  curr_le : s.curr ≤ s'.curr
  begun_le : s.begun ≤ s'.begun
  cells : ∀ o, s'.cells o = s.cells o ∨ s.begun = s.tail ∧ s.tail < s'.begun ∧
    s.tail < s.queued.length ∧ (s.q.slots (s.tail % 2 ^ k)).queueId = some o

theorem setQueueId_cases (cells : Nat → Int) (queueId : Option Nat) (n : Int) (o : Nat) :
    setQueueId cells queueId n o = cells o ∨ queueId = some o := by
  cases queueId with
  | none => exact Or.inl rfl
  | some c =>
      rcases eq_or_ne c o with rfl | hne
      · exact Or.inr rfl
      · exact Or.inl (Function.update_of_ne hne.symm n cells : Function.update cells c n o = cells o)

theorem quiet_of_step (hk' : k ≤ 32) (hring : QueueSystem.RingValid k s)
    (hstep : QueueSystem.Step k s s') (hadded : s'.added = s.added) (hdepth : s'.depth = s.depth) :
    Quiet k s s' := by
  have hframe : ∀ {t : QueueSystem}, t.q.slots = s.q.slots → t.queued = s.queued →
      s.tail ≤ t.tail → s.curr ≤ t.curr → s.begun ≤ t.begun → t.cells = s.cells → Quiet k s t := by
    intro t hslots hqueued htail hcurr hbegun hcells
    exact ⟨hslots, hqueued, htail, hcurr, hbegun, fun o => Or.inl (by rw [hcells])⟩
  have hloopCells : s.base = .loop → hasFinished k s.q = true → ∀ {t : QueueSystem},
      t.cells = setQueueId s.cells (s.tailItem k).queueId (-1) → s.tail < t.begun →
      ∀ o, t.cells o = s.cells o ∨ s.begun = s.tail ∧ s.tail < t.begun ∧
        s.tail < s.queued.length ∧ (s.q.slots (s.tail % 2 ^ k)).queueId = some o := by
    intro hloop hdata t hcells hbegun o
    have hlt := (hring.hasFinished_iff hk').mp hdata
    have hslot : s.tailItem k = s.q.slots (s.tail % 2 ^ k) := by
      unfold QueueSystem.tailItem
      rw [hring.tail_eq, slotOf_toInt32 hk']
    rw [hcells]
    rcases setQueueId_cases s.cells (s.tailItem k).queueId (-1) o with h | h
    · exact Or.inl h
    · refine Or.inr ⟨?_, hbegun, hlt.trans_le hring.curr_le, hslot ▸ h⟩
      unfold QueueSystem.begun
      rw [hloop, if_neg (by decide)]
  have hbegun_loop : s.base = .loop → s.begun = s.tail := by
    intro hloop
    unfold QueueSystem.begun
    rw [hloop, if_neg (by decide)]
  have htail := QueueSystem.tail_le_begun s
  cases hstep with
  | add item hpd hid =>
      have hlen := congrArg List.length hadded
      simp [QueueSystem.afterAdd] at hlen
  | @addReturn n hn =>
      have hn' : n = s.depth := hdepth
      omega
  | tick _ hidle _ => exact hframe rfl rfl le_rfl le_rfl (by simp [QueueSystem.begun, hidle]) rfl
  | loopCall _ hloop hdata hcall =>
      have hbegun : s.tail < QueueSystem.begun { s with
          cells := setQueueId s.cells (s.tailItem k).queueId (-1)
          base := .called
          log := s.log ++ [⟨(s.tailItem k).id, .calledBack true⟩] } := by
        simp [QueueSystem.begun]
      exact ⟨rfl, rfl, le_rfl, le_rfl, (hbegun_loop hloop).trans_le hbegun.le,
        hloopCells hloop hdata rfl hbegun⟩
  | loopSkip _ hloop hdata hcall =>
      have hbegun : s.tail < QueueSystem.begun { s with
          cells := setQueueId s.cells (s.tailItem k).queueId (-1)
          q := { s.q with tail := toInt32 (s.q.tail + 1) }
          tail := s.tail + 1 } := by
        simp [QueueSystem.begun, hloop]
      exact ⟨rfl, rfl, Nat.le_succ _, le_rfl, (hbegun_loop hloop).trans_le hbegun.le,
        hloopCells hloop hdata rfl hbegun⟩
  | loopReturn _ hcalled =>
      exact hframe rfl rfl (Nat.le_succ _) le_rfl (by simp [QueueSystem.begun, hcalled]) rfl
  | loopEnd _ hloop _ => exact hframe rfl rfl le_rfl le_rfl (by simp [QueueSystem.begun, hloop]) rfl
  | useThreadOn _ _ => exact hframe rfl rfl le_rfl le_rfl le_rfl rfl
  | useThreadOff _ hidle =>
      exact hframe rfl rfl le_rfl le_rfl (by simp [QueueSystem.begun, hidle]) rfl
  | waited _ hwait _ => exact hframe rfl rfl le_rfl le_rfl (by simp [QueueSystem.begun, hwait]) rfl
  | start _ _ => exact hframe rfl rfl le_rfl le_rfl le_rfl rfl
  | finish _ => exact hframe rfl rfl le_rfl (Nat.le_succ _) le_rfl rfl

theorem slotOf_natCast (i : Nat) : slotOf k (i : Int) = i % 2 ^ k := by
  unfold slotOf masked
  have hcast : ((i : Int) % 2 ^ k) = ((i % 2 ^ k : Nat) : Int) := by push_cast; rfl
  rw [hcast, Int.toNat_natCast]

/-- Two places of the queue are not in one slot. -/
theorem place_inj (hring : QueueSystem.RingValid k s) {i j : Nat} (hi : s.tail ≤ i)
    (hi' : i < s.queued.length) (hj : s.tail ≤ j) (hj' : j < s.queued.length)
    (h : i % 2 ^ k = j % 2 ^ k) : i = j := by
  have hlt := hring.length_lt
  exact slot_inj hi (by omega) hj (by omega) h

/-- A task only uses less when the counters go on or something is struck out. -/
theorem UsesAt.mono {p p' : Patch} {o j : Nat} (h : UsesAt k p' o j)
    (hcurr : p.queue.curr ≤ p'.queue.curr) (hbegun : p.queue.begun ≤ p'.queue.begun)
    (howner : p'.xOwner (j % 2 ^ k) = p.xOwner (j % 2 ^ k))
    (hslot : p'.queue.q.slots (j % 2 ^ k) = p.queue.q.slots (j % 2 ^ k) ∨
      p'.queue.q.slots (j % 2 ^ k) = (p.queue.q.slots (j % 2 ^ k)).struck) : UsesAt k p o j := by
  rcases hslot with hslot | hslot
  · cases h with
    | process hc hprocess ho => exact .process (hcurr.trans hc) (hslot ▸ hprocess) (howner ▸ ho)
    | callback hcallback ho => exact .callback (hslot ▸ hcallback) (howner ▸ ho)
    | queueId hb hcell => exact .queueId (hbegun.trans hb) (hslot ▸ hcell)
  · cases h with
    | process hc hprocess ho =>
        rw [hslot] at hprocess
        exact .process (hcurr.trans hc) hprocess (howner ▸ ho)
    | callback hcallback ho =>
        rw [hslot] at hcallback
        cases hcallback
    | queueId hb hcell =>
        rw [hslot] at hcell
        cases hcell

theorem Valid.init : Valid k kind init where
  ring := QueueSystem.RingValid.init k
  cell_owner := fun j _ _ hj => absurd hj (Nat.not_lt_zero j)
  base_cell := fun j _ _ hj => absurd hj (Nat.not_lt_zero j)
  freed := fun _ h => Bool.noConfusion h

theorem Valid.queueStep (h : Valid k kind p) (hk : 1 ≤ k) (hk' : k ≤ 32)
    (hstep : QueueSystem.Step k p.queue s) (hadded : s.added = p.queue.added)
    (hdepth : s.depth = p.queue.depth) : Valid k kind { p with queue := s } := by
  obtain ⟨hslots, hqueued, htail, hcurr, hbegun, hcells⟩ :=
    quiet_of_step hk' h.ring hstep hadded hdepth
  have huses : ∀ {o j}, UsesAt k { p with queue := s } o j → UsesAt k p o j := fun hu =>
    hu.mono hcurr hbegun rfl (Or.inl (congrFun hslots _))
  have htail_le := QueueSystem.tail_le_begun p.queue
  refine ⟨h.ring.step hk hk' hstep, ?_, ?_, ?_⟩
  · intro j o hj hlen hcell
    have hj' : s.tail ≤ j := hj
    have hlen' : j < s.queued.length := hlen
    have hcell' : (s.q.slots (j % 2 ^ k)).queueId = some o := hcell
    rw [hslots] at hcell'
    exact h.cell_owner j o (htail.trans hj') (hqueued ▸ hlen') hcell'
  · intro j o hj hlen hkind howner hu
    have hj' : s.begun ≤ j := hj
    have hlen' : j < p.queue.queued.length := hqueued ▸ hlen
    have hold := h.base_cell j o (hbegun.trans hj') hlen' hkind howner (huses hu)
    show s.cells o = _
    rcases hcells o with hsame | ⟨hstart, hlt, htlen, hcell⟩
    · rw [hsame, hold]
    · -- The task that the loop has come to was in the slot of the cell too.
      have hto := h.cell_owner p.queue.tail o le_rfl htlen hcell
      have htcell := h.base_cell p.queue.tail o hstart.le htlen hkind hto
        (.queueId hstart.le hcell)
      have hslot : p.queue.tail % 2 ^ k = j % 2 ^ k := by
        exact_mod_cast htcell.symm.trans hold
      have heq := place_inj h.ring le_rfl htlen (by omega) hlen' hslot
      omega
  · intro o ho
    obtain ⟨hnot, hcaller⟩ := h.freed o ho
    refine ⟨?_, hcaller⟩
    rintro ⟨j, hj, hlen, hu⟩
    have hj' : s.tail ≤ j := hj
    exact hnot ⟨j, htail.trans hj', hqueued ▸ hlen, huses hu⟩

/-- The return from a callback that `pdp_procqueue_add` has called. -/
theorem Valid.callbackReturn (h : Valid k kind p) (n : Nat) :
    Valid k kind { p with queue := { p.queue with depth := n }, callers := p.callers.tail } where
  ring := h.ring.frame rfl rfl rfl rfl rfl rfl rfl rfl h.ring.begun_le
  cell_owner := h.cell_owner
  base_cell := fun j o hj hlen hkind howner hu => h.base_cell j o hj hlen hkind howner
    (hu.mono le_rfl le_rfl rfl (Or.inl rfl))
  freed := fun o ho => by
    obtain ⟨hnot, hcaller⟩ := h.freed o ho
    refine ⟨?_, fun hmem => hcaller (List.mem_of_mem_tail hmem)⟩
    rintro ⟨j, hj, hlen, hu⟩
    exact hnot ⟨j, hj, hlen, hu.mono le_rfl le_rfl rfl (Or.inl rfl)⟩

/-- A request names no cell but that of its object, and this one only when it is free. -/
theorem Request.queueId_item {r : Request} {o id c : Nat} (h : (r.item id o).queueId = some c) :
    c = o ∧ ∀ n, r.mayQueue n → n = -1 := by
  cases r with
  | pdpBaseBang => exact ⟨(Option.some.inj h).symm, fun _ hn => hn⟩
  | pdpDpdBaseQueueCommand process callback => cases h
  | pdpCaBang => exact ⟨(Option.some.inj h).symm, fun _ hn => hn⟩

theorem Request.of_pdpBase {r : Request} (h : r.kind = .pdpBase) : r = .pdpBaseBang := by
  cases r with
  | pdpBaseBang => rfl
  | pdpDpdBaseQueueCommand process callback => cases h
  | pdpCaBang => cases h

/-- A request that is not queued leaves the cells as they are. -/
theorem Valid.messageSkipped (h : Valid k kind p) {o : Nat} {r : Request}
    (halive : p.freed o = false) (hmay : r.mayQueue (p.queue.cells o)) {id : Nat}
    (hmode : QueueSystem.addMode k p.queue ≠ .queued) :
    Valid k kind (p.add k o (r.item id o)) := by
  have hcells : setQueueId p.queue.cells (r.item id o).queueId (-1) = p.queue.cells := by
    cases hid : (r.item id o).queueId with
    | none => rfl
    | some c =>
        obtain ⟨rfl, hfree⟩ := Request.queueId_item hid
        rw [← hfree _ hmay]
        exact Function.update_eq_self c p.queue.cells
  unfold add
  rw [QueueSystem.afterAdd_skipped _ _ hmode, hcells, if_neg hmode]
  refine ⟨h.ring.frame rfl rfl rfl rfl rfl rfl rfl rfl h.ring.begun_le, h.cell_owner, ?_, ?_⟩
  · intro j o' hj hlen hkind howner hu
    exact h.base_cell j o' hj hlen hkind howner (hu.mono le_rfl le_rfl rfl (Or.inl rfl))
  · intro o' ho'
    obtain ⟨hnot, hcaller⟩ := h.freed o' ho'
    refine ⟨?_, ?_⟩
    · rintro ⟨j, hj, hlen, hu⟩
      exact hnot ⟨j, hj, hlen, hu.mono le_rfl le_rfl rfl (Or.inl rfl)⟩
    · have hne : o' ≠ o := by
        rintro rfl
        rw [halive] at ho'
        cases ho'
      dsimp only
      split
      · exact List.not_mem_cons_of_ne_of_not_mem hne hcaller
      · exact hcaller

theorem Valid.messageQueued (h : Valid k kind p) (hk : 1 ≤ k) (hk' : k ≤ 32) {o : Nat}
    {r : Request} (hkind : r.kind = kind o) (halive : p.freed o = false)
    (hmay : r.mayQueue (p.queue.cells o)) {id : Nat}
    (hmode : QueueSystem.addMode k p.queue = .queued) :
    Valid k kind (p.add k o (r.item id o)) := by
  have hring := h.ring.add hk hk' (r.item id o) hmode
  have hlt := h.ring.length_lt
  have hbegun := h.ring.begun_le.trans h.ring.curr_le
  have htail := QueueSystem.tail_le_begun p.queue
  have hhead : slotOf k p.queue.q.head = p.queue.queued.length % 2 ^ k := by
    rw [h.ring.head_eq, slotOf_toInt32 hk']
  -- The slot that is written is not that of a task.
  have hother : ∀ {j}, p.queue.tail ≤ j → j < p.queue.queued.length →
      j % 2 ^ k ≠ p.queue.queued.length % 2 ^ k := by
    intro j hj hlen heq
    have := slot_inj hj (by omega) (by omega : p.queue.tail ≤ p.queue.queued.length) hlt heq
    omega
  unfold add
  rw [QueueSystem.afterAdd_queued _ _ hmode, hhead] at hring
  rw [QueueSystem.afterAdd_queued _ _ hmode, if_pos hmode, if_neg (fun hc => hc.1 hmode), hhead]
  have hlength : (p.queue.queued ++ [r.item id o]).length = p.queue.queued.length + 1 := by simp
  have hplace : ∀ {j}, j < (p.queue.queued ++ [r.item id o]).length →
      j < p.queue.queued.length ∨ j = p.queue.queued.length := by
    intro j hj
    omega
  refine ⟨hring, ?_, ?_, ?_⟩
  · intro j o' hj hlen hcell
    dsimp only at hj hcell ⊢
    rcases hplace hlen with hold | rfl
    · rw [Function.update_of_ne (hother hj hold)] at hcell ⊢
      exact h.cell_owner j o' hj hold hcell
    · rw [Function.update_self] at hcell ⊢
      exact (Request.queueId_item hcell).1.symm
  · intro j o' hj hlen hkind' howner hu
    have hj : p.queue.begun ≤ j := hj
    dsimp only at howner ⊢
    rcases hplace hlen with hold | rfl
    · have hne := hother (htail.trans hj) hold
      rw [Function.update_of_ne hne] at howner
      have hcell := h.base_cell j o' hj hold hkind' howner (hu.mono le_rfl le_rfl
        (Function.update_of_ne hne _ _) (Or.inl (Function.update_of_ne hne _ _)))
      rcases setQueueId_cases p.queue.cells (r.item id o).queueId
          (p.queue.queued.length % 2 ^ k : Nat) o' with hsame | hmine
      · rw [hsame, hcell]
      · -- Then the object had a free cell, and no task that was not done.
        obtain ⟨rfl, hfree⟩ := Request.queueId_item hmine
        have := hfree _ hmay
        omega
    · rw [Function.update_self] at howner
      subst howner
      rw [Request.of_pdpBase (hkind.trans hkind')]
      exact Function.update_self _ _ _
  · intro o' ho'
    obtain ⟨hnot, hcaller⟩ := h.freed o' ho'
    have hne : o ≠ o' := by
      rintro rfl
      rw [halive] at ho'
      cases ho'
    refine ⟨?_, hcaller⟩
    rintro ⟨j, hj, hlen, hu⟩
    have hj : p.queue.tail ≤ j := hj
    rcases hplace hlen with hold | rfl
    · have hslot := hother hj hold
      exact hnot ⟨j, hj, hold, hu.mono le_rfl le_rfl (Function.update_of_ne hslot _ _)
        (Or.inl (Function.update_of_ne hslot _ _))⟩
    · cases hu with
      | process _ _ howner =>
          dsimp only at howner
          rw [Function.update_self] at howner
          exact hne howner
      | callback _ howner =>
          dsimp only at howner
          rw [Function.update_self] at howner
          exact hne howner
      | queueId _ hcell =>
          dsimp only at hcell
          rw [Function.update_self] at hcell
          exact hne (Request.queueId_item hcell).1.symm

/-! ## Freeing -/

theorem RingValid.finish (h : QueueSystem.RingValid k s) (indx : Int) :
    QueueSystem.RingValid k (pdpProcqueueFinish k s indx) := by
  unfold pdpProcqueueFinish
  split
  · exact h
  · refine ⟨?_, h.curr_eq, h.tail_eq, h.begun_le, ?_, ?_, ?_⟩
    · dsimp only
      rw [List.length_mapIdx]
      exact h.head_eq
    · dsimp only
      rw [List.length_mapIdx]
      exact h.ran_le
    · dsimp only
      rw [List.length_mapIdx]
      exact h.length_lt
    · intro j hj hlen
      have hj : s.tail ≤ j := hj
      have hlen' : j < s.queued.length := List.length_mapIdx (l := s.queued) ▸ hlen
      dsimp only
      rw [List.getElem_mapIdx]
      rcases eq_or_ne (j % 2 ^ k) (slotOf k indx) with heq | hne
      · have hitem : s.q.slots (slotOf k indx) = s.queued[j] := heq ▸ h.slots_eq j hj hlen'
        rw [if_pos ⟨hj, heq⟩, Function.update_apply, if_pos heq, hitem]
      · rw [if_neg (fun hc => hne hc.2), Function.update_of_ne hne, h.slots_eq j hj hlen']

theorem finish_slots (s : QueueSystem) (indx : Int) (i : Nat) :
    (pdpProcqueueFinish k s indx).q.slots i = s.q.slots i ∨
      (pdpProcqueueFinish k s indx).q.slots i = (s.q.slots i).struck := by
  unfold pdpProcqueueFinish
  split
  · exact Or.inl rfl
  · rcases eq_or_ne i (slotOf k indx) with rfl | hne
    · exact Or.inr (Function.update_self _ _ _)
    · exact Or.inl (Function.update_of_ne hne _ _)

theorem finish_frame (s : QueueSystem) (indx : Int) :
    (pdpProcqueueFinish k s indx).tail = s.tail ∧ (pdpProcqueueFinish k s indx).curr = s.curr ∧
      (pdpProcqueueFinish k s indx).begun = s.begun ∧
      (pdpProcqueueFinish k s indx).cells = s.cells ∧
      (pdpProcqueueFinish k s indx).queued.length = s.queued.length := by
  unfold pdpProcqueueFinish
  split
  · exact ⟨rfl, rfl, rfl, rfl, rfl⟩
  · exact ⟨rfl, rfl, rfl, rfl, List.length_mapIdx⟩

theorem free_queue (kd : ObjectKind) (o : Nat) : ∃ indx,
    p.free k kd o = { p with
      queue := pdpProcqueueFinish k p.queue indx
      freed := Function.update p.freed o true } ∧ (kd ≠ .pdpCa → indx = p.queue.cells o) := by
  cases kd with
  | pdpBase => exact ⟨_, rfl, fun _ => rfl⟩
  | pdpDpdBase => exact ⟨_, rfl, fun _ => rfl⟩
  | pdpCa => exact ⟨-1, rfl, fun h => absurd rfl h⟩

/-- After `pdp_base_free` no task refers to the object. -/
theorem not_refers_pdpBaseFree (h : Valid k kind p) (hk' : k ≤ 32) {o : Nat}
    (hkind : kind o = .pdpBase) (hreturns : FreeReturns k (kind o) p o)
    (hcallback : ¬ InCallback k p o) : ¬ Refers k (p.pdpBaseFree k o) o := by
  rintro ⟨j, hj, hlen, hu⟩
  obtain ⟨htail, hcurr, hbegun, -, hlength⟩ := @finish_frame k p.queue (p.queue.cells o)
  have hj : p.queue.tail ≤ j := htail ▸ hj
  have hlen : j < p.queue.queued.length := hlength ▸ hlen
  have hu' : UsesAt k p o j := hu.mono hcurr.ge hbegun.ge rfl (finish_slots _ _ _)
  -- A task of the object whose callback is not running is the one in the slot of the cell.
  have howner : p.xOwner (j % 2 ^ k) = o := by
    cases hu' with
    | process _ _ ho => exact ho
    | callback _ ho => exact ho
    | queueId _ hcell => exact h.cell_owner j o hj hlen hcell
  have hplace : p.queue.begun ≤ j := by
    by_contra hlt
    have hcalled : p.queue.base = .called ∧ j = p.queue.tail := by
      unfold QueueSystem.begun at hlt
      split at hlt
      · next hc => exact ⟨hc, by omega⟩
      · omega
    exact hcallback (Or.inr ⟨hcalled.1, hcalled.2 ▸ howner⟩)
  have hcell := h.base_cell j o hplace hlen hkind howner hu'
  have hne : p.queue.cells o ≠ -1 := by omega
  have hdone : ¬ p.queue.curr < p.queue.queued.length := by
    rcases hreturns with hca | hidle | hdata
    · rw [hkind] at hca
      cases hca
    · exact absurd hidle hne
    · rw [← h.ring.hasData_iff hk', hdata]
      exact Bool.false_ne_true
  have hstruck : (p.pdpBaseFree k o).queue.q.slots (j % 2 ^ k) =
      (p.queue.q.slots (j % 2 ^ k)).struck := by
    show (pdpProcqueueFinish k p.queue (p.queue.cells o)).q.slots (j % 2 ^ k) = _
    unfold pdpProcqueueFinish
    rw [if_neg hne, hcell, slotOf_natCast, Nat.mod_mod]
    exact Function.update_self _ _ _
  cases hu with
  | process hc _ _ =>
      have hc : p.queue.curr ≤ j := hcurr ▸ hc
      omega
  | callback hcallback _ =>
      rw [hstruck] at hcallback
      cases hcallback
  | queueId _ hid =>
      rw [hstruck] at hid
      cases hid

theorem Valid.free (h : Valid k kind p) (hk' : k ≤ 32) {o : Nat}
    (hreturns : FreeReturns k (kind o) p o) (hfree : Free k kind p o) :
    Valid k kind (p.free k (kind o) o) := by
  have hself : ¬ Refers k (p.free k (kind o) o) o := by
    obtain ⟨indx, heq, -⟩ := @free_queue k p (kind o) o
    rcases hfree.not_refers with hkind | hnot
    · have hbase := not_refers_pdpBaseFree h hk' hkind hreturns hfree.not_inCallback
      rw [hkind]
      exact hbase
    · rw [heq]
      rintro ⟨j, hj, hlen, hu⟩
      obtain ⟨htail, hcurr, hbegun, -, hlength⟩ := @finish_frame k p.queue indx
      exact hnot ⟨j, htail ▸ hj, hlength ▸ hlen,
        hu.mono hcurr.ge hbegun.ge rfl (finish_slots _ _ _)⟩
  obtain ⟨indx, heq, -⟩ := @free_queue k p (kind o) o
  rw [heq] at hself ⊢
  obtain ⟨htail, hcurr, hbegun, hcells, hlength⟩ := @finish_frame k p.queue indx
  refine ⟨RingValid.finish h.ring indx, ?_, ?_, ?_⟩
  · intro j o' hj hlen hcell
    rcases @finish_slots k p.queue indx (j % 2 ^ k) with hslot | hslot
    · exact h.cell_owner j o' (htail ▸ hj) (hlength ▸ hlen) (hslot ▸ hcell)
    · dsimp only at hcell
      rw [hslot] at hcell
      cases hcell
  · intro j o' hj hlen hkind howner hu
    dsimp only
    rw [hcells]
    exact h.base_cell j o' (hbegun ▸ hj) (hlength ▸ hlen) hkind howner
      (hu.mono hcurr.ge hbegun.ge rfl (finish_slots _ _ _))
  · intro o' ho'
    rcases eq_or_ne o' o with rfl | hne
    · exact ⟨hself, fun hmem => hfree.not_inCallback (Or.inl hmem)⟩
    · have hold : p.freed o' = true := by
        dsimp only at ho'
        rwa [Function.update_of_ne hne] at ho'
      obtain ⟨hnot, hcaller⟩ := h.freed o' hold
      refine ⟨?_, hcaller⟩
      rintro ⟨j, hj, hlen, hu⟩
      exact hnot ⟨j, htail ▸ hj, hlength ▸ hlen,
        hu.mono hcurr.ge hbegun.ge rfl (finish_slots _ _ _)⟩

theorem Reachable.valid (hk : 1 ≤ k) (hk' : k ≤ 32) (h : Reachable (Free k kind) k kind p) :
    Valid k kind p := by
  induction h with
  | init => exact Valid.init
  | @message p _ o r hkind _ halive hmay ih =>
      by_cases hmode : QueueSystem.addMode k p.queue = .queued
      · exact ih.messageQueued hk hk' hkind halive hmay hmode
      · exact ih.messageSkipped halive hmay hmode
  | callbackReturn _ _ ih => exact ih.callbackReturn _
  | queue _ hstep hadded hdepth ih => exact ih.queueStep hk hk' hstep hadded hdepth
  | free _ o _ _ hreturns hok ih => exact ih.free hk' hreturns hok

/-- The worker and the callback loop use what their tasks refer to. -/
theorem Touches.refers (h : Valid k kind p) (hk' : k ≤ 32) {o : Nat} (ht : Touches k p o) :
    Refers k p o ∨ o ∈ p.callers := by
  have hcurr : slotOf k p.queue.q.curr = p.queue.curr % 2 ^ k := by
    rw [h.ring.curr_eq, slotOf_toInt32 hk']
  have htail : slotOf k p.queue.q.tail = p.queue.tail % 2 ^ k := by
    rw [h.ring.tail_eq, slotOf_toInt32 hk']
  have hfinished : hasFinished k p.queue.q = true → p.queue.tail < p.queue.queued.length :=
    fun hdata => ((h.ring.hasFinished_iff hk').mp hdata).trans_le h.ring.curr_le
  cases ht with
  | process hdata hprocess howner =>
      unfold QueueSystem.currItem at hprocess
      rw [hcurr] at hprocess howner
      exact Or.inl ⟨p.queue.curr, h.ring.tail_le, (h.ring.hasData_iff hk').mp hdata,
        .process le_rfl hprocess howner⟩
  | callback hdata hcallback howner =>
      unfold QueueSystem.tailItem at hcallback
      rw [htail] at hcallback howner
      exact Or.inl ⟨p.queue.tail, le_rfl, hfinished hdata, .callback hcallback howner⟩
  | queueId hdata hloop hcell =>
      unfold QueueSystem.tailItem at hcell
      rw [htail] at hcell
      refine Or.inl ⟨p.queue.tail, le_rfl, hfinished hdata, .queueId ?_ hcell⟩
      unfold QueueSystem.begun
      rw [hloop, if_neg (by decide)]
  | running hcaller => exact Or.inr hcaller

/-- If objects are freed as they may be, no task ever refers to one that has been. -/
theorem Reachable.unreferenced (hk : 1 ≤ k) (hk' : k ≤ 32)
    (h : Reachable (Free k kind) k kind p) :
    ∀ o, p.freed o = true → Unreferenced k p o := by
  intro o ho
  have hvalid := h.valid hk hk'
  obtain ⟨hnot, hcaller⟩ := hvalid.freed o ho
  refine ⟨hnot, fun ht => ?_⟩
  rcases ht.refers hvalid hk' with hr | hc
  · exact hnot hr
  · exact hcaller hc

end Steps

/-- A packet processor is told to process, and freed when the worker is done with the packet and
the callback is still to come. -/
theorem unreferenced_pdpBase : ∃ p : Patch, p.freed 0 = true ∧
    (p.queue.q.slots 0).process = true ∧ ∀ o, p.freed o = true → Unreferenced 10 p o := by
  let kind : Nat → ObjectKind := fun _ => .pdpBase
  have h0 : Reachable (Free 10 kind) 10 kind init := .init
  have h1 := h0.message 0 .pdpBaseBang rfl (Or.inr (Or.inl rfl)) rfl rfl
  have h2 := h1.queue (.start rfl (by decide)) rfl rfl
  have h3 := h2.queue (.finish rfl) rfl rfl
  have hfree := h3.free 0 (Or.inr (Or.inl rfl)) rfl (Or.inr (Or.inr (by decide)))
    ⟨fun h => h.elim List.not_mem_nil (fun hc => Base.noConfusion hc.1), Or.inl rfl⟩
  exact ⟨_, rfl, rfl, hfree.unreferenced (by decide) (by decide)⟩

/-- A command of a freed object is what the worker comes to next. -/
theorem freed_referenced : ∃ p : Patch,
    Reachable (fun _ _ => True) 10 (fun _ => .pdpDpdBase) p ∧ p.freed 0 = true ∧
      ¬ Unreferenced 10 p 0 := by
  let kind : Nat → ObjectKind := fun _ => .pdpDpdBase
  have h0 : Reachable (fun _ _ => True) 10 kind init := .init
  have h1 := h0.message 0 (.pdpDpdBaseQueueCommand true false) rfl (Or.inr (Or.inl rfl)) rfl trivial
  have hfree := h1.free 0 (Or.inr (Or.inl rfl)) rfl (Or.inr (Or.inl rfl)) trivial
  exact ⟨_, hfree, rfl, fun h => h.not_touches (.process (by decide) rfl rfl)⟩

end Patch

end PureDataPacket
