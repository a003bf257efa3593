/-
# `PureDataPacket.Queue.Completion` — the ring runs empty

From every state the worker catches up, and then one pass of the callback loop
leaves the ring empty.  With the invariants this is the whole contract of the queue.

Three things are outside of it.  A ring of one slot is never full and never has
data.  The counters are `int`s and go around.  Two tasks that share the place of
their queue id lose it to the first callback.

| | |
| :-- | :-- |
| `Serves` | some steps, none of which adds a task |
| `Valid` | all that a state of a run has to satisfy |
| `serves_worker` | the worker does all there is to do |
| `serves_loop` | a pass of the callback loop leaves the ring empty |
| `serves_all` | what is in the ring is served |
| `Served` | the contract of the queue, in one state of a run |
-/
import PureDataPacket.Queue.Service

namespace PureDataPacket

namespace QueueSystem

/-! ## Runs that add nothing -/

/-- Some steps, none of which adds a task. -/
inductive Serves (k : Nat) : QueueSystem → QueueSystem → Prop
  | refl (s : QueueSystem) : Serves k s s
  | step {s s₁ s' : QueueSystem} (h : Step k s s₁) (hadded : s₁.added = s.added)
      (hrest : Serves k s₁ s') : Serves k s s'

section Serves

variable {k : Nat} {s s₁ s' : QueueSystem}

theorem Serves.trans (h : Serves k s s₁) (h' : Serves k s₁ s') : Serves k s s' := by
  induction h with
  | refl => exact h'
  | step hstep hadded _ ih => exact .step hstep hadded (ih h')

theorem Serves.single (h : Step k s s') (hadded : s'.added = s.added) : Serves k s s' :=
  .step h hadded (.refl s')

theorem Serves.added_eq (h : Serves k s s') : s'.added = s.added := by
  induction h with
  | refl => rfl
  | step _ hadded _ ih => rw [ih, hadded]

theorem Serves.reachable (h : Serves k s s') (hs : Reachable k s) : Reachable k s' := by
  induction h with
  | refl => exact hs
  | step hstep _ _ ih => exact ih (.step hs hstep)

/-- All that a state of a run has to satisfy. -/
structure Valid (k : Nat) (s : QueueSystem) : Prop where
  ring : RingValid k s
  log : LogValid s
  cells : s.shared = false → CellsValid k s
  thread : ThreadValid s

theorem Valid.init (k : Nat) : Valid k init where
  ring := RingValid.init k
  log := LogValid.init
  cells := fun _ => ⟨fun _ _ hj => absurd hj (Nat.not_lt_zero _), fun _ _ => rfl, List.Pairwise.nil⟩
  thread := fun h => Bool.noConfusion h

theorem Valid.step (hk : 1 ≤ k) (hk' : k ≤ 32) (h : Valid k s) (hstep : Step k s s') :
    Valid k s' where
  ring := h.ring.step hk hk' hstep
  log := h.log.step hk' h.ring hstep
  cells := CellsValid.step hk' h.ring hstep h.cells
  thread := h.thread.step hk' h.ring hstep

theorem Reachable.valid (hk : 1 ≤ k) (hk' : k ≤ 32) (h : Reachable k s) : Valid k s := by
  induction h with
  | init => exact Valid.init k
  | step _ hstep ih => exact ih.step hk hk' hstep

theorem Serves.valid (hk : 1 ≤ k) (hk' : k ≤ 32) (h : Serves k s s') (hs : Valid k s) :
    Valid k s' := by
  induction h with
  | refl => exact hs
  | step hstep _ _ ih => exact ih (hs.step hk hk' hstep)

theorem serves_finish : ∃ s', Serves k s s' ∧ s'.running = false ∧ s'.base = s.base ∧
    s'.depth = s.depth ∧ s'.curr = s.ran ∧ s'.queued = s.queued := by
  cases hrunning : s.running with
  | false =>
      refine ⟨s, .refl s, hrunning, rfl, rfl, ?_, rfl⟩
      simp [ran, hrunning]
  | true =>
      refine ⟨_, .single (.finish hrunning) rfl, rfl, rfl, rfl, ?_, rfl⟩
      simp [ran, hrunning]

theorem serves_worker (hk : 1 ≤ k) (hk' : k ≤ 32) (n : Nat) :
    ∀ s : QueueSystem, Valid k s → s.queued.length ≤ s.curr + n →
      ∃ s', Serves k s s' ∧ s'.running = false ∧ s'.base = s.base ∧ s'.depth = s.depth ∧
        s'.curr = s'.queued.length := by
  induction n with
  | zero =>
      intro s h hn
      obtain ⟨s₁, hserves, hrunning, hbase, hdepth, hcurr, hqueued⟩ := serves_finish (k := k) (s := s)
      refine ⟨s₁, hserves, hrunning, hbase, hdepth, ?_⟩
      have := h.ring.ran_le
      have := curr_le_ran s
      rw [hqueued, hcurr]
      omega
  | succ n ih =>
      intro s h hn
      obtain ⟨s₁, hserves, hrunning, hbase, hdepth, hcurr, hqueued⟩ := serves_finish (k := k) (s := s)
      have h₁ := hserves.valid hk hk' h
      have hle := curr_le_ran s
      have hran := h.ring.ran_le
      rcases Nat.lt_or_ge s₁.curr s₁.queued.length with hlt | hge
      · have hdata := (h₁.ring.hasData_iff hk').mpr hlt
        have hstart := Step.start hrunning hdata
        obtain ⟨s₂, hs₂⟩ : ∃ s₂, s₂ = { s₁ with
          running := true
          log := s₁.log ++ events (s₁.currItem k).id (s₁.currItem k).processes } := ⟨_, rfl⟩
        rw [← hs₂] at hstart
        have h₂ := h₁.step hk hk' hstart
        have hfinish : Step k s₂ { s₂ with
            running := false
            q := { s₂.q with curr := toInt32 (s₂.q.curr + 1) }
            curr := s₂.curr + 1 } := .finish (by rw [hs₂])
        obtain ⟨s', hserves', hrunning', hbase', hdepth', hcurr'⟩ := ih _ (h₂.step hk hk' hfinish) (by
          show s₂.queued.length ≤ s₂.curr + 1 + n
          rw [hs₂]
          show s₁.queued.length ≤ s₁.curr + 1 + n
          rw [hcurr, hqueued]
          omega)
        refine ⟨s', hserves.trans (.step hstart (by rw [hs₂]) (.step hfinish rfl hserves')),
          hrunning', ?_, ?_, hcurr'⟩
        · rw [hbase']
          show s₂.base = s.base
          rw [hs₂, ← hbase]
        · rw [hdepth']
          show s₂.depth = s.depth
          rw [hs₂, ← hdepth]
      · refine ⟨s₁, hserves, hrunning, hbase, hdepth, ?_⟩
        have := h₁.ring.curr_le
        omega

theorem serves_returns (n : Nat) :
    ∀ s : QueueSystem, s.depth = n → Serves k s { s with depth := 0 } := by
  induction n with
  | zero =>
      intro s hdepth
      have heq : { s with depth := 0 } = s := by
        rw [← hdepth]
      rw [heq]
      exact .refl s
  | succ n ih =>
      intro s hdepth
      exact .step (.addReturn hdepth) rfl (ih { s with depth := n } rfl)

theorem serves_loop (hk : 1 ≤ k) (hk' : k ≤ 32) (n : Nat) :
    ∀ s : QueueSystem, Valid k s → s.depth = 0 → s.base = .loop → s.curr = s.queued.length →
      s.curr ≤ s.tail + n →
      ∃ s', Serves k s s' ∧ s'.base = .idle ∧ s'.depth = 0 ∧ s'.curr = s'.queued.length ∧
        s'.tail = s'.queued.length := by
  induction n with
  | zero =>
      intro s h hdepth hloop hcurr hn
      have htail := h.ring.tail_le
      have hdata : hasFinished k s.q = false := by
        rw [← Bool.not_eq_true, h.ring.hasFinished_iff hk']
        omega
      refine ⟨_, .single (.loopEnd hdepth hloop hdata) rfl, rfl, hdepth, hcurr, ?_⟩
      show s.tail = s.queued.length
      omega
  | succ n ih =>
      intro s h hdepth hloop hcurr hn
      have htail := h.ring.tail_le
      rcases Nat.lt_or_ge s.tail s.curr with hlt | hge
      · have hdata := (h.ring.hasFinished_iff hk').mpr hlt
        cases hcall : (s.tailItem k).callback with
        | false =>
            have hskip := Step.loopSkip hdepth hloop hdata hcall
            obtain ⟨s', hserves, hend⟩ := ih _ (h.step hk hk' hskip) hdepth hloop hcurr (by
              show s.curr ≤ s.tail + 1 + n
              omega)
            exact ⟨s', .step hskip rfl hserves, hend⟩
        | true =>
            have hcalled := Step.loopCall hdepth hloop hdata hcall
            have hreturn := Step.loopReturn (k := k) (s := { s with
              cells := setQueueId s.cells (s.tailItem k).queueId (-1)
              base := .called
              log := s.log ++ [⟨(s.tailItem k).id, .calledBack true⟩] }) hdepth rfl
            obtain ⟨s', hserves, hend⟩ := ih _ ((h.step hk hk' hcalled).step hk hk' hreturn) hdepth
              rfl hcurr (by
                show s.curr ≤ s.tail + 1 + n
                omega)
            exact ⟨s', .step hcalled rfl (.step hreturn rfl hserves), hend⟩
      · have hdata : hasFinished k s.q = false := by
          rw [← Bool.not_eq_true, h.ring.hasFinished_iff hk']
          omega
        refine ⟨_, .single (.loopEnd hdepth hloop hdata) rfl, rfl, hdepth, hcurr, ?_⟩
        show s.tail = s.queued.length
        omega

/-- The Pd thread gets to the callback loop, or has nothing to call. -/
theorem serves_toLoop (hk' : k ≤ 32) (h : Valid k s) (hdepth : s.depth = 0)
    (hcurr : s.curr = s.queued.length) :
    ∃ s', Serves k s s' ∧ s'.depth = 0 ∧ s'.curr = s'.queued.length ∧
      (s'.base = .loop ∨ s'.base = .idle ∧ s'.tail = s'.queued.length) := by
  cases hbase : s.base with
  | loop => exact ⟨s, .refl s, hdepth, hcurr, Or.inl hbase⟩
  | called =>
      exact ⟨_, .single (.loopReturn hdepth hbase) rfl, hdepth, hcurr, Or.inl rfl⟩
  | waiting =>
      have hdata : hasData k s.q = false := by
        rw [← Bool.not_eq_true, h.ring.hasData_iff hk']
        omega
      exact ⟨_, .single (.waited hdepth hbase hdata) rfl, hdepth, hcurr, Or.inl rfl⟩
  | idle =>
      cases hthread : s.q.useThread with
      | true => exact ⟨_, .single (.tick hdepth hbase hthread) rfl, hdepth, hcurr, Or.inl rfl⟩
      | false =>
          refine ⟨s, .refl s, hdepth, hcurr, Or.inr ⟨hbase, ?_⟩⟩
          rcases (h.thread hthread).2 with hend | hloop | hcalled
          · exact hend
          · rw [hbase] at hloop
            cases hloop
          · rw [hbase] at hcalled
            cases hcalled

theorem serves_all (hk : 1 ≤ k) (hk' : k ≤ 32) (h : Valid k s) :
    ∃ s', Serves k s s' ∧ s'.base = .idle ∧ s'.depth = 0 ∧ s'.curr = s'.queued.length ∧
      s'.tail = s'.queued.length := by
  obtain ⟨s₁, hserves₁, _, _, _, hcurr₁⟩ := serves_worker hk hk' s.queued.length s h (by omega)
  have h₁ := hserves₁.valid hk hk' h
  have hserves₂ := serves_returns (k := k) s₁.depth s₁ rfl
  have h₂ := hserves₂.valid hk hk' h₁
  obtain ⟨s₃, hserves₃, hdepth₃, hcurr₃, hend⟩ := serves_toLoop hk' h₂ rfl hcurr₁
  have h₃ := hserves₃.valid hk hk' h₂
  have hserves := hserves₁.trans (hserves₂.trans hserves₃)
  rcases hend with hloop | ⟨hidle, htail⟩
  · obtain ⟨s', hserves', hend'⟩ :=
      serves_loop hk hk' s₃.curr s₃ h₃ hdepth₃ hloop hcurr₃ (by omega)
    exact ⟨s', hserves.trans hserves', hend'⟩
  · exact ⟨s₃, hserves, hidle, hdepth₃, hcurr₃, htail⟩

end Serves

/-! ## The contract -/

/-- All that happens to a task. -/
def fullHistory (item : QueueItem) (mode : Mode) : List Happening :=
  (.added mode :: mode.calls item) ++
    if mode = .queued then item.processes ++ item.callsBack true else []

/-- The contract of the queue, in one state of a run. -/
structure Served (k : Nat) (s : QueueSystem) : Prop where
  /-- The machine's counters are the numbers of tasks, as `int`s. -/
  counters : s.q.head = toInt32 s.queued.length ∧ s.q.curr = toInt32 s.curr ∧
    s.q.tail = toInt32 s.tail
  ordered : s.tail ≤ s.curr ∧ s.curr ≤ s.queued.length ∧ s.queued.length - s.tail ≤ 2 ^ k - 1
  /-- No slot in use is overwritten. -/
  slots : ∀ j (_ : s.tail ≤ j) (hj : j < s.queued.length),
    s.q.slots (j % 2 ^ k) = s.queued[j]
  /-- When a task is queued, and when it is not. -/
  modes : ∀ item, (pdpProcqueueAdd k s.q s.cells item).1 =
    if s.q.useThread = false then .direct
    else if s.queued.length - s.tail = 2 ^ k - 1 then .full else .queued
  ids : s.added.map (fun a => a.1.id) = List.range s.added.length
  queued : s.queued = (s.added.filter fun a => a.2 = .queued).map Prod.fst
  /-- What has happened to a task: all of it in this order, up to where the two threads are. -/
  history : ∀ a ∈ s.added, s.history a.1.id = s.expected a.1 a.2
  /-- The calls of a task that is not queued are made at once. -/
  immediate : ∀ a ∈ s.added,
    ∃ before after, s.log = before ++ events a.1.id (.added a.2 :: a.2.calls a.1) ++ after
  /-- The others are called back in the order of the adds. -/
  order : s.callbackLog = s.firstCallbacks s.begun
  /-- The queue id of a task that waits is its slot. -/
  waiting : s.shared = false → ∀ j (_ : s.begun ≤ j) (hj : j < s.queued.length) (c : Nat),
    s.queued[j].queueId = some c → s.cells c = j % 2 ^ k
  /-- Any other queue id is -1. -/
  notWaiting : s.shared = false → ∀ c, (∀ item ∈ s.pending, item.queueId ≠ some c) →
    s.cells c = -1

section Contract

variable {k : Nat} {s : QueueSystem}

theorem Valid.served (h : Valid k s) (hk : 1 ≤ k) (hk' : k ≤ 32) : Served k s where
  counters := ⟨h.ring.head_eq, h.ring.curr_eq, h.ring.tail_eq⟩
  ordered := by
    have hlt := h.ring.length_lt
    have htail := h.ring.tail_le
    have hcurr := h.ring.curr_le
    exact ⟨htail, hcurr, by omega⟩
  slots := h.ring.slots_eq
  modes := by
    intro item
    have hlt := h.ring.length_lt
    have htail := h.ring.tail_le
    have hcurr := h.ring.curr_le
    have hfull : pdpProcqueueFull k s.q = true ↔ s.queued.length - s.tail = 2 ^ k - 1 := by
      rw [h.ring.full_iff hk hk']
      omega
    rw [pdpProcqueueAdd_mode]
    unfold addMode
    simp only [hfull]
  ids := h.log.ids_eq
  queued := h.log.queued_eq
  history := h.log.history_eq
  immediate := h.log.immediate
  order := h.log.order_eq
  waiting := fun hshared => (h.cells hshared).slot
  notWaiting := fun hshared => (h.cells hshared).rest

/-- When the ring is empty, all has happened to every task. -/
theorem Valid.history_full (h : Valid k s) (hcurr : s.curr = s.queued.length)
    (htail : s.tail = s.queued.length) {a : QueueItem × Mode} (ha : a ∈ s.added) :
    s.history a.1.id = fullHistory a.1 a.2 := by
  have hfirst : ∀ n, s.queued.length ≤ n →
      (a.1.id ∈ s.firstIds n ↔ a.2 = .queued) := by
    intro n hn
    unfold firstIds
    rw [List.take_of_length_le hn, List.mem_map]
    constructor
    · rintro ⟨item, hitem, hid⟩
      have hmem := h.log.mem_added hitem
      have hnodup : (s.added.map fun a => a.1.id).Nodup := by
        rw [h.log.ids_eq]
        exact List.nodup_range
      have heq := List.inj_on_of_nodup_map hnodup ha hmem hid.symm
      rw [heq]
    · intro hmode
      refine ⟨a.1, ?_, rfl⟩
      rw [h.log.queued_eq]
      exact List.mem_map.mpr ⟨a, List.mem_filter.mpr ⟨ha, decide_eq_true hmode⟩, rfl⟩
  have hran := curr_le_ran s
  have hbegun := tail_le_begun s
  rw [h.log.history_eq a ha]
  unfold expected fullHistory
  simp only [hfirst s.ran (by omega), hfirst s.begun (by omega)]
  by_cases hmode : a.2 = .queued <;> simp [hmode]

end Contract

/-- The contract of the process queue, for every size from 2 on: it holds in every state
of every interleaving, and from there all that was added is served. -/
theorem queue_serves (k : Nat) (hk : 1 ≤ k) (hk' : k ≤ 30) (s : QueueSystem)
    (hs : Reachable k s) :
    Served k s ∧ ∃ s', Serves k s s' ∧ s'.added = s.added ∧
      ∀ a ∈ s.added, s'.history a.1.id = fullHistory a.1 a.2 := by
  have hvalid := hs.valid hk (by omega)
  refine ⟨hvalid.served hk (by omega), ?_⟩
  obtain ⟨s', hserves, _, _, hcurr, htail⟩ := serves_all hk (by omega) hvalid
  have hvalid' := hserves.valid hk (by omega) hvalid
  refine ⟨s', hserves, hserves.added_eq, ?_⟩
  intro a ha
  exact hvalid'.history_full hcurr htail (by rw [hserves.added_eq]; exact ha)

/-- A task with both methods, whose queue id is stored at `0`. -/
def someTask (id : Nat) : QueueItem := ⟨id, true, true, some 0⟩

theorem queue_serves_one :
    Served 2 (init.afterAdd 2 (someTask 0)) ∧ ∃ s', Serves 2 (init.afterAdd 2 (someTask 0)) s' ∧
      s'.added = [(someTask 0, .queued)] ∧
      s'.history 0 = [.added .queued, .processed, .calledBack true] := by
  have hs : Reachable 2 (init.afterAdd 2 (someTask 0)) :=
    .step .init (.add (someTask 0) (Or.inr (Or.inl rfl)) rfl)
  obtain ⟨hserved, s', hserves, hadded, hhistory⟩ :=
    queue_serves 2 (by decide) (by decide) _ hs
  have hfirst : (init.afterAdd 2 (someTask 0)).added = [(someTask 0, .queued)] := by decide
  refine ⟨hserved, s', hserves, hadded.trans hfirst, ?_⟩
  exact hhistory (someTask 0, .queued) (by rw [hfirst]; exact List.mem_singleton_self _)

/-! ## Outside of the contract -/

/-- A ring of one slot takes a task and has no room for it. -/
theorem single_slot_overflows :
    ∃ s, Reachable 0 s ∧ ¬ s.q.head - s.q.tail ≤ 2 ^ 0 - 1 := by
  refine ⟨init.afterAdd 0 (someTask 0), .step .init (.add _ (Or.inr (Or.inl rfl)) rfl), ?_⟩
  decide

/-- Two tasks with one place for their queue ids: the callback of the first clears it. -/
theorem shared_place_cleared :
    ∃ s, Reachable 2 s ∧ ∃ item ∈ s.pending, ∃ c, item.queueId = some c ∧ s.cells c = -1 := by
  have h₁ : Reachable 2 (init.afterAdd 2 (someTask 0)) :=
    .step .init (.add _ (Or.inr (Or.inl rfl)) rfl)
  have h₂ := Reachable.step h₁ (.add (someTask 1) (Or.inr (Or.inl rfl)) rfl)
  have h₃ := Reachable.step h₂ (.start rfl (by decide))
  have h₄ := Reachable.step h₃ (.finish rfl)
  have h₅ := Reachable.step h₄ (.tick rfl rfl rfl)
  have h₆ := Reachable.step h₅ (.loopCall rfl rfl (by decide) (by decide))
  exact ⟨_, h₆, someTask 1, by decide, 0, rfl, by decide⟩

/-- As many tasks as one likes can be served, one after the other. -/
theorem serves_many (n : Nat) : ∃ s, Reachable 2 s ∧ s.base = .idle ∧ s.depth = 0 ∧
    s.q.useThread = true ∧ s.tail = n ∧ s.queued.length = n := by
  induction n with
  | zero => exact ⟨init, .init, rfl, rfl, rfl, rfl, rfl⟩
  | succ n ih =>
      obtain ⟨s, hs, hidle, hdepth, hthread, htail, hlength⟩ := ih
      have hvalid := hs.valid (by decide) (by decide)
      have hmode : (pdpProcqueueAdd 2 s.q s.cells (someTask s.added.length)).1 = .queued := by
        rw [(hvalid.served (by decide) (by decide)).modes, hthread, htail, hlength, Nat.sub_self]
        rfl
      have hadd := Reachable.step hs (.add (someTask s.added.length) (Or.inr (Or.inl hidle)) rfl)
      have hqueued : (s.afterAdd 2 (someTask s.added.length)).queued.length = n + 1 := by
        show (if _ = Mode.queued then _ else _ : List QueueItem).length = n + 1
        rw [if_pos hmode, List.length_append, hlength, List.length_singleton]
      have hvalid₁ := hadd.valid (by decide) (by decide)
      obtain ⟨s', hserves, hidle', hdepth', _, htail'⟩ :=
        serves_all (by decide) (by decide) hvalid₁
      have hs' := hserves.reachable hadd
      have hvalid' := hs'.valid (by decide) (by decide)
      have hlength' : s'.queued.length = n + 1 := by
        rw [hvalid'.log.queued_eq, hserves.added_eq, ← hvalid₁.log.queued_eq, hqueued]
      exact ⟨_, .step hs' (.useThreadOn hdepth' hidle'), hidle', hdepth', rfl,
        htail'.trans hlength', hlength'⟩

/-- The counters go around: `head` is below `curr`. -/
theorem counters_go_around : ∃ s, Reachable 2 s ∧ s.q.head < s.q.curr := by
  obtain ⟨s, hs, hidle, hdepth, hthread, htail, hlength⟩ := serves_many (2 ^ 31 - 1)
  have hvalid := hs.valid (by decide) (by decide)
  have hmode : addMode 2 s = .queued := by
    rw [← pdpProcqueueAdd_mode s (someTask s.added.length),
      (hvalid.served (by decide) (by decide)).modes, hthread, htail, hlength, Nat.sub_self]
    rfl
  have hadd := Reachable.step hs (.add (someTask s.added.length) (Or.inr (Or.inl hidle)) rfl)
  refine ⟨_, hadd, ?_⟩
  have hcurr : s.curr = 2 ^ 31 - 1 := by
    have := hvalid.ring.tail_le
    have := hvalid.ring.curr_le
    omega
  rw [afterAdd_queued s _ hmode]
  show toInt32 (s.q.head + 1) < s.q.curr
  rw [hvalid.ring.head_eq, hvalid.ring.curr_eq, hlength, hcurr]
  decide

/-- One slot, a place that two tasks share, and counters that go around. -/
theorem queue_limits :
    (∃ s, Reachable 0 s ∧ ¬ s.q.head - s.q.tail ≤ 2 ^ 0 - 1) ∧
      (∃ s, Reachable 2 s ∧ ∃ item ∈ s.pending, ∃ c, item.queueId = some c ∧ s.cells c = -1) ∧
      ∃ s, Reachable 2 s ∧ s.q.head < s.q.curr :=
  ⟨single_slot_overflows, shared_place_cleared, counters_go_around⟩

end QueueSystem

end PureDataPacket
