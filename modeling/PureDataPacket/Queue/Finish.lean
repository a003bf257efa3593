/-
# `PureDataPacket.Queue.Finish` — a task is struck out

`pdp_procqueue_finish` waits for the worker and then edits the slot of a queue id.
In every state of the ring this is the slot of the task that the id was given to:
its callback is not called any more, its place for the queue id is forgotten, and
the other tasks are left as they are.  The place itself is only a place: another
task may have been given the same one.

| | |
| :-- | :-- |
| `Finishes` | `pdp_procqueue_finish`, from its call to its return |
| `StruckOut` | what should have been done to a task when `pdp_procqueue_finish` returns |
| `Step.entry` | what is in the ring was there before, or has been struck out or added |
| `Struck` | what holds of a task from the moment on that it is struck out |
| `Finishes.spec` | what `pdp_procqueue_finish` has done when it returns |
| `Forgotten` | what holds of a place for a queue id that no task has |
-/
import PureDataPacket.Queue.Reentry

namespace PureDataPacket

namespace NestedQueue

/-- The worker goes on while the Pd thread waits. -/
inductive Works (k : Nat) (s : NestedQueue) : NestedQueue → Prop
  | refl : Works k s s
  | step {s₁ s₂ : NestedQueue} {a : Act} (hs : Works k s s₁)
      (ha : a = .process ∨ a = .processReturn) (h : Step k s₁ a s₂) : Works k s s₂

/-- `pdp_procqueue_finish`, from its call to its return. -/
def Finishes (k : Nat) (s : NestedQueue) (indx : Int) (s' : NestedQueue) : Prop :=
  ∃ s₁ s₂ s₃ s₄, Step k s (.finish indx) s₁ ∧ Works k s₁ s₂ ∧ Step k s₂ .goOn s₃ ∧
    Works k s₃ s₄ ∧ Step k s₄ .goOn s'

/-- A run goes on with steps that meet a condition. -/
inductive Follows (k : Nat) (ok : NestedQueue → Act → Prop) (s : NestedQueue) : NestedQueue → Prop
  | refl : Follows k ok s s
  | step {s₁ s₂ : NestedQueue} {a : Act} (hs : Follows k ok s s₁) (ha : ok s₁ a)
      (h : Step k s₁ a s₂) : Follows k ok s s₂

/-- No task of the ring whose callback is to come has this place for its queue id. -/
def Unnamed (s : NestedQueue) (c : Nat) : Prop :=
  ∀ i item, s.begun ≤ i → s.entry i = some item → item.queueId ≠ some c

/-- No loop is entered twice, and no task is added with this place for its queue id. -/
def LeavesCell (c : Nat) (s : NestedQueue) (a : Act) : Prop :=
  NoReentry s a ∧ ∀ item, a = .add item → item.queueId ≠ some c

/-- What it means for the task in place `j` of the ring that `pdp_procqueue_finish` is
called in `s` and returns in `s'`. -/
structure StruckOut (k : Nat) (s s' : NestedQueue) (j : Nat) (item : QueueItem) : Prop where
  /-- the worker is done with it -/
  processed : j < s'.curr
  processedOnce : ∀ s₂, Follows k NoReentry s' s₂ →
    s₂.processed.count j = if item.process = true then 1 else 0
  notCalled : ∀ s₂, Follows k NoReentry s' s₂ → j ∉ s₂.called
  /-- the place of its queue id is not written, unless it is that of another task -/
  cell : ∀ c, item.queueId = some c →
    (∀ i other, i ≠ j → s.begun ≤ i → s.entry i = some other → other.queueId ≠ some c) →
    ∀ s₂, Follows k (LeavesCell c) s' s₂ → s₂.cells c = s'.cells c
  /-- no other task is struck out -/
  others : ∀ i, i ≠ j → s.begun ≤ i → (i ∈ s'.struck ↔ i ∈ s.struck)
  once : ∀ s₂, Follows k NoReentry s' s₂ → CalledOnce s₂

section Finish

variable {k : Nat} {s s' s₂ : NestedQueue} {j : Nat} {item : QueueItem}

/-! ## What only grows -/

theorem begun_mono (htail : s.tail ≤ s'.tail) (h : .advance ∈ s.stack → .advance ∈ s'.stack) :
    s.begun ≤ s'.begun := by
  unfold begun
  split
  · next hmem =>
      rw [if_pos (h hmem)]
      omega
  · split <;> omega

theorem begun_mono_of_leave {f : Frame} (hstack : s.stack = f :: s'.stack) (hf : f ≠ .advance)
    (htail : s.tail ≤ s'.tail) : s.begun ≤ s'.begun := by
  refine begun_mono htail fun hmem => ?_
  rw [hstack] at hmem
  exact (List.mem_cons.mp hmem).resolve_left hf.symm

/-- Only *add* and *finish* change what is in the ring. -/
structure Grows (s s' : NestedQueue) : Prop where
  tasks : s.tasks <+: s'.tasks
  struck : s.struck ⊆ s'.struck
  begun : s.begun ≤ s'.begun
  curr : s.curr ≤ s'.curr

theorem Step.grows {a : Act} (h : Step k s a s') : Grows s s' := by
  cases h with
  | add item hcall =>
      refine ⟨?_, fun _ h => h, begun_mono le_rfl fun hmem => ?_, le_rfl⟩
      · show s.tasks <+: if _ then s.tasks ++ [_] else s.tasks
        split
        · exact List.prefix_append ..
        · exact List.prefix_rfl
      · exact List.mem_append_right _ hmem
  | wait hcall =>
      exact ⟨List.prefix_rfl, fun _ h => h, begun_mono le_rfl (List.mem_cons_of_mem _), le_rfl⟩
  | finishNone hcall => exact ⟨List.prefix_rfl, fun _ h => h, le_rfl, le_rfl⟩
  | finish indx hcall hindx =>
      exact ⟨List.prefix_rfl, fun _ h => h, begun_mono le_rfl fun hmem =>
        List.mem_cons_of_mem _ (List.mem_cons_of_mem _ hmem), le_rfl⟩
  | flush hcall =>
      exact ⟨List.prefix_rfl, fun _ h => h, begun_mono le_rfl (List.mem_append_right _), le_rfl⟩
  | useThreadOn hcall => exact ⟨List.prefix_rfl, fun _ h => h, le_rfl, le_rfl⟩
  | useThreadOff hcall =>
      exact ⟨List.prefix_rfl, fun _ h => h, begun_mono le_rfl (List.mem_append_right _), le_rfl⟩
  | tick hstack hthread =>
      refine ⟨List.prefix_rfl, fun _ h => h, begun_mono le_rfl fun hmem => ?_, le_rfl⟩
      rw [hstack] at hmem
      cases hmem
  | methodReturn hstack =>
      exact ⟨List.prefix_rfl, fun _ h => h, begun_mono_of_leave hstack (by decide) le_rfl, le_rfl⟩
  | advance hstack =>
      refine ⟨List.prefix_rfl, fun _ h => h, ?_, le_rfl⟩
      rw [begun_of_mem (by rw [hstack]; exact List.mem_cons_self)]
      unfold begun
      dsimp only
      split <;> omega
  | loopCall hstack hdata =>
      refine ⟨List.prefix_rfl, fun _ h => h, begun_mono le_rfl fun hmem => ?_, le_rfl⟩
      unfold callNext
      dsimp only
      split <;> simp
  | loopEnd hstack hdata =>
      exact ⟨List.prefix_rfl, fun _ h => h, begun_mono_of_leave hstack (by decide) le_rfl, le_rfl⟩
  | waited hstack hdata =>
      exact ⟨List.prefix_rfl, fun _ h => h, begun_mono_of_leave hstack (by decide) le_rfl, le_rfl⟩
  | flushAgain hstack hdata =>
      refine ⟨List.prefix_rfl, fun _ h => h, begun_mono le_rfl fun hmem => ?_, le_rfl⟩
      rw [hstack] at hmem
      exact List.mem_cons_of_mem _ (List.mem_cons_of_mem _ hmem)
  | flushReturn hstack hdata =>
      exact ⟨List.prefix_rfl, fun _ h => h, begun_mono_of_leave hstack (by decide) le_rfl, le_rfl⟩
  | strike hstack =>
      exact ⟨List.prefix_rfl, List.subset_append_left .., begun_mono_of_leave hstack
        (fun he => by cases he) le_rfl, le_rfl⟩
  | disable hstack =>
      exact ⟨List.prefix_rfl, fun _ h => h, begun_mono_of_leave hstack (by decide) le_rfl, le_rfl⟩
  | process hidle hdata => exact ⟨List.prefix_rfl, fun _ h => h, le_rfl, le_rfl⟩
  | processReturn hrunning =>
      exact ⟨List.prefix_rfl, fun _ h => h, le_rfl, Nat.le_succ _⟩

theorem Step.entry (hs : Valid k s) {a : Act} (h : Step k s a s') {i : Nat}
    (hitem : s'.entry i = some item) :
    s.entry i = some item ∨ item.queueId = none ∨
      ∃ new, a = .add new ∧ item.queueId = new.queueId := by
  cases h with
  | add new hcall =>
      rcases queued_or_skipped k s.q with ⟨hthread, hfull⟩ | hskip
      · rw [add_queued s new hthread hfull] at hitem
        rcases entry_append_cases hs.struck_lt _ _ hitem with ⟨_, hold⟩ | ⟨_, heq⟩
        · exact .inl hold
        · exact .inr (.inr ⟨new, rfl, by rw [heq]⟩)
      · obtain ⟨mode, hadd⟩ := add_skipped s new hskip
        rw [hadd] at hitem
        exact .inl hitem
  | @strike indx rest hstack =>
      change (s.strikeOut k indx).entry i = some item at hitem
      rw [entry_strikeOut] at hitem
      obtain ⟨old, hold, hitem⟩ := Option.map_eq_some_iff.mp hitem
      split at hitem
      · exact .inr (.inl (by rw [← hitem]; rfl))
      · exact .inl (hold.trans (congrArg some hitem))
  | wait hcall => exact .inl hitem
  | finishNone hcall => exact .inl hitem
  | finish indx hcall hindx => exact .inl hitem
  | flush hcall => exact .inl hitem
  | useThreadOn hcall => exact .inl hitem
  | useThreadOff hcall => exact .inl hitem
  | tick hstack hthread => exact .inl hitem
  | methodReturn hstack => exact .inl hitem
  | advance hstack => exact .inl hitem
  | loopCall hstack hdata => exact .inl hitem
  | loopEnd hstack hdata => exact .inl hitem
  | waited hstack hdata => exact .inl hitem
  | flushAgain hstack hdata => exact .inl hitem
  | flushReturn hstack hdata => exact .inl hitem
  | disable hstack => exact .inl hitem
  | process hidle hdata => exact .inl hitem
  | processReturn hrunning => exact .inl hitem

/-! ## While the Pd thread waits -/

/-- The worker does not touch what the Pd thread has. -/
structure SameThread (s s' : NestedQueue) : Prop where
  stack : s'.stack = s.stack
  tasks : s'.tasks = s.tasks
  struck : s'.struck = s.struck
  tail : s'.tail = s.tail
  cells : s'.cells = s.cells

theorem Works.sameThread (h : Works k s s') : SameThread s s' := by
  induction h with
  | refl => exact ⟨rfl, rfl, rfl, rfl, rfl⟩
  | step _ ha hstep ih =>
      rcases ha with rfl | rfl
      · cases hstep
        exact ⟨ih.stack, ih.tasks, ih.struck, ih.tail, ih.cells⟩
      · cases hstep
        exact ⟨ih.stack, ih.tasks, ih.struck, ih.tail, ih.cells⟩

theorem Works.curr_le (h : Works k s s') : s.curr ≤ s'.curr := by
  induction h with
  | refl => exact le_rfl
  | step _ _ hstep ih => exact ih.trans hstep.grows.curr

theorem Works.run {ok : NestedQueue → Act → Prop} (hs : Run k ok s)
    (hok : ∀ s a, a = .process ∨ a = .processReturn → ok s a) (h : Works k s s') : Run k ok s' := by
  induction h with
  | refl => exact hs
  | step _ ha hstep ih => exact ih.step (hok _ _ ha) hstep

theorem Step.of_wait {rest : List Frame} (hstack : s.stack = .wait :: rest)
    (h : Step k s .goOn s') : hasData k s.q = false ∧ s' = { s with stack := rest } := by
  cases h with
  | waited hs hdata =>
      rw [hstack] at hs
      injection hs with _ hrest
      exact ⟨hdata, by rw [hrest]⟩
  | advance hs => rw [hstack] at hs; cases hs
  | loopCall hs => rw [hstack] at hs; cases hs
  | loopEnd hs => rw [hstack] at hs; cases hs
  | flushAgain hs => rw [hstack] at hs; cases hs
  | flushReturn hs => rw [hstack] at hs; cases hs
  | strike hs => rw [hstack] at hs; cases hs
  | disable hs => rw [hstack] at hs; cases hs

theorem Step.of_strike {indx : Int} {rest : List Frame} (hstack : s.stack = .strike indx :: rest)
    (h : Step k s .goOn s') : s' = { s.strikeOut k indx with stack := rest } := by
  cases h with
  | strike hs =>
      rw [hstack] at hs
      injection hs with hindx hrest
      injection hindx with hindx
      rw [hrest, hindx]
  | advance hs => rw [hstack] at hs; cases hs
  | loopCall hs => rw [hstack] at hs; cases hs
  | loopEnd hs => rw [hstack] at hs; cases hs
  | waited hs => rw [hstack] at hs; cases hs
  | flushAgain hs => rw [hstack] at hs; cases hs
  | flushReturn hs => rw [hstack] at hs; cases hs
  | disable hs => rw [hstack] at hs; cases hs

theorem Finishes.spec (hk : 1 ≤ k) (hk' : k ≤ 32) (hs : Run k NoReentry s) {i : Nat}
    (h : Finishes k s (i : Int) s') :
    Run k NoReentry s' ∧ s'.tasks = s.tasks ∧ s'.struck = s.struck ++ s.waitingAt k i ∧
      s'.begun = s.begun ∧ s'.curr = s.tasks.length ∧ s'.cells = s.cells := by
  obtain ⟨s₁, s₂, s₃, s₄, hcall, hwait, hwaited, hwait', hstrike⟩ := h
  have hplain : ∀ s a, a = Act.process ∨ a = .processReturn ∨ a = .goOn ∨ a = .finish i →
      NoReentry s a := by
    rintro s a (rfl | rfl | rfl | rfl) <;> rintro (he | he) <;> cases he
  have hs₁ := hs.step (hplain _ _ (.inr (.inr (.inr rfl)))) hcall
  have hs₂ := hwait.run hs₁ fun _ _ ha => hplain _ _ (ha.imp_right .inl)
  have hs₃ := hs₂.step (hplain _ _ (.inr (.inr (.inl rfl)))) hwaited
  have hs₄ := hwait'.run hs₃ fun _ _ ha => hplain _ _ (ha.imp_right .inl)
  have hs' := hs₄.step (hplain _ _ (.inr (.inr (.inl rfl)))) hstrike
  have h₂ := hwait.sameThread
  have h₄ := hwait'.sameThread
  have hstack₁ : s₁ = { s with stack := .wait :: .strike i :: s.stack } := by
    generalize hindx : (i : Int) = indx at hcall
    cases hcall with
    | finishNone _ => exact absurd hindx (by omega)
    | finish _ _ _ => rfl
  subst hstack₁
  obtain ⟨hdata, hs₃_eq⟩ := hwaited.of_wait h₂.stack
  subst hs₃_eq
  have hs'_eq := hstrike.of_strike h₄.stack
  subst hs'_eq
  -- the worker has nothing to do, and so does nothing
  have hcurr : s₂.curr = s₂.tasks.length := by
    have hle := (hs₂.valid hk hk').curr_le
    rw [← Bool.not_eq_true, (hs₂.valid hk hk').hasData_iff hk'] at hdata
    omega
  have hcurr₄ : s₄.curr = s₄.tasks.length := by
    have hle := (hs₄.valid hk hk').curr_le
    have hmono := hwait'.curr_le
    change s₂.curr ≤ s₄.curr at hmono
    rw [h₄.tasks] at hle ⊢
    change s₄.curr ≤ s₂.tasks.length at hle
    show s₄.curr = s₂.tasks.length
    omega
  have htasks : s₄.tasks = s.tasks := h₄.tasks.trans h₂.tasks
  have hstruck : s₄.struck = s.struck := h₄.struck.trans h₂.struck
  have htail : s₄.tail = s.tail := h₄.tail.trans h₂.tail
  have hadvance : .advance ∈ s₄.stack ↔ .advance ∈ s.stack := by
    rw [h₄.stack]
    show Frame.advance ∈ Frame.strike i :: s.stack ↔ _
    rw [List.mem_cons]
    exact or_iff_right fun he => by cases he
  have hbegun : s₄.begun = s.begun := by
    unfold begun
    rw [htail]
    exact if_congr hadvance rfl rfl
  have hbegun' : (if Frame.advance ∈ s.stack then s₄.tail + 1 else s₄.tail) = s.begun := by
    rw [htail]
    rfl
  refine ⟨hs', htasks, ?_, hbegun', ?_, h₄.cells.trans h₂.cells⟩
  · show s₄.struck ++ s₄.waitingAt k i = _
    unfold waitingAt
    rw [hstruck, htasks, hbegun]
  · show s₄.curr = s.tasks.length
    rw [hcurr₄, htasks]

/-! ## What follows -/

/-- What holds of a task from the moment on that it is struck out. -/
structure Struck (k j : Nat) (item : QueueItem) (s : NestedQueue) : Prop where
  run : Run k NoReentry s
  task : s.tasks[j]? = some item
  struck : j ∈ s.struck
  curr : j < s.curr

/-- What holds of a place for a queue id that no task has. -/
structure Forgotten (k c : Nat) (n : Int) (s : NestedQueue) : Prop where
  run : Run k NoReentry s
  unnamed : s.Unnamed c
  cell : s.cells c = n

theorem setQueueId_of_ne {cells : Nat → Int} {queueId : Option Nat} {c : Nat} {n : Int}
    (h : queueId ≠ some c) : setQueueId cells queueId n c = cells c := by
  cases queueId with
  | none => rfl
  | some c' => exact Function.update_of_ne (fun he => h (by rw [he])) ..

/-- The callback loop comes to a task and writes the place of its queue id, or no place is
written but that of a task that is added. -/
theorem Step.passes (hk' : k ≤ 32) (hs : Valid k s) {a : Act} (h : Step k s a s') :
    (s'.begun ≤ s.begun ∧ ∀ c, (∀ item, a = .add item → item.queueId ≠ some c) →
      s'.cells c = s.cells c) ∨
    (s'.begun = s.begun + 1 ∧ ∃ item, s.entry s.begun = some item ∧
      s'.cells = setQueueId s.cells item.queueId (-1)) := by
  cases h with
  | add item hcall =>
      rcases queued_or_skipped k s.q with ⟨hthread, hfull⟩ | hskip
      · rw [add_queued s item hthread hfull]
        exact .inl ⟨le_rfl, fun c hadd => setQueueId_of_ne (hadd item rfl)⟩
      · obtain ⟨mode, hskipped⟩ := add_skipped s item hskip
        rw [hskipped]
        refine .inl ⟨begun_mono le_rfl fun hmem => ?_,
          fun c hadd => setQueueId_of_ne (hadd item rfl)⟩
        refine (List.mem_append.mp hmem).resolve_left fun hmethod => ?_
        cases inLoop_methods mode _ _ hmethod
  | loopCall hstack hdata =>
      have hnone := hs.not_mem_of_top hstack rfl (by decide)
      have hitem := hs.tailItem_eq hk' hnone ((hs.hasFinished_iff hk').mp hdata)
      have hbegun := begun_of_not_mem hnone
      refine .inr ⟨?_, _, by rw [hbegun]; exact hitem, rfl⟩
      rw [hbegun]
      refine begun_of_mem (s := s.callNext k) ?_
      unfold NestedQueue.callNext
      dsimp only
      split <;> simp
  | wait hcall =>
      refine .inl ⟨begun_mono le_rfl fun hmem => ?_, fun _ _ => rfl⟩
      exact (List.mem_cons.mp hmem).resolve_left fun he => by cases he
  | finishNone hcall => exact .inl ⟨le_rfl, fun _ _ => rfl⟩
  | finish indx hcall hindx =>
      refine .inl ⟨begun_mono le_rfl fun hmem => ?_, fun _ _ => rfl⟩
      simpa using hmem
  | flush hcall =>
      exact .inl ⟨begun_mono le_rfl fun hmem => (List.mem_append.mp hmem).resolve_left
        (by decide), fun _ _ => rfl⟩
  | useThreadOn hcall => exact .inl ⟨le_rfl, fun _ _ => rfl⟩
  | useThreadOff hcall =>
      exact .inl ⟨begun_mono le_rfl fun hmem => (List.mem_append.mp hmem).resolve_left
        (by decide), fun _ _ => rfl⟩
  | tick hstack hthread =>
      exact .inl ⟨begun_mono le_rfl fun hmem => absurd (List.mem_singleton.mp hmem) (by decide),
        fun _ _ => rfl⟩
  | methodReturn hstack =>
      exact .inl ⟨begun_mono le_rfl fun hmem => by rw [hstack]; exact List.mem_cons_of_mem _ hmem,
        fun _ _ => rfl⟩
  | advance hstack =>
      refine .inl ⟨?_, fun _ _ => rfl⟩
      rw [begun_of_mem (s := s) (by rw [hstack]; exact List.mem_cons_self)]
      exact (begun_of_not_mem (hs.not_mem_of_inLoop hstack rfl)).le
  | loopEnd hstack hdata =>
      exact .inl ⟨begun_mono le_rfl fun hmem => by rw [hstack]; exact List.mem_cons_of_mem _ hmem,
        fun _ _ => rfl⟩
  | waited hstack hdata =>
      exact .inl ⟨begun_mono le_rfl fun hmem => by rw [hstack]; exact List.mem_cons_of_mem _ hmem,
        fun _ _ => rfl⟩
  | flushAgain hstack hdata =>
      refine .inl ⟨begun_mono le_rfl fun hmem => ?_, fun _ _ => rfl⟩
      rw [hstack]
      refine List.mem_cons.mpr (.inr ?_)
      simpa using hmem
  | flushReturn hstack hdata =>
      exact .inl ⟨begun_mono le_rfl fun hmem => by rw [hstack]; exact List.mem_cons_of_mem _ hmem,
        fun _ _ => rfl⟩
  | strike hstack =>
      exact .inl ⟨begun_mono le_rfl fun hmem => by rw [hstack]; exact List.mem_cons_of_mem _ hmem,
        fun _ _ => rfl⟩
  | disable hstack =>
      exact .inl ⟨begun_mono le_rfl fun hmem => by rw [hstack]; exact List.mem_cons_of_mem _ hmem,
        fun _ _ => rfl⟩
  | process hidle hdata => exact .inl ⟨le_rfl, fun _ _ => rfl⟩
  | processReturn hrunning => exact .inl ⟨le_rfl, fun _ _ => rfl⟩

/-- A place for a queue id that no task has is not written. -/
theorem Step.cells_eq (hk' : k ≤ 32) (hs : Valid k s) {a : Act} (h : Step k s a s') {c : Nat}
    (hunnamed : s.Unnamed c) (hadd : ∀ item, a = .add item → item.queueId ≠ some c) :
    s'.cells c = s.cells c := by
  rcases h.passes hk' hs with ⟨_, hcells⟩ | ⟨_, item, hitem, hcells⟩
  · exact hcells c hadd
  · rw [hcells]
    exact setQueueId_of_ne (hunnamed _ _ le_rfl hitem)

theorem Struck.step (h : Struck k j item s) {a : Act} (ha : NoReentry s a)
    (hstep : Step k s a s') : Struck k j item s' := by
  have hgrows := hstep.grows
  refine ⟨h.run.step ha hstep, ?_, hgrows.struck h.struck, h.curr.trans_le hgrows.curr⟩
  obtain ⟨more, hmore⟩ := hgrows.tasks
  rw [← hmore, List.getElem?_append_left (List.getElem?_eq_some_iff.mp h.task).1]
  exact h.task

theorem Forgotten.step (hk : 1 ≤ k) (hk' : k ≤ 32) {c : Nat} {n : Int} (h : Forgotten k c n s)
    {a : Act} (ha : LeavesCell c s a) (hstep : Step k s a s') : Forgotten k c n s' := by
  have hs := h.run.valid hk hk'
  refine ⟨h.run.step ha.1 hstep, fun i other hi hother => ?_, ?_⟩
  · rcases hstep.entry hs hother with hold | hnone | ⟨new, he, hnew⟩
    · exact h.unnamed i other (hstep.grows.begun.trans hi) hold
    · rw [hnone]
      exact (Option.some_ne_none c).symm
    · rw [hnew]
      exact ha.2 new he
  · rw [hstep.cells_eq hk' hs h.unnamed ha.2]
    exact h.cell

theorem Struck.follows (h : Struck k j item s) (hfollows : Follows k NoReentry s s') :
    Struck k j item s' := by
  induction hfollows with
  | refl => exact h
  | step _ ha hstep ih => exact ih.step ha hstep

theorem Forgotten.follows (hk : 1 ≤ k) (hk' : k ≤ 32) {c : Nat} {n : Int} (h : Forgotten k c n s)
    (hfollows : Follows k (LeavesCell c) s s') : Forgotten k c n s' := by
  induction hfollows with
  | refl => exact h
  | step _ ha hstep ih => exact ih.step hk hk' ha hstep

/-- `pdp_procqueue_finish` with the queue id of a task whose callback is to come strikes out
this task and no other. -/
theorem finish_struckOut (hk : 1 ≤ k) (hk' : k ≤ 32) (hs : Run k NoReentry s)
    (hj : s.begun ≤ j) (hitem : s.tasks[j]? = some item)
    (hfinish : Finishes k s ((j % 2 ^ k : Nat) : Int) s') : StruckOut k s s' j item := by
  obtain ⟨hs', htasks, hstruck, hbegun, hcurr, hcells⟩ := hfinish.spec hk hk' hs
  have hvalid := hs.valid hk hk'
  have hlength := (List.getElem?_eq_some_iff.mp hitem).1
  have hslot : slotOf k ((j % 2 ^ k : Nat) : Int) = j % 2 ^ k := by
    unfold slotOf masked
    exact_mod_cast Nat.mod_mod j (2 ^ k)
  -- the slot is that of this task, and of no other
  have hwaiting : ∀ i, i ∈ s.waitingAt k ((j % 2 ^ k : Nat) : Int) ↔ i = j := by
    intro i
    rw [mem_waitingAt, hslot]
    have htail := tail_le_begun s
    have hlt := hvalid.length_lt
    constructor
    · rintro ⟨hi, hi', heq⟩
      exact slot_inj (htail.trans hi') (by omega) (htail.trans hj) (by omega) heq
    · rintro rfl
      exact ⟨hlength, hj, rfl⟩
  have hstruckOut : Struck k j item s' := by
    refine ⟨hs', by rw [htasks]; exact hitem, ?_, by rw [hcurr]; exact hlength⟩
    rw [hstruck]
    exact List.mem_append_right _ ((hwaiting j).mpr rfl)
  have honce : ∀ s₂, Struck k j item s₂ → CalledOnce s₂ := fun s₂ h₂ =>
    (h₂.run.valid hk hk').calledOnce
  refine ⟨hstruckOut.curr, fun s₂ h₂ => ?_, fun s₂ h₂ hmem => ?_, fun c hc halone s₂ h₂ => ?_,
    fun i hi hi' => ?_, fun s₂ h₂ => honce s₂ (hstruckOut.follows h₂)⟩
  · have hend := hstruckOut.follows h₂
    rw [(honce s₂ hend).processedOnce j item hend.task]
    exact if_congr (and_iff_right (hend.curr.trans_le (curr_le_ran s₂))) rfl rfl
  · have hend := hstruckOut.follows h₂
    have hcount := (honce s₂ hend).once j item hend.task
    rw [if_neg fun h => h.2.2 hend.struck] at hcount
    exact List.count_eq_zero.mp hcount hmem
  · refine (Forgotten.follows hk hk' ⟨hs', fun i other hi hother => ?_, rfl⟩ h₂).cell
    rw [hbegun] at hi
    unfold entry at hother
    rw [htasks, hstruck] at hother
    obtain ⟨task, htask, hother⟩ := Option.map_eq_some_iff.mp hother
    by_cases hmem : i ∈ s.struck ++ s.waitingAt k ((j % 2 ^ k : Nat) : Int)
    · rw [if_pos hmem] at hother
      rw [← hother]
      exact (Option.some_ne_none c).symm
    · rw [if_neg hmem] at hother
      have hne : i ≠ j := fun he =>
        hmem (List.mem_append_right _ ((hwaiting i).mpr he))
      refine halone i other hne hi ?_
      unfold entry
      rw [htask, Option.map_some, if_neg fun h => hmem (List.mem_append_left _ h), hother]
  · rw [hstruck, List.mem_append, hwaiting]
    exact or_iff_left hi

/-- A task with a place for its queue id. -/
def placedTask : QueueItem := ⟨0, true, true, some 0⟩

/-- A call of `pdp_procqueue_finish` while the worker has nothing to do. -/
theorem Run.finishes {k : Nat} {ok : NestedQueue → Act → Prop} {s : NestedQueue} (_ : Run k ok s)
    (hcall : s.MayCall) (hdata : hasData k s.q = false) (i : Nat) :
    Finishes k s i { NestedQueue.strikeOut k { s with stack := .strike i :: s.stack } i with
      stack := s.stack } :=
  ⟨_, _, _, _, .finish _ hcall (by omega), .refl, .waited rfl hdata, .refl, .strike rfl⟩

/-- The task is queued and processed, and then struck out. -/
theorem run_finish : ∃ s s', Run 10 NoReentry s ∧ s.begun ≤ 0 ∧ s.tasks[0]? = some placedTask ∧
    Finishes 10 s ((0 % 2 ^ 10 : Nat) : Int) s' ∧ s'.cells 0 = 0 ∧ s'.stack = [] ∧
    (s'.add 10 placedTask).cells 0 = 1 := by
  have hs₁ := (Run.init (k := 10)).quiet (.add placedTask fun f hf => by cases hf)
    (fun he => by cases he) fun he => by cases he
  have hs₂ := hs₁.quiet (.process rfl rfl) (fun he => by cases he) fun he => by cases he
  have hs₃ := hs₂.quiet (.processReturn rfl) (fun he => by cases he) fun he => by cases he
  have hfinish := hs₃.finishes (fun f hf => by cases hf) rfl (0 % 2 ^ 10)
  exact ⟨_, _, hs₃, le_rfl, rfl, hfinish, rfl, rfl, rfl⟩

theorem finish_struckOut_run : ∃ s s', Run 10 NoReentry s ∧ StruckOut 10 s s' 0 placedTask := by
  obtain ⟨s, s', hs, hbegun, htask, hfinish, _⟩ := run_finish
  exact ⟨s, s', hs, finish_struckOut (by decide) (by decide) hs hbegun htask hfinish⟩

theorem Finishes.follows {k : Nat} {s s' : NestedQueue} {indx : Int} (_ : Finishes k s indx s')
    (ok : NestedQueue → Act → Prop) : Follows k ok s' s' :=
  .refl

/-- Two tasks are queued and processed, and the first one is struck out; then the callback of
the second one flushes the queue. -/
theorem run_finish_flush : ∃ s s' s₂, Run 10 NoReentry s ∧ s.begun ≤ 0 ∧
    s.tasks[0]? = some placedTask ∧ Finishes 10 s ((0 % 2 ^ 10 : Nat) : Int) s' ∧
    Follows 10 (fun _ _ => True) s' s₂ ∧ s₂.called = [1, 1] := by
  have hs₁ := (Run.init (k := 10)).quiet (.add placedTask fun f hf => by cases hf)
    (fun he => by cases he) fun he => by cases he
  have hs₂ := hs₁.quiet (.add plainTask fun f hf => by cases hf) (fun he => by cases he)
    fun he => by cases he
  have hs₃ := hs₂.quiet (.process rfl rfl) (fun he => by cases he) fun he => by cases he
  have hs₄ := hs₃.quiet (.processReturn rfl) (fun he => by cases he) fun he => by cases he
  have hs₅ := hs₄.quiet (.process rfl rfl) (fun he => by cases he) fun he => by cases he
  have hs₆ := hs₅.quiet (.processReturn rfl) (fun he => by cases he) fun he => by cases he
  have hfinish := hs₆.finishes (fun f hf => by cases hf) rfl (0 % 2 ^ 10)
  have h₀ := hfinish.follows fun _ _ => True
  -- the first task is passed over
  have h₁ := h₀.step trivial (.tick rfl rfl)
  have h₂ := h₁.step trivial (.loopCall rfl rfl)
  have h₃ := h₂.step trivial (.advance rfl)
  have h₄ := h₃.step trivial (.loopCall rfl rfl)
  have h₅ := h₄.step trivial (.flush fun f hf => (Option.some.inj hf).symm)
  have h₆ := h₅.step trivial (.waited rfl rfl)
  have h₇ := h₆.step trivial (.loopCall rfl rfl)
  exact ⟨_, _, _, hs₆, le_rfl, rfl, hfinish, h₇, rfl⟩

/-- Another task is added with the same place for its queue id; and a callback that flushes
the queue is called again. -/
theorem finish_limits :
    (¬ ∀ s s' s₂ j item c, Run 10 NoReentry s → s.begun ≤ j → s.tasks[j]? = some item →
      item.queueId = some c → Finishes 10 s ((j % 2 ^ 10 : Nat) : Int) s' →
      Follows 10 NoReentry s' s₂ → s₂.cells c = s'.cells c) ∧
    ¬ ∀ s s' s₂ j item, Run 10 NoReentry s → s.begun ≤ j → s.tasks[j]? = some item →
      Finishes 10 s ((j % 2 ^ 10 : Nat) : Int) s' → Follows 10 (fun _ _ => True) s' s₂ →
      CalledOnce s₂ := by
  refine ⟨fun hall => ?_, fun hall => ?_⟩
  · obtain ⟨s, s', hs, hbegun, htask, hfinish, hcell, hstack, hadd⟩ := run_finish
    have hfollows : Follows 10 NoReentry s' (s'.add 10 placedTask) := by
      refine .step .refl (fun ha => by rcases ha with ha | ha <;> cases ha)
        (.add placedTask fun f hf => ?_)
      rw [hstack] at hf
      cases hf
    have heq := hall s s' _ 0 placedTask 0 hs hbegun htask rfl hfinish hfollows
    rw [hcell, hadd] at heq
    exact absurd heq (by decide)
  · obtain ⟨s, s', s₂, hs, hbegun, htask, hfinish, hfollows, hcalled⟩ := run_finish_flush
    have honce := (hall s s' s₂ 0 placedTask hs hbegun htask hfinish hfollows).order
    rw [hcalled] at honce
    exact absurd honce (by decide)

end Finish

end NestedQueue

end PureDataPacket
