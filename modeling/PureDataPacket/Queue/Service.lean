/-
# `PureDataPacket.Queue.Service` — every task is served

The invariants of the ring, the log, the queue ids and the thread mode, together
over every interleaving, and that what is in the ring is always served in the end:
from every state the two threads get, without another task, to one where the Pd
thread is idle and the ring is empty.

| | |
| :-- | :-- |
| `CellsValid` | where the tasks that wait find their queue ids, unless two of them share a place |
| `CellsValid.afterAdd` | the queue id of a task that is added is its slot, or -1 |
| `shares_eq_false` | a task that shares no place has a place of its own |
-/
import PureDataPacket.Queue.History

namespace PureDataPacket

namespace QueueSystem

/-! ## The log -/

section Served

variable {k : Nat} {s : QueueSystem}

theorem LogValid.step (hk' : k ≤ 32) {s' : QueueSystem} (h : LogValid s) (hring : RingValid k s)
    (hstep : Step k s s') : LogValid s' := by
  have hle := hring.tail_le
  have hle' := hring.curr_le
  cases hstep with
  | add item hpd hid => exact h.afterAdd hring item hid
  | addReturn hdepth => exact h.frame rfl rfl rfl rfl rfl
  | tick hdepth hidle hthread =>
      refine h.frame rfl rfl rfl rfl ?_
      simp [begun, hidle]
  | loopCall hdepth hloop hdata hcall =>
      have hlt := (hring.hasFinished_iff hk').mp hdata
      have htl : s.tail < s.queued.length := by omega
      rw [hring.tailItem_eq hk' htl] at hcall
      refine h.callBack htl (by simp [begun, hloop]) rfl rfl rfl rfl ?_
      show s.log ++ _ = s.log ++ _
      rw [hring.tailItem_eq hk' htl]
      unfold QueueItem.callsBack
      rw [if_pos hcall]
      rfl
  | loopSkip hdepth hloop hdata hcall =>
      have hlt := (hring.hasFinished_iff hk').mp hdata
      have htl : s.tail < s.queued.length := by omega
      rw [hring.tailItem_eq hk' htl] at hcall
      refine h.callBack htl (by simp [begun, hloop]) rfl rfl rfl (by simp [begun, hloop]) ?_
      unfold QueueItem.callsBack
      rw [hcall]
      exact (List.append_nil _).symm
  | loopReturn hdepth hcalled =>
      refine h.frame rfl rfl rfl rfl ?_
      simp [begun, hcalled]
  | loopEnd hdepth hloop hdata =>
      refine h.frame rfl rfl rfl rfl ?_
      simp [begun, hloop]
  | useThreadOn hdepth hidle => exact h.frame rfl rfl rfl rfl rfl
  | useThreadOff hdepth hidle =>
      refine h.frame rfl rfl rfl rfl ?_
      simp [begun, hidle]
  | waited hdepth hwait hdata =>
      refine h.frame rfl rfl rfl rfl ?_
      simp [begun, hwait]
  | start hidle hdata =>
      have hlt := (hring.hasData_iff hk').mp hdata
      refine h.start hring hlt hidle rfl rfl rfl rfl ?_
      rw [← hring.currItem_eq hk' hlt]
  | finish hrunning =>
      refine h.frame rfl rfl rfl ?_ rfl
      simp [ran, hrunning]

/-! ## The queue ids -/

/-- Where the tasks that wait find their queue ids, unless two of them share a place. -/
structure CellsValid (k : Nat) (s : QueueSystem) : Prop where
  slot : ∀ j (_ : s.begun ≤ j) (hj : j < s.queued.length) (c : Nat),
    s.queued[j].queueId = some c → s.cells c = j % 2 ^ k
  rest : ∀ c, (∀ item ∈ s.pending, item.queueId ≠ some c) → s.cells c = -1
  distinct : s.pending.Pairwise fun a b => ∀ c, a.queueId = some c → b.queueId ≠ some c

theorem setQueueId_of_ne {cells : Nat → Int} {queueId : Option Nat} {n : Int} {c : Nat}
    (h : queueId ≠ some c) : setQueueId cells queueId n c = cells c := by
  cases queueId with
  | none => rfl
  | some c' =>
      have hne : c ≠ c' := fun heq => h (by rw [heq])
      exact Function.update_of_ne hne n cells

theorem setQueueId_self {cells : Nat → Int} {queueId : Option Nat} {n : Int} {c : Nat}
    (h : queueId = some c) : setQueueId cells queueId n c = n := by
  subst h
  exact Function.update_self c n cells

theorem shares_eq_false {item : QueueItem} (h : s.shares item = false) {other : QueueItem}
    (ho : other ∈ s.pending) {c : Nat} (hc : item.queueId = some c) : other.queueId ≠ some c := by
  intro heq
  have hany := List.any_eq_false.mp h other ho
  rw [hc, heq] at hany
  simp at hany

theorem mem_pending {j : Nat} (hb : s.begun ≤ j) (hj : j < s.queued.length) :
    s.queued[j] ∈ s.pending := by
  unfold pending
  rw [List.mem_drop_iff_getElem]
  exact ⟨j - s.begun, by omega, by simp [Nat.add_sub_cancel' hb]⟩

theorem CellsValid.frame {s' : QueueSystem} (h : CellsValid k s) (hcells : s'.cells = s.cells)
    (hqueued : s'.queued = s.queued) (hbegun : s'.begun = s.begun) : CellsValid k s' where
  slot := by
    intro j hb hj c hc
    simp only [hqueued] at hj hc
    rw [hcells]
    exact h.slot j (by omega) hj c hc
  rest := by
    unfold pending
    rw [hcells, hqueued, hbegun]
    exact h.rest
  distinct := by
    unfold pending
    rw [hqueued, hbegun]
    exact h.distinct

theorem CellsValid.afterAdd (h : CellsValid k s) (hring : RingValid k s) (hk' : k ≤ 32)
    (item : QueueItem) (hshares : s.shares item = false) : CellsValid k (s.afterAdd k item) := by
  have hbegunle : s.begun ≤ s.queued.length := hring.begun_le.trans hring.curr_le
  by_cases hmode : addMode k s = .queued
  · have hslot : slotOf k s.q.head = s.queued.length % 2 ^ k := by
      rw [hring.head_eq, slotOf_toInt32 hk']
    have hpending : (s.afterAdd k item).pending = s.pending ++ [item] := by
      rw [afterAdd_queued s item hmode]
      exact List.drop_append_of_le_length hbegunle
    refine ⟨?_, ?_, ?_⟩
    · rw [afterAdd_queued s item hmode]
      intro j hb hj c hc
      have hb : s.begun ≤ j := hb
      have hj : j < (s.queued ++ [item]).length := hj
      have hc : (s.queued ++ [item])[j].queueId = some c := hc
      show setQueueId s.cells item.queueId (slotOf k s.q.head) c = j % 2 ^ k
      rw [List.length_append, List.length_singleton] at hj
      rcases Nat.lt_or_ge j s.queued.length with hold | hnew
      · rw [List.getElem_append_left hold] at hc
        have hne : item.queueId ≠ some c := fun heq =>
          shares_eq_false hshares (mem_pending hb hold) heq hc
        rw [setQueueId_of_ne hne]
        exact h.slot j hb hold c hc
      · have : j = s.queued.length := by omega
        subst this
        rw [List.getElem_append_right le_rfl] at hc
        rw [setQueueId_self (by simpa using hc), hslot]
        push_cast
        rfl
    · rw [hpending, afterAdd_queued s item hmode]
      intro c hc
      show setQueueId s.cells item.queueId _ c = -1
      rw [setQueueId_of_ne (hc item (by simp))]
      exact h.rest c fun other ho => hc other (List.mem_append_left _ ho)
    · rw [hpending]
      rw [List.pairwise_append]
      refine ⟨h.distinct, List.pairwise_singleton _ _, ?_⟩
      intro a ha b hb c hac hbc
      obtain rfl := List.mem_singleton.mp hb
      exact shares_eq_false hshares ha hbc hac
  · rw [afterAdd_skipped s item hmode]
    refine ⟨?_, ?_, h.distinct⟩
    · intro j hb hj c hc
      have hne : item.queueId ≠ some c := fun heq =>
        shares_eq_false hshares (mem_pending hb hj) heq hc
      show setQueueId s.cells item.queueId (-1) c = j % 2 ^ k
      rw [setQueueId_of_ne hne]
      exact h.slot j hb hj c hc
    · intro c hc
      show setQueueId s.cells item.queueId (-1) c = -1
      by_cases hself : item.queueId = some c
      · exact setQueueId_self hself
      · rw [setQueueId_of_ne hself]
        exact h.rest c hc

/-- The queue id of a task that is called back is -1, and the others are not touched. -/
theorem CellsValid.callBack (h : CellsValid k s) {s' : QueueSystem}
    (hlt : s.tail < s.queued.length) (hbegun₀ : s.begun = s.tail) (hqueued : s'.queued = s.queued)
    (hbegun : s'.begun = s.tail + 1)
    (hcells : s'.cells = setQueueId s.cells s.queued[s.tail].queueId (-1)) :
    CellsValid k s' := by
  have hpending : s.pending = s.queued[s.tail] :: s'.pending := by
    unfold pending
    rw [hqueued, hbegun, hbegun₀]
    exact List.drop_eq_getElem_cons hlt
  have hdistinct := h.distinct
  rw [hpending, List.pairwise_cons] at hdistinct
  obtain ⟨hfirst, hothers⟩ := hdistinct
  refine ⟨?_, ?_, hothers⟩
  · intro j hb hj c hc
    have hmem : s'.queued[j] ∈ s'.pending := mem_pending hb hj
    have hne : s.queued[s.tail].queueId ≠ some c := fun heq => hfirst _ hmem c heq hc
    simp only [hqueued] at hj hc
    rw [hcells, setQueueId_of_ne hne]
    exact h.slot j (by omega) hj c hc
  · intro c hc
    rw [hcells]
    by_cases hself : s.queued[s.tail].queueId = some c
    · exact setQueueId_self hself
    · rw [setQueueId_of_ne hself]
      apply h.rest
      rw [hpending]
      intro item hitem
      rcases List.mem_cons.mp hitem with rfl | hmem
      · exact hself
      · exact hc item hmem

theorem CellsValid.step (hk' : k ≤ 32) {s' : QueueSystem} (hring : RingValid k s)
    (hstep : Step k s s') (h : s.shared = false → CellsValid k s) :
    s'.shared = false → CellsValid k s' := by
  have hle := hring.tail_le
  have hle' := hring.curr_le
  intro hshared
  cases hstep with
  | add item hpd hid =>
      have hor : (s.shared || s.shares item) = false := hshared
      obtain ⟨hold, hshares⟩ := Bool.or_eq_false_iff.mp hor
      exact (h hold).afterAdd hring hk' item hshares
  | addReturn hdepth => exact (h hshared).frame rfl rfl rfl
  | tick hdepth hidle hthread =>
      refine (h hshared).frame rfl rfl ?_
      simp [begun, hidle]
  | loopCall hdepth hloop hdata hcall =>
      have hlt := (hring.hasFinished_iff hk').mp hdata
      have htl : s.tail < s.queued.length := by omega
      refine (h hshared).callBack htl (by simp [begun, hloop]) rfl rfl ?_
      rw [← hring.tailItem_eq hk' htl]
  | loopSkip hdepth hloop hdata hcall =>
      have hlt := (hring.hasFinished_iff hk').mp hdata
      have htl : s.tail < s.queued.length := by omega
      refine (h hshared).callBack htl (by simp [begun, hloop]) rfl (by simp [begun, hloop]) ?_
      rw [← hring.tailItem_eq hk' htl]
  | loopReturn hdepth hcalled =>
      refine (h hshared).frame rfl rfl ?_
      simp [begun, hcalled]
  | loopEnd hdepth hloop hdata =>
      refine (h hshared).frame rfl rfl ?_
      simp [begun, hloop]
  | useThreadOn hdepth hidle => exact (h hshared).frame rfl rfl rfl
  | useThreadOff hdepth hidle =>
      refine (h hshared).frame rfl rfl ?_
      simp [begun, hidle]
  | waited hdepth hwait hdata =>
      refine (h hshared).frame rfl rfl ?_
      simp [begun, hwait]
  | start hidle hdata => exact (h hshared).frame rfl rfl rfl
  | finish hrunning => exact (h hshared).frame rfl rfl rfl

/-! ## The thread mode -/

/-- The thread is not used: the worker has nothing to do, and the ring is empty as soon
as the callback loop that was started then is at its end. -/
def ThreadValid (s : QueueSystem) : Prop :=
  s.q.useThread = false → s.curr = s.queued.length ∧
    (s.tail = s.queued.length ∨ s.base = .loop ∨ s.base = .called)

theorem ThreadValid.step (hk' : k ≤ 32) {s' : QueueSystem} (h : ThreadValid s)
    (hring : RingValid k s) (hstep : Step k s s') : ThreadValid s' := by
  have hle := hring.tail_le
  have hle' := hring.curr_le
  have hran := hring.ran_le
  unfold ThreadValid at h ⊢
  intro hoff
  cases hstep with
  | add item hpd hid =>
      by_cases hmode : addMode k s = .queued
      · rw [afterAdd_queued s item hmode] at hoff
        rw [(addMode_queued s hmode).1] at hoff
        cases hoff
      · rw [afterAdd_skipped s item hmode] at hoff ⊢
        exact h hoff
  | addReturn hdepth => exact h hoff
  | tick hdepth hidle hthread =>
      exact ⟨(h hoff).1, Or.inr (Or.inl rfl)⟩
  | loopCall hdepth hloop hdata hcall => exact ⟨(h hoff).1, Or.inr (Or.inr rfl)⟩
  | loopSkip hdepth hloop hdata hcall => exact ⟨(h hoff).1, Or.inr (Or.inl hloop)⟩
  | loopReturn hdepth hcalled => exact ⟨(h hoff).1, Or.inr (Or.inl rfl)⟩
  | loopEnd hdepth hloop hdata =>
      have hdone : ¬ s.tail < s.curr := by
        rw [← hring.hasFinished_iff hk', hdata]
        exact Bool.false_ne_true
      have hcurr := (h hoff).1
      refine ⟨hcurr, Or.inl ?_⟩
      show s.tail = s.queued.length
      omega
  | useThreadOn hdepth hidle => cases hoff
  | useThreadOff hdepth hidle =>
      obtain ⟨hcurr, hend⟩ := h hoff
      refine ⟨hcurr, Or.inl ?_⟩
      rcases hend with hend | hloop | hcalled
      · exact hend
      · rw [hidle] at hloop
        cases hloop
      · rw [hidle] at hcalled
        cases hcalled
  | waited hdepth hwait hdata =>
      have hdone : ¬ s.curr < s.queued.length := by
        rw [← hring.hasData_iff hk', hdata]
        exact Bool.false_ne_true
      refine ⟨?_, Or.inr (Or.inl rfl)⟩
      show s.curr = s.queued.length
      omega
  | start hidle hdata =>
      have hlt := (hring.hasData_iff hk').mp hdata
      have hcurr := (h hoff).1
      omega
  | finish hrunning =>
      have hcurr := (h hoff).1
      unfold ran at hran
      rw [if_pos hrunning] at hran
      omega

end Served

end QueueSystem

end PureDataPacket
