/-
# `PureDataPacket.Queue.History` — what the log has of each task

A task that is not queued has its calls in the log where it was added.  A task that
is queued has its process method there as soon as the worker is at it, and its
callback as soon as the callback loop is.

| | |
| :-- | :-- |
| `LogValid` | what is known of the log |
| `LogValid.frame` | a step that neither adds a task nor calls a method |
| `LogValid.afterAdd` | a task is added: what is known of the others stays |
| `LogValid.start` | the worker calls the process method of the next task |
| `LogValid.callBack` | the callback loop gets to the next task: `called` is what it calls of it |
-/
import PureDataPacket.Queue.Ring
import Mathlib.Data.List.Nodup
import Mathlib.Data.List.Range

namespace PureDataPacket

namespace QueueSystem

/-- What the log has of one task. -/
def history (s : QueueSystem) (id : Nat) : List Happening :=
  (s.log.filter fun e => e.id = id).map Event.what

/-- The ids of the first `n` tasks of the ring. -/
def firstIds (s : QueueSystem) (n : Nat) : List Nat := (s.queued.take n).map QueueItem.id

/-- What the log should have of one task. -/
def expected (s : QueueSystem) (item : QueueItem) (mode : Mode) : List Happening :=
  (.added mode :: mode.calls item) ++
    ((if item.id ∈ s.firstIds s.ran then item.processes else []) ++
      (if item.id ∈ s.firstIds s.begun then item.callsBack true else []))

/-- The tasks with a callback, of the first `n` of the ring. -/
def firstCallbacks (s : QueueSystem) (n : Nat) : List Nat :=
  ((s.queued.take n).filter QueueItem.callback).map QueueItem.id

/-- The callbacks that the loop has called, in order. -/
def callbackLog (s : QueueSystem) : List Nat :=
  (s.log.filter fun e => e.what = .calledBack true).map Event.id

/-- What is known of the log. -/
structure LogValid (s : QueueSystem) : Prop where
  ids_eq : s.added.map (fun a => a.1.id) = List.range s.added.length
  queued_eq : s.queued = (s.added.filter fun a => a.2 = .queued).map Prod.fst
  log_lt : ∀ e ∈ s.log, e.id < s.added.length
  history_eq : ∀ a ∈ s.added, s.history a.1.id = s.expected a.1 a.2
  order_eq : s.callbackLog = s.firstCallbacks s.begun
  immediate : ∀ a ∈ s.added,
    ∃ before after, s.log = before ++ events a.1.id (.added a.2 :: a.2.calls a.1) ++ after

/-! ## Lists of ids -/

section Ids

variable {s : QueueSystem}

theorem LogValid.id_lt (h : LogValid s) {a : QueueItem × Mode} (ha : a ∈ s.added) :
    a.1.id < s.added.length := by
  have : a.1.id ∈ s.added.map fun a => a.1.id := List.mem_map_of_mem ha
  rw [h.ids_eq] at this
  exact List.mem_range.mp this

theorem LogValid.mem_added (h : LogValid s) {item : QueueItem} (hi : item ∈ s.queued) :
    (item, .queued) ∈ s.added := by
  rw [h.queued_eq, List.mem_map] at hi
  obtain ⟨⟨item', mode⟩, ha, rfl⟩ := hi
  obtain ⟨hadded, hmode⟩ := List.mem_filter.mp ha
  have hmode : mode = .queued := of_decide_eq_true hmode
  subst hmode
  exact hadded

theorem LogValid.item_inj (h : LogValid s) {a b : QueueItem × Mode} (ha : a ∈ s.added)
    (hb : b ∈ s.added) (heq : a.1.id = b.1.id) : a.1 = b.1 := by
  have hnodup : (s.added.map fun a => a.1.id).Nodup := by
    rw [h.ids_eq]
    exact List.nodup_range
  rw [List.inj_on_of_nodup_map hnodup ha hb heq]

/-- The ring has each task once, in the order of the adds. -/
theorem LogValid.queued_sorted (h : LogValid s) :
    (s.queued.map QueueItem.id).Pairwise (· < ·) := by
  have hsub : (s.queued.map QueueItem.id).Sublist (s.added.map fun a => a.1.id) := by
    rw [h.queued_eq, List.map_map]
    exact (List.filter_sublist).map _
  apply List.Pairwise.sublist hsub
  rw [h.ids_eq]
  exact List.pairwise_lt_range

theorem LogValid.firstIds_lt (h : LogValid s) {n id : Nat} (hid : id ∈ s.firstIds n) :
    id < s.added.length := by
  obtain ⟨item, hitem, rfl⟩ := List.mem_map.mp hid
  exact h.id_lt (h.mem_added (List.mem_of_mem_take hitem))

theorem mem_firstIds_succ {n id : Nat} (hn : n < s.queued.length) :
    id ∈ s.firstIds (n + 1) ↔ id ∈ s.firstIds n ∨ id = s.queued[n].id := by
  unfold firstIds
  rw [List.take_add_one, List.getElem?_eq_getElem hn, List.map_append, List.mem_append]
  simp

/-- The task at `n` is not among the first `n`. -/
theorem LogValid.not_mem_firstIds (h : LogValid s) {n : Nat} (hn : n < s.queued.length) {m : Nat}
    (hm : m ≤ n) : s.queued[n].id ∉ s.firstIds m := by
  intro hmem
  obtain ⟨item, hitem, hid⟩ := List.mem_map.mp hmem
  obtain ⟨i, hi, rfl⟩ := List.mem_take_iff_getElem.mp hitem
  have hi' : i < (s.queued.map QueueItem.id).length := by rw [List.length_map]; omega
  have hn' : n < (s.queued.map QueueItem.id).length := by rw [List.length_map]; exact hn
  have hlt : (s.queued.map QueueItem.id)[i] < (s.queued.map QueueItem.id)[n] :=
    List.pairwise_iff_getElem.mp h.queued_sorted i n hi' hn' (by omega)
  rw [List.getElem_map, List.getElem_map, hid] at hlt
  exact Nat.lt_irrefl _ hlt

end Ids

/-! ## The log grows -/

section Log

variable {s : QueueSystem}

theorem history_append {log : List Event} (hlog : s.log = log) (s' : QueueSystem) (id : Nat)
    (whats : List Happening) (hlog' : s'.log = log ++ events id whats) (n : Nat) :
    s'.history n = s.history n ++ if n = id then whats else [] := by
  unfold history
  rw [hlog', hlog, List.filter_append, List.map_append]
  congr 1
  split
  · next heq =>
      subst heq
      unfold events
      rw [List.filter_eq_self.mpr ?_, List.map_map]
      · exact List.map_id _
      · intro e he
        obtain ⟨what, _, rfl⟩ := List.mem_map.mp he
        exact decide_eq_true rfl
  · next hne =>
      rw [List.filter_eq_nil_iff.mpr ?_, List.map_nil]
      intro e he
      obtain ⟨what, _, rfl⟩ := List.mem_map.mp he
      simpa using fun heq => hne heq.symm

theorem callbackLog_append (s' : QueueSystem) (id : Nat) (whats : List Happening)
    (hlog' : s'.log = s.log ++ events id whats) :
    s'.callbackLog = s.callbackLog ++
      (whats.filter fun what => what = .calledBack true).map fun _ => id := by
  unfold callbackLog events at *
  rw [hlog', List.filter_append, List.map_append, List.filter_map, List.map_map]
  rfl

theorem immediate_append {log : List Event} {a : QueueItem × Mode} (rest : List Event)
    (h : ∃ before after,
      log = before ++ events a.1.id (.added a.2 :: a.2.calls a.1) ++ after) :
    ∃ before after,
      log ++ rest = before ++ events a.1.id (.added a.2 :: a.2.calls a.1) ++ after := by
  obtain ⟨before, after, rfl⟩ := h
  exact ⟨before, after ++ rest, by rw [List.append_assoc]⟩

theorem QueueItem_processes_callbacks (item : QueueItem) :
    (item.processes.filter fun what => what = .calledBack true) = [] := by
  unfold QueueItem.processes
  split <;> rfl

theorem Mode_calls_callbacks (mode : Mode) (item : QueueItem) :
    (mode.calls item).filter (fun what => what = .calledBack true) = [] := by
  unfold Mode.calls QueueItem.processes QueueItem.callsBack
  cases mode with
  | direct => cases item.process <;> cases item.callback <;> rfl
  | full => cases item.callback <;> rfl
  | queued => rfl

end Log

/-! ## What the steps do to the log -/

section LogSteps

variable {k : Nat} {s : QueueSystem}

theorem LogValid.init : LogValid init where
  ids_eq := rfl
  queued_eq := rfl
  log_lt := fun _ he => absurd he List.not_mem_nil
  history_eq := fun _ ha => absurd ha List.not_mem_nil
  order_eq := rfl
  immediate := fun _ ha => absurd ha List.not_mem_nil

theorem LogValid.frame {s' : QueueSystem} (h : LogValid s) (hadded : s'.added = s.added)
    (hqueued : s'.queued = s.queued) (hlog : s'.log = s.log) (hran : s'.ran = s.ran)
    (hbegun : s'.begun = s.begun) : LogValid s' where
  ids_eq := by rw [hadded]; exact h.ids_eq
  queued_eq := by rw [hqueued, hadded]; exact h.queued_eq
  log_lt := by rw [hlog, hadded]; exact h.log_lt
  history_eq := by
    intro a ha
    have := h.history_eq a (by rw [← hadded]; exact ha)
    unfold history expected firstIds at this ⊢
    rw [hlog, hqueued, hran, hbegun]
    exact this
  order_eq := by
    have := h.order_eq
    unfold callbackLog firstCallbacks at this ⊢
    rw [hlog, hqueued, hbegun]
    exact this
  immediate := by rw [hadded, hlog]; exact h.immediate

theorem LogValid.afterAdd (h : LogValid s) (hring : RingValid k s) (item : QueueItem)
    (hid : item.id = s.added.length) : LogValid (s.afterAdd k item) := by
  obtain ⟨mode, hmode⟩ : ∃ mode, (pdpProcqueueAdd k s.q s.cells item).1 = mode := ⟨_, rfl⟩
  have hadded : (s.afterAdd k item).added = s.added ++ [(item, mode)] := by
    rw [← hmode]
    rfl
  have hlog : (s.afterAdd k item).log =
      s.log ++ events item.id (.added mode :: mode.calls item) := by
    rw [← hmode]
    rfl
  have hqueued : (s.afterAdd k item).queued =
      if mode = .queued then s.queued ++ [item] else s.queued := by
    rw [← hmode]
    rfl
  have hran : (s.afterAdd k item).ran = s.ran := rfl
  have hbegun : (s.afterAdd k item).begun = s.begun := rfl
  have hranle := hring.ran_le
  have hbegunle : s.begun ≤ s.queued.length := hring.begun_le.trans hring.curr_le
  have htake : ∀ n, n ≤ s.queued.length →
      (s.afterAdd k item).queued.take n = s.queued.take n := by
    intro n hn
    rw [hqueued]
    split
    · exact List.take_append_of_le_length hn
    · rfl
  have hexpected : ∀ a, (s.afterAdd k item).expected a = s.expected a := by
    intro a
    unfold expected firstIds
    rw [hran, hbegun, htake s.ran hranle, htake s.begun hbegunle]
  refine ⟨?_, ?_, ?_, ?_, ?_, ?_⟩
  · rw [hadded, List.map_append, h.ids_eq, List.length_append, List.length_singleton,
      List.range_succ, List.map_singleton, hid]
  · rw [hadded, List.filter_append, List.map_append, ← h.queued_eq, hqueued]
    by_cases hq : mode = .queued
    · rw [if_pos hq]
      simp [hq]
    · rw [if_neg hq]
      simp [hq]
  · rw [hlog, hadded, List.length_append, List.length_singleton]
    intro e he
    rcases List.mem_append.mp he with hold | hnew
    · exact (h.log_lt e hold).trans (Nat.lt_succ_self _)
    · obtain ⟨what, _, rfl⟩ := List.mem_map.mp hnew
      show item.id < _
      omega
  · intro a ha
    rw [history_append rfl _ item.id _ hlog, hexpected]
    rw [hadded] at ha
    rcases List.mem_append.mp ha with hold | hnew
    · have hlt := h.id_lt hold
      rw [h.history_eq a hold, if_neg (by omega), List.append_nil]
    · obtain rfl := List.mem_singleton.mp hnew
      have hempty : s.history item.id = [] := by
        unfold history
        rw [List.filter_eq_nil_iff.mpr ?_, List.map_nil]
        intro e he
        have := h.log_lt e he
        simp only [decide_eq_true_eq]
        omega
      have hnot : ∀ n, item.id ∉ s.firstIds n := by
        intro n hmem
        have := h.firstIds_lt hmem
        omega
      unfold expected
      rw [hempty, if_pos rfl, if_neg (hnot s.ran), if_neg (hnot s.begun)]
      simp
  · rw [callbackLog_append _ _ _ hlog, h.order_eq]
    unfold firstCallbacks
    rw [hbegun, htake s.begun hbegunle]
    have hnone : ((Happening.added mode :: mode.calls item).filter
        fun what => what = .calledBack true) = [] := by
      rw [List.filter_cons_of_neg (by simp), Mode_calls_callbacks]
    rw [hnone, List.map_nil, List.append_nil]
  · intro a ha
    rw [hlog]
    rw [hadded] at ha
    rcases List.mem_append.mp ha with hold | hnew
    · exact immediate_append _ (h.immediate a hold)
    · obtain rfl := List.mem_singleton.mp hnew
      exact ⟨s.log, [], by rw [List.append_nil]⟩

theorem LogValid.start (h : LogValid s) (hring : RingValid k s) {s' : QueueSystem}
    (hlt : s.curr < s.queued.length) (hidle : s.running = false) (hadded : s'.added = s.added)
    (hqueued : s'.queued = s.queued) (hran : s'.ran = s.curr + 1) (hbegun : s'.begun = s.begun)
    (hlog : s'.log = s.log ++ events s.queued[s.curr].id s.queued[s.curr].processes) :
    LogValid s' := by
  have hran₀ : s.ran = s.curr := by
    unfold ran
    rw [hidle]
    rfl
  refine ⟨?_, ?_, ?_, ?_, ?_, ?_⟩
  · rw [hadded]
    exact h.ids_eq
  · rw [hqueued, hadded]
    exact h.queued_eq
  · rw [hlog, hadded]
    intro e he
    rcases List.mem_append.mp he with hold | hnew
    · exact h.log_lt e hold
    · obtain ⟨what, _, rfl⟩ := List.mem_map.mp hnew
      exact h.id_lt (h.mem_added (List.getElem_mem hlt))
  · intro a ha
    rw [hadded] at ha
    have hfirst : s'.firstIds = s.firstIds := by
      unfold firstIds
      rw [hqueued]
    rw [history_append rfl _ _ _ hlog, h.history_eq a ha]
    unfold expected
    rw [hfirst, hran, hbegun, hran₀]
    by_cases hself : a.1.id = s.queued[s.curr].id
    · have hitem : a.1 = s.queued[s.curr] := h.item_inj ha (h.mem_added (List.getElem_mem hlt)) hself
      have hnot := h.not_mem_firstIds hlt (Nat.le_refl _)
      have hnot' := h.not_mem_firstIds hlt hring.begun_le
      rw [hitem, if_neg hnot, if_neg hnot', if_pos rfl,
        if_pos ((mem_firstIds_succ hlt).mpr (Or.inr rfl))]
      simp
    · have hiff : a.1.id ∈ s.firstIds (s.curr + 1) ↔ a.1.id ∈ s.firstIds s.curr := by
        rw [mem_firstIds_succ hlt]
        exact or_iff_left hself
      simp only [hiff, if_neg hself, List.append_nil]
  · rw [callbackLog_append _ _ _ hlog, h.order_eq]
    unfold firstCallbacks
    rw [hbegun, hqueued, QueueItem_processes_callbacks, List.map_nil, List.append_nil]
  · intro a ha
    rw [hlog]
    exact immediate_append _ (h.immediate a (by rw [← hadded]; exact ha))

theorem LogValid.callBack (h : LogValid s) {s' : QueueSystem}
    (hlt : s.tail < s.queued.length) (hbegun₀ : s.begun = s.tail) (hadded : s'.added = s.added)
    (hqueued : s'.queued = s.queued) (hran : s'.ran = s.ran) (hbegun : s'.begun = s.tail + 1)
    (hlog : s'.log = s.log ++ events s.queued[s.tail].id (s.queued[s.tail].callsBack true)) :
    LogValid s' := by
  refine ⟨?_, ?_, ?_, ?_, ?_, ?_⟩
  · rw [hadded]
    exact h.ids_eq
  · rw [hqueued, hadded]
    exact h.queued_eq
  · rw [hlog, hadded]
    intro e he
    rcases List.mem_append.mp he with hold | hnew
    · exact h.log_lt e hold
    · obtain ⟨what, _, rfl⟩ := List.mem_map.mp hnew
      exact h.id_lt (h.mem_added (List.getElem_mem hlt))
  · intro a ha
    rw [hadded] at ha
    have hfirst : s'.firstIds = s.firstIds := by
      unfold firstIds
      rw [hqueued]
    rw [history_append rfl _ _ _ hlog, h.history_eq a ha]
    unfold expected
    rw [hfirst, hran, hbegun, hbegun₀]
    by_cases hself : a.1.id = s.queued[s.tail].id
    · have hitem : a.1 = s.queued[s.tail] := h.item_inj ha (h.mem_added (List.getElem_mem hlt)) hself
      have hnot := h.not_mem_firstIds hlt (Nat.le_refl _)
      rw [hitem, if_neg hnot, if_pos rfl, if_pos ((mem_firstIds_succ hlt).mpr (Or.inr rfl))]
      simp
    · have hiff : a.1.id ∈ s.firstIds (s.tail + 1) ↔ a.1.id ∈ s.firstIds s.tail := by
        rw [mem_firstIds_succ hlt]
        exact or_iff_left hself
      simp only [hiff, if_neg hself, List.append_nil]
  · rw [callbackLog_append _ _ _ hlog, h.order_eq]
    unfold firstCallbacks
    rw [hbegun, hqueued, hbegun₀, List.take_add_one, List.getElem?_eq_getElem hlt,
      List.filter_append, List.map_append]
    congr 1
    unfold QueueItem.callsBack
    cases hcb : s.queued[s.tail].callback <;> simp [hcb]
  · intro a ha
    rw [hlog]
    exact immediate_append _ (h.immediate a (by rw [← hadded]; exact ha))

end LogSteps

end QueueSystem

end PureDataPacket
