/-
# `PureDataPacket.Queue.Ring` — the counters and the slots

The machine's counters are the numbers of tasks that were added, processed and
called back, cut to an `int`.  As long as these are less than a ring apart, the
masked tests say what they are meant to say, and a slot that is written was free.

| | |
| :-- | :-- |
| `RingValid` | where the counters are, and what the slots between them have |
| `masked_sub_eq_zero` | counters less than a ring apart: the mask does not hide a difference |
| `slot_inj` | two tasks of the ring are in different slots |
| `RingValid.add` | a slot that is written was free: no task of the ring is in it |
| `RingValid.frame` | steps of the Pd thread that leave the counters where they are |
| `RingValid.advanceTail` | the callback loop goes on to the next task |
-/
import PureDataPacket.Queue.ProcQueue
import Mathlib.Algebra.Order.Ring.Int
import Mathlib.Data.Nat.ModEq
import Mathlib.Tactic.Positivity

namespace PureDataPacket

/-! ## Masks -/

section Masks

variable {k : Nat}

theorem toInt32_emod (hk : k ≤ 32) (n : Int) : toInt32 n % 2 ^ k = n % 2 ^ k := by
  have hdvd : (2 : Int) ^ k ∣ 2 ^ 32 := pow_dvd_pow 2 hk
  have hcut : toInt32 n % 2 ^ 32 = n % 2 ^ 32 := by
    unfold toInt32
    exact_mod_cast Int.bmod_emod
  rw [← Int.emod_emod_of_dvd (toInt32 n) hdvd, hcut, Int.emod_emod_of_dvd n hdvd]

theorem masked_sub (hk : k ≤ 32) (a b : Int) :
    masked k (toInt32 (toInt32 a - toInt32 b)) = (a - b) % 2 ^ k := by
  unfold masked
  rw [toInt32_emod hk, Int.sub_emod, toInt32_emod hk, toInt32_emod hk, ← Int.sub_emod]

theorem slotOf_toInt32 (hk : k ≤ 32) (n : Nat) : slotOf k (toInt32 n) = n % 2 ^ k := by
  unfold slotOf masked
  rw [toInt32_emod hk]
  have hcast : ((n : Int) % 2 ^ k) = ((n % 2 ^ k : Nat) : Int) := by push_cast; rfl
  rw [hcast, Int.toNat_natCast]

theorem masked_sub_eq_zero {a b : Nat} (hle : a ≤ b) (hlt : b < a + 2 ^ k) :
    ((a : Int) - b) % 2 ^ k = 0 ↔ a = b := by
  have hpos : (0 : Int) < 2 ^ k := by positivity
  have hlt' : (b : Int) < a + 2 ^ k := by exact_mod_cast hlt
  constructor
  · intro h
    obtain ⟨c, hc⟩ := Int.dvd_of_emod_eq_zero h
    have hc0 : c ≤ 0 := by
      by_contra hcpos
      have : 2 ^ k * 1 ≤ (2 : Int) ^ k * c := by
        apply Int.mul_le_mul_of_nonneg_left <;> omega
      omega
    have hc1 : -1 < c := by
      by_contra hcneg
      have : (2 : Int) ^ k * c ≤ 2 ^ k * -1 := by
        apply Int.mul_le_mul_of_nonneg_left <;> omega
      omega
    have : c = 0 := by omega
    subst this
    omega
  · rintro rfl
    simp

theorem masked_sub_eq_one {a b : Nat} (hk : 1 ≤ k) (hle : a ≤ b) (hlt : b < a + 2 ^ k) :
    ((a : Int) - b) % 2 ^ k = 1 ↔ b + 1 = a + 2 ^ k := by
  have htwo : (2 : Int) ≤ 2 ^ k := by
    calc (2 : Int) = 2 ^ 1 := by norm_num
      _ ≤ 2 ^ k := by exact_mod_cast Nat.pow_le_pow_right (by omega) hk
  have hlt' : (b : Int) < a + 2 ^ k := by exact_mod_cast hlt
  have hcast : b + 1 = a + 2 ^ k ↔ (b : Int) + 1 = a + 2 ^ k := by
    constructor
    · intro h
      exact_mod_cast h
    · intro h
      exact_mod_cast h
  rw [hcast]
  rcases Nat.eq_or_lt_of_le hle with rfl | hab
  · rw [Int.sub_self, Int.zero_emod]
    omega
  · have hmod : ((a : Int) - b) % 2 ^ k = a - b + 2 ^ k := by
      rw [← Int.add_emod_right]
      apply Int.emod_eq_of_lt <;> omega
    rw [hmod]
    omega

theorem slot_inj {i j t : Nat} (hi : t ≤ i) (hi' : i < t + 2 ^ k) (hj : t ≤ j)
    (hj' : j < t + 2 ^ k) (h : i % 2 ^ k = j % 2 ^ k) : i = j := by
  rcases Nat.le_total i j with hij | hij
  · exact (Nat.ModEq.eq_of_abs_lt h (by rw [abs_lt]; omega))
  · exact (Nat.ModEq.eq_of_abs_lt h (by rw [abs_lt]; omega))

/-! ## The tests -/

section Tests

variable {q : ProcQueue} {t c n : Nat}

theorem pdpProcqueueFull_iff (hk : 1 ≤ k) (hk' : k ≤ 32) (htail : q.tail = toInt32 t)
    (hhead : q.head = toInt32 n) (hle : t ≤ n) (hlt : n < t + 2 ^ k) :
    pdpProcqueueFull k q = true ↔ n + 1 = t + 2 ^ k := by
  unfold pdpProcqueueFull
  rw [decide_eq_true_iff, htail, hhead, masked_sub hk']
  exact masked_sub_eq_one hk hle hlt

theorem hasData_iff_lt (hk' : k ≤ 32) (hcurr : q.curr = toInt32 c) (hhead : q.head = toInt32 n)
    (hle : c ≤ n) (hlt : n < c + 2 ^ k) : hasData k q = true ↔ c < n := by
  unfold hasData
  rw [decide_eq_true_iff, hcurr, hhead, masked_sub hk', ne_eq, masked_sub_eq_zero hle hlt]
  omega

theorem hasFinished_iff_lt (hk' : k ≤ 32) (hcurr : q.curr = toInt32 c) (htail : q.tail = toInt32 t)
    (hle : t ≤ c) (hlt : c < t + 2 ^ k) : hasFinished k q = true ↔ t < c := by
  unfold hasFinished
  have hflip : ((c : Int) - t) % 2 ^ k = 0 ↔ ((t : Int) - c) % 2 ^ k = 0 := by
    rw [← Int.dvd_iff_emod_eq_zero, ← Int.dvd_iff_emod_eq_zero, ← Int.dvd_neg, Int.neg_sub]
  rw [decide_eq_true_iff, hcurr, htail, masked_sub hk', ne_eq, hflip, masked_sub_eq_zero hle hlt]
  omega

end Tests

end Masks

namespace QueueSystem

/-! ## The counters of a run -/

theorem toInt32_zero : toInt32 ((0 : Nat) : Int) = 0 := by decide

/-- Where the counters are, and what the slots between them have. -/
structure RingValid (k : Nat) (s : QueueSystem) : Prop where
  head_eq : s.q.head = toInt32 s.queued.length
  curr_eq : s.q.curr = toInt32 s.curr
  tail_eq : s.q.tail = toInt32 s.tail
  begun_le : s.begun ≤ s.curr
  ran_le : s.ran ≤ s.queued.length
  length_lt : s.queued.length < s.tail + 2 ^ k
  slots_eq : ∀ j (_ : s.tail ≤ j) (hj : j < s.queued.length),
    s.q.slots (j % 2 ^ k) = s.queued[j]

theorem tail_le_begun (s : QueueSystem) : s.tail ≤ s.begun := by
  unfold begun
  split <;> omega

theorem curr_le_ran (s : QueueSystem) : s.curr ≤ s.ran := by
  unfold ran
  split <;> omega

namespace RingValid

variable {k : Nat} {s : QueueSystem}

theorem tail_le (h : RingValid k s) : s.tail ≤ s.curr := (tail_le_begun s).trans h.begun_le

theorem curr_le (h : RingValid k s) : s.curr ≤ s.queued.length := (curr_le_ran s).trans h.ran_le

theorem full_iff (h : RingValid k s) (hk : 1 ≤ k) (hk' : k ≤ 32) :
    pdpProcqueueFull k s.q = true ↔ s.queued.length + 1 = s.tail + 2 ^ k :=
  pdpProcqueueFull_iff hk hk' h.tail_eq h.head_eq (h.tail_le.trans h.curr_le) h.length_lt

theorem hasData_iff (h : RingValid k s) (hk' : k ≤ 32) :
    hasData k s.q = true ↔ s.curr < s.queued.length := by
  have hlt := h.length_lt
  have htail := h.tail_le
  exact hasData_iff_lt hk' h.curr_eq h.head_eq h.curr_le (by omega)

theorem hasFinished_iff (h : RingValid k s) (hk' : k ≤ 32) :
    hasFinished k s.q = true ↔ s.tail < s.curr :=
  hasFinished_iff_lt hk' h.curr_eq h.tail_eq h.tail_le (h.curr_le.trans_lt h.length_lt)

/-- What the worker finds at `curr`. -/
theorem currItem_eq (h : RingValid k s) (hk' : k ≤ 32) (hc : s.curr < s.queued.length) :
    s.currItem k = s.queued[s.curr] := by
  unfold currItem
  rw [h.curr_eq, slotOf_toInt32 hk']
  exact h.slots_eq s.curr h.tail_le hc

/-- What the callback loop finds at `tail`. -/
theorem tailItem_eq (h : RingValid k s) (hk' : k ≤ 32) (ht : s.tail < s.queued.length) :
    s.tailItem k = s.queued[s.tail] := by
  unfold tailItem
  rw [h.tail_eq, slotOf_toInt32 hk']
  exact h.slots_eq s.tail le_rfl ht

end RingValid

/-! ## One call of `pdp_procqueue_add` -/

section Add

variable {k : Nat} (s : QueueSystem) (item : QueueItem)

def addMode (k : Nat) (s : QueueSystem) : Mode :=
  if s.q.useThread = false then .direct else if pdpProcqueueFull k s.q then .full else .queued

theorem pdpProcqueueAdd_mode (k : Nat) :
    (pdpProcqueueAdd k s.q s.cells item).1 = addMode k s := by
  unfold pdpProcqueueAdd addMode
  cases s.q.useThread
  · rfl
  · cases pdpProcqueueFull k s.q <;> rfl

/-- A task that is not queued leaves the ring alone. -/
theorem pdpProcqueueAdd_skipped (h : addMode k s ≠ .queued) :
    pdpProcqueueAdd k s.q s.cells item =
      (addMode k s, s.q, setQueueId s.cells item.queueId (-1)) := by
  revert h
  unfold pdpProcqueueAdd addMode
  cases s.q.useThread
  · intro _
    rfl
  · cases pdpProcqueueFull k s.q
    · intro h
      exact absurd rfl h
    · intro _
      rfl

theorem addMode_queued (h : addMode k s = .queued) :
    s.q.useThread = true ∧ pdpProcqueueFull k s.q = false := by
  revert h
  unfold addMode
  cases s.q.useThread <;> cases pdpProcqueueFull k s.q <;> simp

theorem pdpProcqueueAdd_queued (h : addMode k s = .queued) :
    pdpProcqueueAdd k s.q s.cells item =
      (.queued, { s.q with
          slots := Function.update s.q.slots (slotOf k s.q.head) item
          head := toInt32 (s.q.head + 1) },
        setQueueId s.cells item.queueId (slotOf k s.q.head)) := by
  obtain ⟨hthread, hfull⟩ := addMode_queued s h
  unfold pdpProcqueueAdd
  rw [if_neg (by simp [hthread]), if_neg (by simp [hfull])]

theorem afterAdd_queued (h : addMode k s = .queued) :
    s.afterAdd k item = { s with
      q := { s.q with
        slots := Function.update s.q.slots (slotOf k s.q.head) item
        head := toInt32 (s.q.head + 1) }
      cells := setQueueId s.cells item.queueId (slotOf k s.q.head)
      added := s.added ++ [(item, .queued)]
      queued := s.queued ++ [item]
      log := s.log ++ [⟨item.id, .added .queued⟩]
      shared := s.shared || s.shares item } := by
  unfold afterAdd
  rw [pdpProcqueueAdd_queued s item h]
  rfl

/-- The state after a call that calls the callback itself, or in this callback. -/
theorem afterAdd_skipped (h : addMode k s ≠ .queued) :
    s.afterAdd k item = { s with
      cells := setQueueId s.cells item.queueId (-1)
      depth := if item.callback = true then s.depth + 1 else s.depth
      added := s.added ++ [(item, addMode k s)]
      log := s.log ++ events item.id (.added (addMode k s) :: (addMode k s).calls item)
      shared := s.shared || s.shares item } := by
  unfold afterAdd
  rw [pdpProcqueueAdd_skipped s item h]
  simp only [h, ne_eq, not_false_eq_true, true_and, if_false]

end Add

theorem toInt32_succ (n : Nat) : toInt32 (toInt32 n + 1) = toInt32 ((n + 1 : Nat) : Int) := by
  unfold toInt32
  push_cast
  exact Int.bmod_add_bmod

/-! ## What the steps do to the ring -/

section RingSteps

variable {k : Nat} {s : QueueSystem}

theorem RingValid.init (k : Nat) : RingValid k init where
  head_eq := toInt32_zero.symm
  curr_eq := toInt32_zero.symm
  tail_eq := toInt32_zero.symm
  begun_le := le_rfl
  ran_le := le_rfl
  length_lt := by
    show 0 < 0 + 2 ^ k
    positivity
  slots_eq := fun j _ hj => absurd hj (Nat.not_lt_zero j)

theorem RingValid.add (h : RingValid k s) (hk : 1 ≤ k) (hk' : k ≤ 32) (item : QueueItem)
    (hmode : addMode k s = .queued) : RingValid k (s.afterAdd k item) := by
  have hfull : ¬ s.queued.length + 1 = s.tail + 2 ^ k := by
    rw [← h.full_iff hk hk', (addMode_queued s hmode).2]
    exact Bool.false_ne_true
  have hlt := h.length_lt
  have hran := h.ran_le
  have htail := h.tail_le
  have hcurr := h.curr_le
  rw [afterAdd_queued s item hmode]
  have hlength : (s.queued ++ [item]).length = s.queued.length + 1 := by simp
  refine ⟨?_, h.curr_eq, h.tail_eq, h.begun_le, ?_, ?_, ?_⟩
  · show toInt32 (s.q.head + 1) = toInt32 (s.queued ++ [item]).length
    rw [h.head_eq, hlength]
    exact toInt32_succ _
  · show s.ran ≤ (s.queued ++ [item]).length
    omega
  · show (s.queued ++ [item]).length < s.tail + 2 ^ k
    omega
  · intro j hj hjlen
    have hj : s.tail ≤ j := hj
    have hjlen : j < (s.queued ++ [item]).length := hjlen
    show Function.update s.q.slots (slotOf k s.q.head) item (j % 2 ^ k) = (s.queued ++ [item])[j]
    rw [h.head_eq, slotOf_toInt32 hk']
    rcases Nat.lt_or_ge j s.queued.length with hold | hnew
    · have hne : j % 2 ^ k ≠ s.queued.length % 2 ^ k := by
        intro heq
        have := slot_inj hj (by omega) (by omega : s.tail ≤ s.queued.length) hlt heq
        omega
      rw [Function.update_of_ne hne, List.getElem_append_left hold]
      exact h.slots_eq j hj hold
    · have : j = s.queued.length := by omega
      subst this
      rw [Function.update_self, List.getElem_append_right le_rfl]
      simp

theorem RingValid.afterAdd (h : RingValid k s) (hk : 1 ≤ k) (hk' : k ≤ 32) (item : QueueItem) :
    RingValid k (s.afterAdd k item) := by
  by_cases hmode : addMode k s = .queued
  · exact h.add hk hk' item hmode
  · rw [afterAdd_skipped s item hmode]
    exact ⟨h.head_eq, h.curr_eq, h.tail_eq, h.begun_le, h.ran_le, h.length_lt, h.slots_eq⟩

theorem RingValid.frame {s' : QueueSystem} (h : RingValid k s) (hslots : s'.q.slots = s.q.slots)
    (hhead : s'.q.head = s.q.head) (hqcurr : s'.q.curr = s.q.curr) (hqtail : s'.q.tail = s.q.tail)
    (hqueued : s'.queued = s.queued) (hcurr : s'.curr = s.curr) (htail : s'.tail = s.tail)
    (hrunning : s'.running = s.running) (hbegun : s'.begun ≤ s.curr) : RingValid k s' where
  head_eq := by rw [hhead, hqueued]; exact h.head_eq
  curr_eq := by rw [hqcurr, hcurr]; exact h.curr_eq
  tail_eq := by rw [hqtail, htail]; exact h.tail_eq
  begun_le := by rw [hcurr]; exact hbegun
  ran_le := by
    have hran := h.ran_le
    unfold ran at hran ⊢
    rw [hrunning, hcurr, hqueued]
    exact hran
  length_lt := by rw [hqueued, htail]; exact h.length_lt
  slots_eq := by
    intro j hj hjlen
    have hjlen' : j < s.queued.length := by rw [← hqueued]; exact hjlen
    rw [hslots, h.slots_eq j (by rw [← htail]; exact hj) hjlen']
    simp only [hqueued]

theorem RingValid.advanceTail {s' : QueueSystem} (h : RingValid k s) (hlt : s.tail < s.curr)
    (hslots : s'.q.slots = s.q.slots) (hhead : s'.q.head = s.q.head)
    (hqcurr : s'.q.curr = s.q.curr) (hqtail : s'.q.tail = toInt32 (s.q.tail + 1))
    (hqueued : s'.queued = s.queued) (hcurr : s'.curr = s.curr) (htail : s'.tail = s.tail + 1)
    (hrunning : s'.running = s.running) (hbase : s'.base = .loop) : RingValid k s' where
  head_eq := by rw [hhead, hqueued]; exact h.head_eq
  curr_eq := by rw [hqcurr, hcurr]; exact h.curr_eq
  tail_eq := by rw [hqtail, htail, h.tail_eq]; exact toInt32_succ _
  begun_le := by
    unfold begun
    rw [hbase, if_neg (by decide), htail, hcurr]
    exact hlt
  ran_le := by
    have hran := h.ran_le
    unfold ran at hran ⊢
    rw [hrunning, hcurr, hqueued]
    exact hran
  length_lt := by
    have := h.length_lt
    rw [hqueued, htail]
    omega
  slots_eq := by
    intro j hj hjlen
    have hjlen' : j < s.queued.length := by rw [← hqueued]; exact hjlen
    rw [hslots, h.slots_eq j (by omega) hjlen']
    simp only [hqueued]

theorem RingValid.step (hk : 1 ≤ k) (hk' : k ≤ 32) {s' : QueueSystem} (h : RingValid k s)
    (hstep : Step k s s') : RingValid k s' := by
  have htail := h.tail_le
  have hbegun := h.begun_le
  cases hstep with
  | add item hpd hid => exact h.afterAdd hk hk' item
  | addReturn hdepth => exact h.frame rfl rfl rfl rfl rfl rfl rfl rfl hbegun
  | tick hdepth hidle hthread => exact h.frame rfl rfl rfl rfl rfl rfl rfl rfl htail
  | loopCall hdepth hloop hdata hcall =>
      have hlt := (h.hasFinished_iff hk').mp hdata
      exact h.frame rfl rfl rfl rfl rfl rfl rfl rfl hlt
  | loopSkip hdepth hloop hdata hcall =>
      have hlt := (h.hasFinished_iff hk').mp hdata
      exact h.advanceTail hlt rfl rfl rfl rfl rfl rfl rfl rfl hloop
  | loopReturn hdepth hcalled =>
      have hlt : s.tail < s.curr := by
        have := h.begun_le
        unfold begun at this
        rw [if_pos hcalled] at this
        exact this
      exact h.advanceTail hlt rfl rfl rfl rfl rfl rfl rfl rfl rfl
  | loopEnd hdepth hloop hdata => exact h.frame rfl rfl rfl rfl rfl rfl rfl rfl htail
  | useThreadOn hdepth hidle => exact h.frame rfl rfl rfl rfl rfl rfl rfl rfl hbegun
  | useThreadOff hdepth hidle => exact h.frame rfl rfl rfl rfl rfl rfl rfl rfl htail
  | waited hdepth hwait hdata => exact h.frame rfl rfl rfl rfl rfl rfl rfl rfl htail
  | start hidle hdata =>
      have hlt := (h.hasData_iff hk').mp hdata
      exact ⟨h.head_eq, h.curr_eq, h.tail_eq, h.begun_le, hlt, h.length_lt, h.slots_eq⟩
  | finish hrunning =>
      have hran := h.ran_le
      unfold ran at hran
      rw [if_pos hrunning] at hran
      refine ⟨h.head_eq, ?_, h.tail_eq, ?_, hran, h.length_lt, h.slots_eq⟩
      · show toInt32 (s.q.curr + 1) = _
        rw [h.curr_eq]
        exact toInt32_succ _
      · exact hbegun.trans (Nat.le_succ _)

end RingSteps

end QueueSystem

end PureDataPacket
