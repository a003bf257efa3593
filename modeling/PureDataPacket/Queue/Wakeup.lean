/-
# `PureDataPacket.Queue.Wakeup` — the mutex and its two conditions

The tests of the queue are made without the mutex and with it, and the counters are
changed without it.  Here every test, every change and every call of the thread library
is a step, and both threads are at some point of their code.  A wait on a condition
releases the mutex and takes it again when it ends; it may end at any time.  A signal
ends the wait of the other thread, if it is waiting, and is lost otherwise.

No wake-up is lost as long as the counters are less than a ring apart.

| | |
| :-- | :-- |
| `NoneLost` | no thread waits for what has happened |
| `Valid.exclusive` | not both threads have the mutex |
| `Valid.idle` | without a signal on its way, a worker that waits has nothing to do |
| `Valid.working` | a Pd thread that waits without a signal on its way has something to wait for |
-/
import PureDataPacket.Queue.Reentry

namespace PureDataPacket

inductive Thread where
  | pd
  | worker
deriving DecidableEq

/-- Where the Pd thread is. -/
inductive PdAt where
  /-- not in code that locks, or at the beginning of `pdp_procqueue_wait` -/
  | free
  /-- `pdp_procqueue_signal_processor`, before the mutex is locked -/
  | signalLock
  /-- before `cond_dataready` is signalled -/
  | signal
  | signalUnlock
  /-- `pdp_procqueue_wait`, at its test -/
  | test
  /-- the test was true, before the wait for `cond_processingdone` -/
  | call
  /-- in the wait, without the mutex -/
  | waiting
  /-- the wait has ended, before the mutex is locked -/
  | woken
  /-- the test was false -/
  | unlock
deriving DecidableEq

/-- Where the worker is. -/
inductive QueueWorkerAt where
  /-- `pdp_procqueue_wait_for_feeder`, at the test without the mutex -/
  | test
  /-- there was nothing to do, before the mutex is locked -/
  | lock
  /-- before `cond_processingdone` is signalled -/
  | signal
  /-- at the test with the mutex -/
  | again
  /-- the test was true, before the wait for `cond_dataready` -/
  | call
  /-- in the wait, without the mutex -/
  | waiting
  /-- the wait has ended, before the mutex is locked -/
  | woken
  /-- the test was false -/
  | unlock
  /-- there is something to do -/
  | ready
  /-- in the process method -/
  | processing
deriving DecidableEq

/-- The Pd thread has the mutex. -/
def PdAt.holds (at' : PdAt) : Bool :=
  at' = .signal ∨ at' = .signalUnlock ∨ at' = .test ∨ at' = .call ∨ at' = .unlock

/-- The Pd thread is in `pdp_procqueue_wait`. -/
def PdAt.waits (at' : PdAt) : Bool :=
  at' = .test ∨ at' = .call ∨ at' = .waiting ∨ at' = .woken ∨ at' = .unlock

def QueueWorkerAt.holds (at' : QueueWorkerAt) : Bool :=
  at' = .signal ∨ at' = .again ∨ at' = .call ∨ at' = .unlock

/-- The worker has found something to do. -/
def QueueWorkerAt.busy (at' : QueueWorkerAt) : Bool :=
  at' = .unlock ∨ at' = .ready ∨ at' = .processing

/-- The queue, the mutex and both threads. -/
structure Wakeup where
  queue : NestedQueue
  mutex : Option Thread
  pd : PdAt
  worker : QueueWorkerAt

namespace Wakeup

/-- `pdp_procqueue_init`. -/
def init : Wakeup := ⟨NestedQueue.init, none, .free, .test⟩

/-- The Pd thread adds a task to the ring. -/
def queues (k : Nat) (s : Wakeup) : Bool := s.queue.q.useThread && !pdpProcqueueFull k s.queue.q

/-- The worker calls the process method of the task at `curr`. -/
def process (k : Nat) (s : NestedQueue) : NestedQueue :=
  { s with
    running := true
    processed :=
      if (s.currItem k).process then s.processed ++ [(s.currItem k).id] else s.processed }

/-- `q->curr++`. -/
def processReturn (s : NestedQueue) : NestedQueue :=
  { s with
    running := false
    q := { s.q with curr := toInt32 (s.q.curr + 1) }
    curr := s.curr + 1 }

/-- One step of either thread. -/
inductive Act where
  /-- the Pd thread, outside of the code that locks -/
  | pd (a : NestedQueue.Act)
  | pdSync
  | worker

/-- What is neither a step of the worker nor one that adds a task. -/
def Plain (a : NestedQueue.Act) : Prop :=
  a ≠ .process ∧ a ≠ .processReturn ∧ ∀ item, a ≠ .add item

/-- One step of either thread, on a ring of `2 ^ k` slots. -/
inductive Step (k : Nat) : Wakeup → Act → Wakeup → Prop
  | add {s : Wakeup} (item : QueueItem) (hpd : s.pd = .free) (hcall : s.queue.MayCall) :
      Step k s (.pd (.add item)) { s with
        queue := s.queue.add k item
        pd := if s.queues k then .signalLock else .free }
  | pd {s : Wakeup} {a : NestedQueue.Act} {queue : NestedQueue} (hpd : s.pd = .free)
      (hplain : Plain a) (hwait : s.queue.stack.head? ≠ some .wait)
      (h : NestedQueue.Step k s.queue a queue) : Step k s (.pd a) { s with queue := queue }
  | signalLock {s : Wakeup} (hpd : s.pd = .signalLock) (hmut : s.mutex = none) :
      Step k s .pdSync { s with mutex := some .pd, pd := .signal }
  | signal {s : Wakeup} (hpd : s.pd = .signal) :
      Step k s .pdSync { s with
        pd := .signalUnlock
        worker := if s.worker = .waiting then .woken else s.worker }
  | signalUnlock {s : Wakeup} (hpd : s.pd = .signalUnlock) :
      Step k s .pdSync { s with mutex := none, pd := .free }
  | waitLock {s : Wakeup} (hpd : s.pd = .free) (hwait : s.queue.stack.head? = some .wait)
      (hmut : s.mutex = none) : Step k s .pdSync { s with mutex := some .pd, pd := .test }
  | waitTest {s : Wakeup} (hpd : s.pd = .test) :
      Step k s .pdSync { s with pd := if hasData k s.queue.q then .call else .unlock }
  | waitCall {s : Wakeup} (hpd : s.pd = .call) :
      Step k s .pdSync { s with mutex := none, pd := .waiting }
  | waitEnd {s : Wakeup} (hpd : s.pd = .waiting) : Step k s .pdSync { s with pd := .woken }
  | waitRelock {s : Wakeup} (hpd : s.pd = .woken) (hmut : s.mutex = none) :
      Step k s .pdSync { s with mutex := some .pd, pd := .test }
  | waitUnlock {s : Wakeup} (hpd : s.pd = .unlock) :
      Step k s .pdSync { s with
        queue := { s.queue with stack := s.queue.stack.tail }
        mutex := none
        pd := .free }
  | workerTest {s : Wakeup} (hworker : s.worker = .test) :
      Step k s .worker { s with worker := if hasData k s.queue.q then .ready else .lock }
  | workerLock {s : Wakeup} (hworker : s.worker = .lock) (hmut : s.mutex = none) :
      Step k s .worker { s with mutex := some .worker, worker := .signal }
  | workerSignal {s : Wakeup} (hworker : s.worker = .signal) :
      Step k s .worker { s with
        pd := if s.pd = .waiting then .woken else s.pd
        worker := .again }
  | workerAgain {s : Wakeup} (hworker : s.worker = .again) :
      Step k s .worker { s with worker := if hasData k s.queue.q then .unlock else .call }
  | workerCall {s : Wakeup} (hworker : s.worker = .call) :
      Step k s .worker { s with mutex := none, worker := .waiting }
  | workerEnd {s : Wakeup} (hworker : s.worker = .waiting) :
      Step k s .worker { s with worker := .woken }
  | workerRelock {s : Wakeup} (hworker : s.worker = .woken) (hmut : s.mutex = none) :
      Step k s .worker { s with mutex := some .worker, worker := .again }
  | workerUnlock {s : Wakeup} (hworker : s.worker = .unlock) :
      Step k s .worker { s with mutex := none, worker := .ready }
  | process {s : Wakeup} (hworker : s.worker = .ready) :
      Step k s .worker { s with queue := process k s.queue, worker := .processing }
  | processReturn {s : Wakeup} (hworker : s.worker = .processing) :
      Step k s .worker { s with queue := processReturn s.queue, worker := .test }

/-- The states of runs whose steps all meet a condition. -/
inductive Run (k : Nat) (ok : Wakeup → Act → Prop) : Wakeup → Prop
  | init : Run k ok init
  | step {s s' : Wakeup} {a : Act} (hs : Run k ok s) (ha : ok s a) (h : Step k s a s') :
      Run k ok s'

/-- No callback loop is entered from a callback of a callback loop. -/
def NoReentry (s : Wakeup) (a : Act) : Prop := ∀ b, a = .pd b → s.queue.NoReentry b

/-- No thread waits for what has happened. -/
structure NoneLost (s : Wakeup) : Prop where
  /-- the worker waits while there is something to do: the signal is on its way -/
  dataReady : s.worker = .waiting → s.queue.q.head ≠ s.queue.q.curr →
    s.pd = .signalLock ∨ s.pd = .signal
  /-- not both threads wait -/
  processingDone : ¬ (s.pd = .waiting ∧ s.queue.q.curr = s.queue.q.head ∧ s.worker = .waiting)

/-! ## The invariant -/

/-- What holds of every state. -/
structure Valid (k : Nat) (s : Wakeup) : Prop where
  queue : NestedQueue.Run k NestedQueue.NoReentry s.queue
  pdMutex : s.mutex = some .pd ↔ s.pd.holds = true
  workerMutex : s.mutex = some .worker ↔ s.worker.holds = true
  running : s.queue.running = true ↔ s.worker = .processing
  waits : s.pd.waits = true → s.queue.stack.head? = some .wait
  /-- what the worker has found stays there -/
  busy : s.worker.busy = true → s.queue.curr < s.queue.tasks.length
  /-- what the Pd thread has found stays so -/
  done : s.pd = .unlock → ¬ s.queue.curr < s.queue.tasks.length
  /-- the worker waits for a signal that is on its way -/
  dataReady : s.worker = .call ∨ s.worker = .waiting → s.queue.curr < s.queue.tasks.length →
    s.pd = .signalLock ∨ s.pd = .signal
  /-- the Pd thread waits for a signal that the worker is going to send -/
  processingDone : s.pd = .call ∨ s.pd = .waiting → ¬ s.queue.curr < s.queue.tasks.length →
    s.worker = .test ∨ s.worker = .lock ∨ s.worker = .signal

theorem Valid.init (k : Nat) : Valid k init where
  queue := .init
  pdMutex := by decide
  workerMutex := by decide
  running := by decide
  waits := fun h => by cases h
  busy := fun h => by cases h
  done := fun h => by cases h
  dataReady := fun h => by rcases h with h | h <;> cases h
  processingDone := fun h => by rcases h with h | h <;> cases h

section Steps

variable {k : Nat} {s s' : Wakeup}

/-- What the Pd thread does outside of *add* leaves alone what the worker sees. -/
theorem plain_spec {queue queue' : NestedQueue} {a : NestedQueue.Act} (ha : Plain a)
    (h : NestedQueue.Step k queue a queue') : queue'.curr = queue.curr ∧
      queue'.tasks = queue.tasks ∧ queue'.running = queue.running := by
  cases h with
  | add item hcall => exact absurd rfl (ha.2.2 item)
  | process hidle hdata => exact absurd rfl ha.1
  | processReturn hrunning => exact absurd rfl ha.2.1
  | wait hcall => exact ⟨rfl, rfl, rfl⟩
  | finishNone hcall => exact ⟨rfl, rfl, rfl⟩
  | finish indx hcall hindx => exact ⟨rfl, rfl, rfl⟩
  | flush hcall => exact ⟨rfl, rfl, rfl⟩
  | useThreadOn hcall => exact ⟨rfl, rfl, rfl⟩
  | useThreadOff hcall => exact ⟨rfl, rfl, rfl⟩
  | tick hstack hthread => exact ⟨rfl, rfl, rfl⟩
  | methodReturn hstack => exact ⟨rfl, rfl, rfl⟩
  | advance hstack => exact ⟨rfl, rfl, rfl⟩
  | loopCall hstack hdata => exact ⟨rfl, rfl, rfl⟩
  | loopEnd hstack hdata => exact ⟨rfl, rfl, rfl⟩
  | waited hstack hdata => exact ⟨rfl, rfl, rfl⟩
  | flushAgain hstack hdata => exact ⟨rfl, rfl, rfl⟩
  | flushReturn hstack hdata => exact ⟨rfl, rfl, rfl⟩
  | strike hstack => exact ⟨rfl, rfl, rfl⟩
  | disable hstack => exact ⟨rfl, rfl, rfl⟩

theorem Valid.hasData_iff (h : Valid k s) (hk : 1 ≤ k) (hk' : k ≤ 32) :
    hasData k s.queue.q = true ↔ s.queue.curr < s.queue.tasks.length :=
  (h.queue.valid hk hk').hasData_iff hk'

theorem Valid.exclusive (h : Valid k s) (hpd : s.pd.holds = true) : s.worker.holds = false := by
  rw [← Bool.not_eq_true, ← h.workerMutex, h.pdMutex.mpr hpd]
  exact fun he => by cases he

theorem Valid.pd_free (h : Valid k s) (hworker : s.worker.holds = true) : s.pd.holds = false := by
  rw [← Bool.not_eq_true, ← h.pdMutex, h.workerMutex.mpr hworker]
  exact fun he => by cases he

theorem Valid.free (h : Valid k s) (hmutex : s.mutex = none) :
    s.pd.holds = false ∧ s.worker.holds = false := by
  rw [← Bool.not_eq_true, ← Bool.not_eq_true, ← h.pdMutex, ← h.workerMutex, hmutex]
  exact ⟨fun he => (by cases he), fun he => (by cases he)⟩

theorem Valid.add (h : Valid k s) (item : QueueItem)
    (hpd : s.pd = .free) (hcall : s.queue.MayCall) : Valid k { s with
      queue := s.queue.add k item
      pd := if s.queues k then .signalLock else .free } := by
  have hqueue : NestedQueue.Run k NestedQueue.NoReentry (s.queue.add k item) :=
    h.queue.step (fun ha => by rcases ha with ha | ha <;> cases ha) (.add item hcall)
  have hmutex := h.pdMutex
  rw [hpd] at hmutex
  rcases NestedQueue.queued_or_skipped k s.queue.q with ⟨hthread, hfull⟩ | hskip
  · have hqueues : s.queues k = true := by
      unfold queues
      rw [hthread, hfull]
      rfl
    have hadd := NestedQueue.add_queued s.queue item hthread hfull
    have hrunning : (s.queue.add k item).running = s.queue.running := by rw [hadd]
    have hcurr : (s.queue.add k item).curr = s.queue.curr := by rw [hadd]
    have htasks : (s.queue.add k item).tasks.length = s.queue.tasks.length + 1 := by
      rw [hadd]
      simp
    refine ⟨hqueue, ?_, h.workerMutex, ?_, ?_, fun hbusy => ?_, ?_, fun _ _ => ?_, ?_⟩
    · rw [if_pos hqueues]
      exact hmutex
    · rw [hrunning]
      exact h.running
    · rw [if_pos hqueues]
      exact fun he => by cases he
    · have := h.busy hbusy
      show (s.queue.add k item).curr < (s.queue.add k item).tasks.length
      omega
    · rw [if_pos hqueues]
      exact fun he => by cases he
    · exact .inl (if_pos hqueues)
    · rw [if_pos hqueues]
      exact fun he => by rcases he with he | he <;> cases he
  · have hqueues : ¬ s.queues k = true := by
      unfold queues
      rcases hskip with hoff | hfull
      · rw [hoff]
        exact Bool.false_ne_true
      · rw [hfull, Bool.not_true, Bool.and_false]
        exact Bool.false_ne_true
    obtain ⟨mode, hadd⟩ := NestedQueue.add_skipped s.queue item hskip
    have hdata := h.dataReady
    rw [hpd] at hdata
    rw [hadd] at hqueue ⊢
    rw [if_neg hqueues]
    exact ⟨hqueue, hmutex, h.workerMutex, h.running, fun he => (by cases he), h.busy,
      fun he => (by cases he), hdata, fun he => (by rcases he with he | he <;> cases he)⟩

theorem Valid.idle (h : Valid k s) (hpd : s.pd ≠ .signalLock) (hpd' : s.pd ≠ .signal)
    (hworker : s.worker = .call ∨ s.worker = .waiting) :
    ¬ s.queue.curr < s.queue.tasks.length :=
  fun hdata => (h.dataReady hworker hdata).elim hpd hpd'

/-- A Pd thread that waits has something to wait for, unless the worker is going to signal. -/
theorem Valid.working (h : Valid k s) (htest : s.worker ≠ .test) (hlock : s.worker ≠ .lock)
    (hsignal : s.worker ≠ .signal) (hpd : s.pd = .call ∨ s.pd = .waiting) :
    s.queue.curr < s.queue.tasks.length :=
  Decidable.byContradiction fun hnone =>
    (h.processingDone hpd hnone).elim htest fun hrest => hrest.elim hlock hsignal

/-- A step of the Pd thread that changes neither the queue nor the worker. -/
theorem Valid.pdStep (h : Valid k s) (mutex : Option Thread) (pd : PdAt)
    (hpdMutex : mutex = some .pd ↔ pd.holds = true)
    (hworkerMutex : mutex = some .worker ↔ s.worker.holds = true)
    (hwaits : pd.waits = true → s.queue.stack.head? = some .wait)
    (hdone : pd = .unlock → ¬ s.queue.curr < s.queue.tasks.length)
    (hdata : s.worker = .call ∨ s.worker = .waiting → s.queue.curr < s.queue.tasks.length →
      pd = .signalLock ∨ pd = .signal)
    (hprocessing : pd = .call ∨ pd = .waiting → ¬ s.queue.curr < s.queue.tasks.length →
      s.worker = .test ∨ s.worker = .lock ∨ s.worker = .signal) :
    Valid k { s with mutex := mutex, pd := pd } :=
  ⟨h.queue, hpdMutex, hworkerMutex, h.running, hwaits, h.busy, hdone, hdata, hprocessing⟩

theorem Valid.pdLock (h : Valid k s) (hmutex : s.mutex = none) (pd : PdAt)
    (hholds : pd.holds = true) (hwaits : pd.waits = true → s.queue.stack.head? = some .wait)
    (hunlock : pd ≠ .unlock) (hcall : pd ≠ .call)
    (hdata : s.worker = .call ∨ s.worker = .waiting → s.queue.curr < s.queue.tasks.length →
      pd = .signalLock ∨ pd = .signal) :
    Valid k { s with mutex := some .pd, pd := pd } := by
  refine h.pdStep _ _ (iff_of_true rfl hholds) (iff_of_false (fun he => by cases he) ?_) hwaits
    (fun he => absurd he hunlock) hdata fun he => ?_
  · rw [(h.free hmutex).2]
    exact Bool.false_ne_true
  · rcases he with he | he
    · exact absurd he hcall
    · rw [he] at hholds
      cases hholds

theorem Valid.pdRelease (h : Valid k s) (hholds : s.pd.holds = true) (pd : PdAt)
    (hnot : pd.holds = false) (hwaits : pd.waits = true → s.queue.stack.head? = some .wait)
    (hdata : s.worker = .call ∨ s.worker = .waiting → s.queue.curr < s.queue.tasks.length →
      pd = .signalLock ∨ pd = .signal)
    (hprocessing : pd = .call ∨ pd = .waiting → ¬ s.queue.curr < s.queue.tasks.length →
      s.worker = .test ∨ s.worker = .lock ∨ s.worker = .signal) :
    Valid k { s with mutex := none, pd := pd } := by
  refine h.pdStep _ _ (iff_of_false (fun he => by cases he) ?_)
    (iff_of_false (fun he => by cases he) ?_) hwaits (fun he => ?_) hdata hprocessing
  · rw [hnot]
    exact Bool.false_ne_true
  · rw [h.exclusive hholds]
    exact Bool.false_ne_true
  · rw [he] at hnot
    cases hnot

/-- A step of the worker that changes neither the queue nor the Pd thread. -/
theorem Valid.workerStep (h : Valid k s) (mutex : Option Thread) (worker : QueueWorkerAt)
    (hpdMutex : mutex = some .pd ↔ s.pd.holds = true)
    (hworkerMutex : mutex = some .worker ↔ worker.holds = true)
    (hidle : s.worker ≠ .processing) (hnot : worker ≠ .processing)
    (hbusy : worker.busy = true → s.queue.curr < s.queue.tasks.length)
    (hdata : worker = .call ∨ worker = .waiting → s.queue.curr < s.queue.tasks.length →
      s.pd = .signalLock ∨ s.pd = .signal)
    (hprocessing : s.pd = .call ∨ s.pd = .waiting → ¬ s.queue.curr < s.queue.tasks.length →
      worker = .test ∨ worker = .lock ∨ worker = .signal) :
    Valid k { s with mutex := mutex, worker := worker } :=
  ⟨h.queue, hpdMutex, hworkerMutex, iff_of_false (fun he => hidle (h.running.mp he)) hnot, h.waits,
    hbusy, h.done, hdata, hprocessing⟩

theorem Valid.workerLock (h : Valid k s) (hmutex : s.mutex = none) (worker : QueueWorkerAt)
    (hidle : s.worker ≠ .processing) (hworker : worker = .signal ∨ worker = .again)
    (hprocessing : s.pd = .call ∨ s.pd = .waiting → ¬ s.queue.curr < s.queue.tasks.length →
      worker = .test ∨ worker = .lock ∨ worker = .signal) :
    Valid k { s with mutex := some .worker, worker := worker } := by
  refine h.workerStep _ _ (iff_of_false (fun he => by cases he) ?_) (iff_of_true rfl ?_) hidle ?_
    (fun he => ?_) (fun he => ?_) hprocessing
  · rw [(h.free hmutex).1]
    exact Bool.false_ne_true
  · rcases hworker with rfl | rfl <;> rfl
  · rcases hworker with rfl | rfl <;> decide
  · rcases hworker with rfl | rfl <;> cases he
  · rcases hworker with rfl | rfl <;> rcases he with he | he <;> cases he

theorem Valid.workerRelease (h : Valid k s) (hholds : s.worker.holds = true)
    (worker : QueueWorkerAt) (hnot : worker.holds = false) (hidle : s.worker ≠ .processing)
    (hprocess : worker ≠ .processing)
    (hbusy : worker.busy = true → s.queue.curr < s.queue.tasks.length)
    (hdata : worker = .call ∨ worker = .waiting → s.queue.curr < s.queue.tasks.length →
      s.pd = .signalLock ∨ s.pd = .signal)
    (hprocessing : s.pd = .call ∨ s.pd = .waiting → ¬ s.queue.curr < s.queue.tasks.length →
      worker = .test ∨ worker = .lock ∨ worker = .signal) :
    Valid k { s with mutex := none, worker := worker } := by
  refine h.workerStep _ _ (iff_of_false (fun he => by cases he) ?_)
    (iff_of_false (fun he => by cases he) ?_) hidle hprocess hbusy hdata hprocessing
  · rw [h.pd_free hholds]
    exact Bool.false_ne_true
  · rw [hnot]
    exact Bool.false_ne_true

theorem Valid.plain (h : Valid k s) {a : NestedQueue.Act} {queue : NestedQueue}
    (ha : s.queue.NoReentry a) (hpd : s.pd = .free) (hplain : Plain a)
    (hstep : NestedQueue.Step k s.queue a queue) :
    Valid k { s with queue := queue } := by
  have hpdMutex := h.pdMutex
  have hworkerMutex := h.workerMutex
  have hdataReady := h.dataReady
  have hprocessingDone := h.processingDone
  obtain ⟨hcurr, htasks, hrunning⟩ := plain_spec hplain hstep
  refine ⟨h.queue.step ha hstep, hpdMutex, hworkerMutex, ?_, ?_, ?_, ?_, ?_, ?_⟩
  · rw [hrunning]
    exact h.running
  · rw [hpd]
    exact fun he => by cases he
  · rw [hcurr, htasks]
    exact h.busy
  · rw [hcurr, htasks]
    exact h.done
  · rw [hcurr, htasks]
    exact hdataReady
  · rw [hcurr, htasks]
    exact hprocessingDone

theorem Valid.signalled (h : Valid k s) (hpd : s.pd = .signal) :
    Valid k { s with
      pd := .signalUnlock
      worker := if s.worker = .waiting then .woken else s.worker } := by
  have hpdMutex := h.pdMutex
  have hworkerMutex := h.workerMutex
  have hfree := h.exclusive (by rw [hpd]; rfl)
  rw [hpd] at hpdMutex
  -- the worker waits no more
  by_cases hwaiting : s.worker = .waiting
  · rw [hwaiting] at hworkerMutex
    rw [if_pos hwaiting]
    refine ⟨h.queue, hpdMutex, hworkerMutex, ?_, fun he => (by cases he),
      fun he => (by cases he), fun he => (by cases he),
      fun he => (by rcases he with he | he <;> cases he),
      fun he => (by rcases he with he | he <;> cases he)⟩
    exact iff_of_false (fun he => by rw [h.running.mp he] at hwaiting; cases hwaiting)
      (fun he => by cases he)
  · rw [if_neg hwaiting]
    refine ⟨h.queue, hpdMutex, hworkerMutex, h.running, fun he => (by cases he), h.busy,
      fun he => (by cases he), fun he => ?_, fun he => (by rcases he with he | he <;> cases he)⟩
    rcases he with he | he
    · rw [show s.worker = .call from he] at hfree
      cases hfree
    · exact absurd he hwaiting

theorem Valid.waitTested (h : Valid k s) (hk : 1 ≤ k) (hk' : k ≤ 32) (hpd : s.pd = .test) :
    Valid k { s with pd := if hasData k s.queue.q then .call else .unlock } := by
  have hpdMutex := h.pdMutex
  have hworkerMutex := h.workerMutex
  have hidle := h.idle (by rw [hpd]; decide) (by rw [hpd]; decide)
  have hwait := h.waits (by rw [hpd]; rfl)
  rw [hpd] at hpdMutex
  by_cases hdata : hasData k s.queue.q = true
  · have hlt := (h.hasData_iff hk hk').mp hdata
    rw [if_pos hdata]
    exact h.pdStep s.mutex .call hpdMutex hworkerMutex (fun _ => hwait) (fun he => by cases he)
      (fun he hdata => absurd hdata (hidle he)) fun _ hnone => absurd hlt hnone
  · have hnone := mt (h.hasData_iff hk hk').mpr hdata
    rw [if_neg hdata]
    exact h.pdStep s.mutex .unlock hpdMutex hworkerMutex (fun _ => hwait) (fun _ => hnone)
      (fun he hdata => absurd hdata (hidle he)) fun he => by rcases he with he | he <;> cases he

theorem Valid.waitEnded (h : Valid k s) (hk : 1 ≤ k) (hk' : k ≤ 32) (hpd : s.pd = .unlock) :
    Valid k { s with
      queue := { s.queue with stack := s.queue.stack.tail }
      mutex := none
      pd := .free } := by
  have hidle := h.idle (by rw [hpd]; decide) (by rw [hpd]; decide)
  have hrelease := h.pdRelease (by rw [hpd]; rfl) .free rfl (fun he => by cases he)
    (fun he hdata => absurd hdata (hidle he)) fun he => by rcases he with he | he <;> cases he
  -- the loop of `pdp_procqueue_wait` ends
  have hnone : hasData k s.queue.q = false := by
    rw [← Bool.not_eq_true, h.hasData_iff hk hk']
    exact h.done hpd
  have hstack : s.queue.stack = .wait :: s.queue.stack.tail :=
    List.eq_cons_of_mem_head? (h.waits (by rw [hpd]; rfl))
  exact ⟨h.queue.step (fun ha => by rcases ha with ha | ha <;> cases ha) (.waited hstack hnone),
    hrelease.pdMutex, hrelease.workerMutex, h.running, fun he => (by cases he), h.busy,
    fun he => (by cases he), hrelease.dataReady, hrelease.processingDone⟩

theorem Valid.workerTested (h : Valid k s) (hk : 1 ≤ k) (hk' : k ≤ 32)
    (hworker : s.worker = .test) :
    Valid k { s with worker := if hasData k s.queue.q then .ready else .lock } := by
  have hpdMutex := h.pdMutex
  have hworkerMutex := h.workerMutex
  have hidle : s.worker ≠ .processing := by rw [hworker]; decide
  rw [hworker] at hworkerMutex
  by_cases hdata : hasData k s.queue.q = true
  · have hlt := (h.hasData_iff hk hk').mp hdata
    rw [if_pos hdata]
    exact h.workerStep s.mutex .ready hpdMutex hworkerMutex hidle (by decide) (fun _ => hlt)
      (fun he => by rcases he with he | he <;> cases he) fun _ hnone => absurd hlt hnone
  · rw [if_neg hdata]
    exact h.workerStep s.mutex .lock hpdMutex hworkerMutex hidle (by decide)
      (fun he => by cases he) (fun he => by rcases he with he | he <;> cases he)
      fun _ _ => .inr (.inl rfl)

theorem Valid.workerSignalled (h : Valid k s) (hworker : s.worker = .signal) :
    Valid k { s with
      pd := if s.pd = .waiting then .woken else s.pd
      worker := .again } := by
  have hpdMutex := h.pdMutex
  have hworkerMutex := h.workerMutex
  have hfree := h.pd_free (by rw [hworker]; rfl)
  have hwaits := h.waits
  rw [hworker] at hworkerMutex
  -- the Pd thread waits no more
  by_cases hwaiting : s.pd = .waiting
  · rw [hwaiting] at hpdMutex hwaits
    rw [if_pos hwaiting]
    exact ⟨h.queue, hpdMutex, hworkerMutex, iff_of_false (fun he => by
        rw [h.running.mp he] at hworker; cases hworker) (fun he => by cases he),
      fun _ => hwaits rfl,
      fun he => (by cases he), fun he => (by cases he),
      fun he => (by rcases he with he | he <;> cases he),
      fun he => (by rcases he with he | he <;> cases he)⟩
  · rw [if_neg hwaiting]
    refine h.workerStep s.mutex .again hpdMutex hworkerMutex (by rw [hworker]; decide)
      (by decide) (fun he => by cases he)
      (fun he => by rcases he with he | he <;> cases he) fun he => ?_
    rcases he with he | he
    · rw [he] at hfree
      cases hfree
    · exact absurd he hwaiting

theorem Valid.workerTestedAgain (h : Valid k s) (hk : 1 ≤ k) (hk' : k ≤ 32)
    (hworker : s.worker = .again) :
    Valid k { s with worker := if hasData k s.queue.q then .unlock else .call } := by
  have hpdMutex := h.pdMutex
  have hworkerMutex := h.workerMutex
  have hidle : s.worker ≠ .processing := by rw [hworker]; decide
  have hworking := h.working (by rw [hworker]; decide) (by rw [hworker]; decide)
    (by rw [hworker]; decide)
  rw [hworker] at hworkerMutex
  by_cases hdata : hasData k s.queue.q = true
  · have hlt := (h.hasData_iff hk hk').mp hdata
    rw [if_pos hdata]
    exact h.workerStep s.mutex .unlock hpdMutex hworkerMutex hidle (by decide) (fun _ => hlt)
      (fun he => by rcases he with he | he <;> cases he) fun _ hnone => absurd hlt hnone
  · have hnone := mt (h.hasData_iff hk hk').mpr hdata
    rw [if_neg hdata]
    exact h.workerStep s.mutex .call hpdMutex hworkerMutex hidle (by decide)
      (fun he => by cases he) (fun _ hdata => absurd hdata hnone)
      fun he _ => absurd (hworking he) hnone

theorem Valid.processed (h : Valid k s) (hk : 1 ≤ k) (hk' : k ≤ 32)
    (hworker : s.worker = .ready) :
    Valid k { s with queue := process k s.queue, worker := .processing } := by
  have hpdMutex := h.pdMutex
  have hworkerMutex := h.workerMutex
  have hlt := h.busy (by rw [hworker]; rfl)
  have hidle : s.queue.running = false := by
    rw [← Bool.not_eq_true, h.running, hworker]
    decide
  rw [hworker] at hworkerMutex
  exact ⟨h.queue.step (fun ha => by rcases ha with ha | ha <;> cases ha)
      (.process hidle ((h.hasData_iff hk hk').mpr hlt)), hpdMutex, hworkerMutex,
    iff_of_true rfl rfl, h.waits, fun _ => hlt, h.done,
    fun he => (by rcases he with he | he <;> cases he), fun _ hnone => absurd hlt hnone⟩

theorem Valid.processReturned (h : Valid k s) (hworker : s.worker = .processing) :
    Valid k { s with queue := processReturn s.queue, worker := .test } := by
  have hpdMutex := h.pdMutex
  have hworkerMutex := h.workerMutex
  have hlt := h.busy (by rw [hworker]; rfl)
  have hrunning := h.running.mpr hworker
  rw [hworker] at hworkerMutex
  exact ⟨h.queue.step (fun ha => by rcases ha with ha | ha <;> cases ha)
      (.processReturn hrunning), hpdMutex, hworkerMutex,
    iff_of_false (fun he => by cases he) (fun he => by cases he), h.waits,
    fun he => (by cases he), fun he => absurd hlt (h.done he),
    fun he => (by rcases he with he | he <;> cases he),
    fun _ _ => .inl rfl⟩

theorem Valid.step (hk : 1 ≤ k) (hk' : k ≤ 32) (h : Valid k s) {a : Act} (ha : NoReentry s a)
    (hstep : Step k s a s') : Valid k s' := by
  have hpdMutex := h.pdMutex
  have hworkerMutex := h.workerMutex
  have hdataReady := h.dataReady
  have hprocessingDone := h.processingDone
  cases hstep with
  | add item hpd hcall => exact h.add item hpd hcall
  | pd hpd hplain hwait hstep => exact h.plain (ha _ rfl) hpd hplain hstep
  | signalLock hpd hmutex =>
      exact h.pdLock hmutex .signal rfl (fun he => by cases he) (by decide) (by decide)
        fun _ _ => .inr rfl
  | signal hpd => exact h.signalled hpd
  | signalUnlock hpd =>
      have hidle := h.idle (by rw [hpd]; decide) (by rw [hpd]; decide)
      exact h.pdRelease (by rw [hpd]; rfl) .free rfl (fun he => by cases he)
        (fun he hdata => absurd hdata (hidle he)) fun he => by rcases he with he | he <;> cases he
  | waitLock hpd hwait hmutex =>
      have hidle := h.idle (by rw [hpd]; decide) (by rw [hpd]; decide)
      exact h.pdLock hmutex .test rfl (fun _ => hwait) (by decide) (by decide)
        fun he hdata => absurd hdata (hidle he)
  | waitTest hpd => exact h.waitTested hk hk' hpd
  | waitCall hpd =>
      have hidle := h.idle (by rw [hpd]; decide) (by rw [hpd]; decide)
      have hwait := h.waits (by rw [hpd]; rfl)
      exact h.pdRelease (by rw [hpd]; rfl) .waiting rfl (fun _ => hwait)
        (fun he hdata => absurd hdata (hidle he)) fun _ hnone => hprocessingDone (.inl hpd) hnone
  | waitEnd hpd =>
      have hidle := h.idle (by rw [hpd]; decide) (by rw [hpd]; decide)
      have hwait := h.waits (by rw [hpd]; rfl)
      rw [hpd] at hpdMutex
      exact h.pdStep s.mutex .woken hpdMutex hworkerMutex (fun _ => hwait) (fun he => by cases he)
        (fun he hdata => absurd hdata (hidle he)) fun he => by rcases he with he | he <;> cases he
  | waitRelock hpd hmutex =>
      have hidle := h.idle (by rw [hpd]; decide) (by rw [hpd]; decide)
      have hwait := h.waits (by rw [hpd]; rfl)
      exact h.pdLock hmutex .test rfl (fun _ => hwait) (by decide) (by decide)
        fun he hdata => absurd hdata (hidle he)
  | waitUnlock hpd => exact h.waitEnded hk hk' hpd
  | workerTest hworker => exact h.workerTested hk hk' hworker
  | workerLock hworker hmutex =>
      exact h.workerLock hmutex .signal (by rw [hworker]; decide) (.inl rfl)
        fun _ _ => .inr (.inr rfl)
  | workerSignal hworker => exact h.workerSignalled hworker
  | workerAgain hworker => exact h.workerTestedAgain hk hk' hworker
  | workerCall hworker =>
      have hworking := h.working (by rw [hworker]; decide) (by rw [hworker]; decide)
        (by rw [hworker]; decide)
      exact h.workerRelease (by rw [hworker]; rfl) .waiting rfl (by rw [hworker]; decide)
        (by decide) (fun he => by cases he) (fun _ hdata => hdataReady (.inl hworker) hdata)
        fun he hnone => absurd (hworking he) hnone
  | workerEnd hworker =>
      have hworking := h.working (by rw [hworker]; decide) (by rw [hworker]; decide)
        (by rw [hworker]; decide)
      rw [hworker] at hworkerMutex
      exact h.workerStep s.mutex .woken hpdMutex hworkerMutex (by rw [hworker]; decide) (by decide)
        (fun he => by cases he) (fun he => by rcases he with he | he <;> cases he)
        fun he hnone => absurd (hworking he) hnone
  | workerRelock hworker hmutex =>
      have hworking := h.working (by rw [hworker]; decide) (by rw [hworker]; decide)
        (by rw [hworker]; decide)
      exact h.workerLock hmutex .again (by rw [hworker]; decide) (.inr rfl)
        fun he hnone => absurd (hworking he) hnone
  | workerUnlock hworker =>
      have hlt := h.busy (by rw [hworker]; rfl)
      exact h.workerRelease (by rw [hworker]; rfl) .ready rfl (by rw [hworker]; decide) (by decide)
        (fun _ => hlt) (fun he => by rcases he with he | he <;> cases he)
        fun _ hnone => absurd hlt hnone
  | process hworker => exact h.processed hk hk' hworker
  | processReturn hworker => exact h.processReturned hworker

theorem Run.valid (hk : 1 ≤ k) (hk' : k ≤ 32) (h : Run k NoReentry s) : Valid k s := by
  induction h with
  | init => exact Valid.init k
  | step _ ha hstep ih => exact ih.step hk hk' ha hstep

/-- No wake-up is lost, as long as no callback loop is entered from a callback of a callback
loop. -/
theorem run_noneLost (hk : 1 ≤ k) (hk' : k ≤ 32) (h : Run k NoReentry s) : NoneLost s := by
  have hs := h.valid hk hk'
  have hqueue := hs.queue.valid hk hk'
  have hle := hqueue.curr_le
  refine ⟨fun hworker hne => hs.dataReady (.inr hworker) ?_, fun ⟨hpd, heq, hworker⟩ => ?_⟩
  · refine Nat.lt_of_le_of_ne hle fun heq => hne ?_
    rw [hqueue.head_eq, hqueue.curr_eq, heq]
  · have hnone : ¬ hasData k s.queue.q = true := by
      unfold hasData
      rw [heq, Int.sub_self]
      simp [masked, toInt32]
    rw [hs.hasData_iff hk hk'] at hnone
    exact hnone (hs.working (by rw [hworker]; decide) (by rw [hworker]; decide)
      (by rw [hworker]; decide) (.inr hpd))

/-! ## A run in which a wake-up is lost -/

theorem Run.addTask {ok : Wakeup → Act → Prop} {queue : NestedQueue} {worker : QueueWorkerAt}
    (hs : Run k ok ⟨queue, none, .free, worker⟩) (hok : ∀ s, ok s .pdSync) (item : QueueItem)
    (ha : ok ⟨queue, none, .free, worker⟩ (.pd (.add item))) (hcall : queue.MayCall)
    (hqueues : queues k ⟨queue, none, .free, worker⟩ = true) :
    Run k ok ⟨queue.add k item, none, .free, if worker = .waiting then .woken else worker⟩ := by
  have hs₁ := hs.step ha (.add item rfl hcall)
  rw [if_pos hqueues] at hs₁
  have hs₂ := hs₁.step (hok _) (.signalLock rfl rfl)
  have hs₃ := hs₂.step (hok _) (.signal rfl)
  exact hs₃.step (hok _) (.signalUnlock rfl)

/-- The Pd thread waits for a worker that has nothing to do. -/
theorem Run.waitDone {ok : Wakeup → Act → Prop} {queue : NestedQueue} {worker : QueueWorkerAt}
    (hs : Run k ok ⟨queue, none, .free, worker⟩) (hok : ∀ s, ok s .pdSync)
    (hwait : queue.stack.head? = some .wait) (hdata : hasData k queue.q = false) :
    Run k ok ⟨{ queue with stack := queue.stack.tail }, none, .free, worker⟩ := by
  have hs₁ := hs.step (hok _) (.waitLock rfl hwait rfl)
  have hs₂ := hs₁.step (hok _) (.waitTest rfl)
  rw [if_neg (by rw [hdata]; exact Bool.false_ne_true)] at hs₂
  exact hs₂.step (hok _) (.waitUnlock rfl)

/-- The worker finds nothing to do, from the test with the mutex on. -/
theorem Run.workerWaits {ok : Wakeup → Act → Prop} {queue : NestedQueue}
    (hs : Run k ok ⟨queue, some .worker, .free, .again⟩) (hok : ∀ s, ok s .worker)
    (hdata : hasData k queue.q = false) : Run k ok ⟨queue, none, .free, .waiting⟩ := by
  have hs₁ := hs.step (hok _) (.workerAgain rfl)
  rw [if_neg (by rw [hdata]; exact Bool.false_ne_true)] at hs₁
  exact hs₁.step (hok _) (.workerCall rfl)

/-- A task is queued and processed, and the worker waits. -/
theorem run_waiting (ok : Wakeup → Act → Prop)
    (hok : ∀ s a, a ≠ .pd .flush → a ≠ .pd (.useThread false) → ok s a) :
    ∃ queue, Run 1 ok ⟨queue, none, .free, .waiting⟩ ∧
      queue = processReturn (process 1 (NestedQueue.init.add 1 NestedQueue.plainTask)) := by
  have hpd : ∀ s, ok s .pdSync := fun s => hok s _ (fun he => by cases he) fun he => by cases he
  have hworker : ∀ s, ok s .worker := fun s =>
    hok s _ (fun he => by cases he) fun he => by cases he
  have hs₁ := (Run.init (k := 1)).addTask hpd NestedQueue.plainTask
    (hok _ _ (fun he => by cases he) fun he => by cases he) (fun f hf => by cases hf) rfl
  have hs₂ := hs₁.step (hworker _) (.workerTest rfl)
  have hs₃ := hs₂.step (hworker _) (.process rfl)
  have hs₄ := hs₃.step (hworker _) (.processReturn rfl)
  have hs₅ := hs₄.step (hworker _) (.workerTest rfl)
  have hs₆ := hs₅.step (hworker _) (.workerLock rfl rfl)
  have hs₇ := hs₆.step (hworker _) (.workerSignal rfl)
  exact ⟨_, hs₇.workerWaits hworker rfl, rfl⟩

theorem run_noneLost_waiting : ∃ s, Run 1 NoReentry s ∧ NoneLost s ∧ s.worker = .waiting := by
  obtain ⟨queue, hs, _⟩ := run_waiting NoReentry fun s a h₁ h₂ b he ha => by
    rcases ha with rfl | rfl
    · exact absurd he h₁
    · exact absurd he h₂
  exact ⟨_, hs, run_noneLost (by decide) (by decide) hs, rfl⟩

/-- A callback flushes the queue and adds a task, and is called once more, as the callback
of a task that it has already been called for, and adds another. -/
theorem wakeup_lost : ¬ ∀ s, Run 1 (fun _ _ => True) s → NoneLost s := by
  intro hall
  obtain ⟨queue, hs, hqueue⟩ := run_waiting (fun _ _ => True) fun _ _ _ _ => trivial
  subst hqueue
  have hplain : Plain .tick ∧ Plain .flush ∧ Plain .goOn ∧ Plain .methodReturn :=
    ⟨⟨fun he => (by cases he), fun he => (by cases he), fun _ he => (by cases he)⟩,
      ⟨fun he => (by cases he), fun he => (by cases he), fun _ he => (by cases he)⟩,
      ⟨fun he => (by cases he), fun he => (by cases he), fun _ he => (by cases he)⟩,
      ⟨fun he => (by cases he), fun he => (by cases he), fun _ he => (by cases he)⟩⟩
  obtain ⟨htick, hflush, hgoOn, hreturn⟩ := hplain
  have hs₁ := hs.step trivial (.pd rfl htick (by decide) (.tick rfl rfl))
  have hs₂ := hs₁.step trivial (.pd rfl hgoOn (by decide) (.loopCall rfl rfl))
  -- the callback flushes the queue
  have hs₃ := hs₂.step trivial (.pd rfl hflush (by decide)
    (.flush fun f hf => (Option.some.inj hf).symm))
  have hs₄ := hs₃.waitDone (fun _ => trivial) rfl rfl
  have hs₅ := hs₄.step trivial (.pd rfl hgoOn (by decide) (.loopCall rfl rfl))
  have hs₆ := hs₅.step trivial (.pd rfl hreturn (by decide) (.methodReturn rfl))
  have hs₇ := hs₆.step trivial (.pd rfl hgoOn (by decide) (.advance rfl))
  have hs₈ := hs₇.step trivial (.pd rfl hgoOn (by decide) (.loopEnd rfl rfl))
  have hs₉ := hs₈.waitDone (fun _ => trivial) rfl rfl
  have hs₁₀ := hs₉.step trivial (.pd rfl hgoOn (by decide) (.flushReturn rfl rfl))
  -- it adds a task, and the loop goes on
  have hs₁₁ := hs₁₀.addTask (fun _ => trivial) NestedQueue.plainTask trivial
    (fun f hf => (Option.some.inj hf).symm) rfl
  have hs₁₂ := hs₁₁.step trivial (.pd rfl hreturn (by decide) (.methodReturn rfl))
  have hs₁₃ := hs₁₂.step trivial (.pd rfl hgoOn (by decide) (.advance rfl))
  have hs₁₄ := hs₁₃.step trivial (.pd rfl hgoOn (by decide) (.loopCall rfl rfl))
  have hs₁₅ := hs₁₄.addTask (fun _ => trivial) NestedQueue.plainTask trivial
    (fun f hf => (Option.some.inj hf).symm) rfl
  -- the worker comes to its test
  have hs₁₆ := hs₁₅.step trivial (.workerRelock rfl rfl)
  have hs₁₇ := hs₁₆.workerWaits (fun _ => trivial) rfl
  rcases (hall _ hs₁₇).dataReady rfl (by decide) with he | he <;> cases he

end Steps

end Wakeup

end PureDataPacket
