/-
# `PureDataPacket.Queue.ProcQueue` — the process queue

The Pd thread adds tasks to a ring, the worker calls their process methods, and
a clock of the Pd thread calls their callbacks.  `head`, `curr` and `tail` only
ever go up, as `int`s, and are masked into the ring of `2 ^ k` slots.

`Step` is one step of either thread.  A callback runs for as long as the Pd thread
likes, and may add tasks; so may a callback that `pdp_procqueue_add` calls itself.
Beside the queue itself the state has what no code reads: which tasks were added,
which of them went through the ring, and a log of all calls.
-/
import PureDataPacket.Lib.CInt
import Mathlib.Logic.Function.Basic

namespace PureDataPacket

/-- `t_process_queue_item`, with what can be null of it.  `id` says which call of
`pdp_procqueue_add` it is from. -/
structure QueueItem where
  id : Nat
  process : Bool
  callback : Bool
  queueId : Option Nat
deriving DecidableEq

/-- `t_pdp_procqueue`. -/
structure ProcQueue where
  slots : Nat → QueueItem
  head : Int
  tail : Int
  curr : Int
  useThread : Bool

/-- What `pdp_procqueue_add` does with a task. -/
inductive Mode where
  /-- the thread is not used: both methods are called -/
  | direct
  /-- the queue is full: the callback is called -/
  | full
  | queued
deriving DecidableEq

section Queue

variable (k : Nat)

/-- `n & mask`, for an `int` and a mask of `k` bits. -/
def masked (n : Int) : Int := n % 2 ^ k

def slotOf (n : Int) : Nat := (masked k n).toNat

/-- `pdp_procqueue_full`. -/
def pdpProcqueueFull (q : ProcQueue) : Bool := masked k (toInt32 (q.tail - q.head)) = 1

/-- The worker has something to do. -/
def hasData (q : ProcQueue) : Bool := masked k (toInt32 (q.curr - q.head)) ≠ 0

def hasFinished (q : ProcQueue) : Bool := masked k (toInt32 (q.curr - q.tail)) ≠ 0

/-- `if (queue_id) *queue_id = n`. -/
def setQueueId (cells : Nat → Int) (queueId : Option Nat) (n : Int) : Nat → Int :=
  match queueId with
  | none => cells
  | some c => Function.update cells c n

/-- `pdp_procqueue_add`, but for the methods that it calls. -/
def pdpProcqueueAdd (q : ProcQueue) (cells : Nat → Int) (item : QueueItem) :
    Mode × ProcQueue × (Nat → Int) :=
  if !q.useThread then (.direct, q, setQueueId cells item.queueId (-1))
  else if pdpProcqueueFull k q then (.full, q, setQueueId cells item.queueId (-1))
  else
    let i := slotOf k q.head
    (.queued, { q with slots := Function.update q.slots i item, head := toInt32 (q.head + 1) },
      setQueueId cells item.queueId i)

end Queue

/-! ## Both threads -/

/-- What the log has of a task. -/
inductive Happening where
  | added (mode : Mode)
  | processed
  | calledBack (fromQueue : Bool)
deriving DecidableEq

/-- A happening, and the task. -/
structure Event where
  id : Nat
  what : Happening
deriving DecidableEq

/-- Where the Pd thread is, when no callback of `pdp_procqueue_add` is running. -/
inductive Base where
  | idle
  /-- at the test of the loop of `pdp_procqueue_callback` -/
  | loop
  /-- in a callback that this loop has called -/
  | called
  /-- in `pdp_procqueue_wait`, for `pdp_procqueue_use_thread` -/
  | waiting
deriving DecidableEq

/-- The process method, if there is one. -/
def QueueItem.processes (item : QueueItem) : List Happening :=
  if item.process then [.processed] else []

/-- The callback, if there is one. -/
def QueueItem.callsBack (item : QueueItem) (fromQueue : Bool) : List Happening :=
  if item.callback then [.calledBack fromQueue] else []

/-- `x_callback = 0` and `x_queue_id = 0`. -/
def QueueItem.struck (item : QueueItem) : QueueItem :=
  { item with callback := false, queueId := none }

/-- The methods that `pdp_procqueue_add` calls itself. -/
def Mode.calls (mode : Mode) (item : QueueItem) : List Happening :=
  match mode with
  | .direct => item.processes ++ item.callsBack false
  | .full => item.callsBack false
  | .queued => []

/-- The queue and its two threads. -/
structure QueueSystem where
  q : ProcQueue
  /-- the places that queue ids are stored at -/
  cells : Nat → Int
  /-- the worker is in a process method -/
  running : Bool
  base : Base
  /-- how many callbacks of `pdp_procqueue_add` are running, one in the other -/
  depth : Nat
  added : List (QueueItem × Mode)
  queued : List QueueItem
  /-- how many tasks of the ring the worker is done with -/
  curr : Nat
  /-- how many tasks of the ring the callback loop is done with -/
  tail : Nat
  log : List Event
  /-- a task was added with the queue id of a task that was waiting -/
  shared : Bool

namespace QueueSystem

/-- `pdp_procqueue_init`. -/
def init : QueueSystem where
  q := ⟨fun _ => ⟨0, false, false, none⟩, 0, 0, 0, true⟩
  cells := fun _ => -1
  running := false
  base := .idle
  depth := 0
  added := []
  queued := []
  curr := 0
  tail := 0
  log := []
  shared := false

/-- Tasks of the ring that have been processed, or are. -/
def ran (s : QueueSystem) : Nat := if s.running then s.curr + 1 else s.curr

/-- Tasks of the ring whose callback has been called, or is running. -/
def begun (s : QueueSystem) : Nat := if s.base = .called then s.tail + 1 else s.tail

/-- Tasks in the ring whose callback is still to come. -/
def pending (s : QueueSystem) : List QueueItem := s.queued.drop s.begun

/-- A task that waits has the same place for its queue id. -/
def shares (s : QueueSystem) (item : QueueItem) : Bool :=
  s.pending.any fun other => item.queueId.isSome && other.queueId = item.queueId

def events (id : Nat) (whats : List Happening) : List Event := whats.map fun what => ⟨id, what⟩

/-- The Pd thread may call `pdp_procqueue_add`: it is idle, or in a callback. -/
def MayAdd (s : QueueSystem) : Prop := 0 < s.depth ∨ s.base = .idle ∨ s.base = .called

/-- The state after `pdp_procqueue_add`, or in the callback that it calls. -/
def afterAdd (k : Nat) (s : QueueSystem) (item : QueueItem) : QueueSystem :=
  let r := pdpProcqueueAdd k s.q s.cells item
  { s with
    q := r.2.1
    cells := r.2.2
    depth := if r.1 ≠ .queued ∧ item.callback = true then s.depth + 1 else s.depth
    added := s.added ++ [(item, r.1)]
    queued := if r.1 = .queued then s.queued ++ [item] else s.queued
    log := s.log ++ events item.id (.added r.1 :: r.1.calls item)
    shared := s.shared || s.shares item }

/-- The slot at `curr`. -/
def currItem (k : Nat) (s : QueueSystem) : QueueItem := s.q.slots (slotOf k s.q.curr)

/-- The slot at `tail`. -/
def tailItem (k : Nat) (s : QueueSystem) : QueueItem := s.q.slots (slotOf k s.q.tail)

/-- One step of the Pd thread or of the worker, on a ring of `2 ^ k` slots. -/
inductive Step (k : Nat) : QueueSystem → QueueSystem → Prop
  | add {s : QueueSystem} (item : QueueItem) (hpd : s.MayAdd) (hid : item.id = s.added.length) :
      Step k s (s.afterAdd k item)
  | addReturn {s : QueueSystem} {n : Nat} (hdepth : s.depth = n + 1) :
      Step k s { s with depth := n }
  | tick {s : QueueSystem} (hdepth : s.depth = 0) (hidle : s.base = .idle)
      (hthread : s.q.useThread = true) : Step k s { s with base := .loop }
  | loopCall {s : QueueSystem} (hdepth : s.depth = 0) (hloop : s.base = .loop)
      (hdata : hasFinished k s.q = true) (hcall : (s.tailItem k).callback = true) :
      Step k s { s with
        cells := setQueueId s.cells (s.tailItem k).queueId (-1)
        base := .called
        log := s.log ++ [⟨(s.tailItem k).id, .calledBack true⟩] }
  | loopSkip {s : QueueSystem} (hdepth : s.depth = 0) (hloop : s.base = .loop)
      (hdata : hasFinished k s.q = true) (hcall : (s.tailItem k).callback = false) :
      Step k s { s with
        cells := setQueueId s.cells (s.tailItem k).queueId (-1)
        q := { s.q with tail := toInt32 (s.q.tail + 1) }
        tail := s.tail + 1 }
  | loopReturn {s : QueueSystem} (hdepth : s.depth = 0) (hcalled : s.base = .called) :
      Step k s { s with
        base := .loop
        q := { s.q with tail := toInt32 (s.q.tail + 1) }
        tail := s.tail + 1 }
  | loopEnd {s : QueueSystem} (hdepth : s.depth = 0) (hloop : s.base = .loop)
      (hdata : hasFinished k s.q = false) : Step k s { s with base := .idle }
  | useThreadOn {s : QueueSystem} (hdepth : s.depth = 0) (hidle : s.base = .idle) :
      Step k s { s with q := { s.q with useThread := true } }
  | useThreadOff {s : QueueSystem} (hdepth : s.depth = 0) (hidle : s.base = .idle) :
      Step k s { s with base := .waiting }
  | waited {s : QueueSystem} (hdepth : s.depth = 0) (hwait : s.base = .waiting)
      (hdata : hasData k s.q = false) :
      Step k s { s with q := { s.q with useThread := false }, base := .loop }
  | start {s : QueueSystem} (hidle : s.running = false) (hdata : hasData k s.q = true) :
      Step k s { s with
        running := true
        log := s.log ++ events (s.currItem k).id (s.currItem k).processes }
  | finish {s : QueueSystem} (hrunning : s.running = true) :
      Step k s { s with
        running := false
        q := { s.q with curr := toInt32 (s.q.curr + 1) }
        curr := s.curr + 1 }

/-- The states that can be reached. -/
inductive Reachable (k : Nat) : QueueSystem → Prop
  | init : Reachable k init
  | step {s s' : QueueSystem} (hs : Reachable k s) (h : Step k s s') : Reachable k s'

end QueueSystem

end PureDataPacket
