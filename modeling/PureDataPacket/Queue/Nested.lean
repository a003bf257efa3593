/-
# `PureDataPacket.Queue.Nested` — callbacks that call the queue

A callback is a method of the Pd thread like any other.  It can add tasks, and it
can also wait for the worker, flush the queue, strike a task out of it or turn the
thread off, and all of these can call callbacks in turn.  So the Pd thread has a
stack here: what is still to be done in each call that it is in.

The callback loop moves `tail` on when a callback has returned.  When it is entered
again from one of its own callbacks, it finds the task of this callback at `tail`.
-/
import PureDataPacket.Queue.Ring

namespace PureDataPacket

/-- What the Pd thread has still to do in a call. -/
inductive Frame where
  /-- it is in a callback, or in the methods that `pdp_procqueue_add` calls -/
  | callback
  /-- `q->tail++` -/
  | advance
  /-- the loop of `pdp_procqueue_callback`, from its test on -/
  | loop
  /-- the loop of `pdp_procqueue_wait` -/
  | wait
  /-- the test at the end of `pdp_procqueue_flush` -/
  | again
  /-- what `pdp_procqueue_finish` does when it has waited -/
  | strike (indx : Int)
  /-- `q->use_thread = 0` -/
  | disable
deriving DecidableEq

/-- The queue, the worker and the stack of the Pd thread.  The fields from `tasks` on are
read by nothing. -/
structure NestedQueue where
  q : ProcQueue
  /-- the places that queue ids are stored at -/
  cells : Nat → Int
  /-- the worker is in a process method -/
  running : Bool
  /-- the innermost call comes first -/
  stack : List Frame
  /-- the tasks that were queued; `id` is the place in this list -/
  tasks : List QueueItem
  /-- how many tasks the worker is done with -/
  curr : Nat
  /-- how often `tail` moved on -/
  tail : Nat
  /-- the tasks whose process method was called -/
  processed : List Nat
  /-- the tasks whose callback was called by the callback loop -/
  called : List Nat
  /-- the tasks that `pdp_procqueue_finish` struck out -/
  struck : List Nat
  /-- the worker was not done when a callback loop ended for the last time -/
  unfinished : Bool

namespace NestedQueue

/-- `pdp_procqueue_init`. -/
def init : NestedQueue where
  q := ⟨fun _ => ⟨0, false, false, none⟩, 0, 0, 0, true⟩
  cells := fun _ => -1
  running := false
  stack := []
  tasks := []
  curr := 0
  tail := 0
  processed := []
  called := []
  struck := []
  unfinished := false

/-- The Pd thread may call anything: it is idle, or in a method. -/
def MayCall (s : NestedQueue) : Prop := ∀ f ∈ s.stack.head?, f = .callback

/-- How many tasks the worker has begun. -/
def ran (s : NestedQueue) : Nat := if s.running then s.curr + 1 else s.curr

/-- How many tasks the callback loop has begun. -/
def begun (s : NestedQueue) : Nat := if .advance ∈ s.stack then s.tail + 1 else s.tail

/-- The frame for the methods that `pdp_procqueue_add` calls itself. -/
def methods (mode : Mode) (item : QueueItem) : List Frame :=
  if mode.calls item = [] then [] else [.callback]

/-- `pdp_procqueue_add`, until it calls a method. -/
def add (k : Nat) (s : NestedQueue) (item : QueueItem) : NestedQueue :=
  let item := { item with id := s.tasks.length }
  let r := pdpProcqueueAdd k s.q s.cells item
  { s with
    q := r.2.1
    cells := r.2.2
    stack := methods r.1 item ++ s.stack
    tasks := if r.1 = .queued then s.tasks ++ [item] else s.tasks }

/-- `pdp_procqueue_flush`. -/
def flush : List Frame := [.wait, .loop, .wait, .again]

/-- `pdp_procqueue_use_thread(q, 0)`. -/
def useThreadOff : List Frame := [.wait, .disable, .loop]

/-- The slot at `curr`. -/
def currItem (k : Nat) (s : NestedQueue) : QueueItem := s.q.slots (slotOf k s.q.curr)

/-- The slot at `tail`. -/
def tailItem (k : Nat) (s : NestedQueue) : QueueItem := s.q.slots (slotOf k s.q.tail)

/-- The body of the callback loop, until the callback has been called. -/
def callNext (k : Nat) (s : NestedQueue) : NestedQueue :=
  let item := s.tailItem k
  { s with
    cells := setQueueId s.cells item.queueId (-1)
    stack := if item.callback then .callback :: .advance :: s.stack else .advance :: s.stack
    called := if item.callback then s.called ++ [item.id] else s.called }

/-- The tasks in the slot of a queue id whose callback is still to come. -/
def waitingAt (k : Nat) (s : NestedQueue) (indx : Int) : List Nat :=
  (List.range s.tasks.length).filter fun j => s.begun ≤ j ∧ j % 2 ^ k = slotOf k indx

/-- The end of `pdp_procqueue_finish`. -/
def strikeOut (k : Nat) (s : NestedQueue) (indx : Int) : NestedQueue :=
  let i := slotOf k indx
  { s with
    q := { s.q with slots := Function.update s.q.slots i (s.q.slots i).struck }
    struck := s.struck ++ s.waitingAt k indx }

/-- Calls of the Pd thread, and what it and the worker do next. -/
inductive Act where
  | add (item : QueueItem)
  | wait
  | finish (indx : Int)
  | flush
  | useThread (t : Bool)
  | tick
  /-- a method returns -/
  | methodReturn
  /-- the Pd thread goes on in the function of the queue that it is in -/
  | goOn
  /-- the worker calls a process method -/
  | process
  /-- the process method returns -/
  | processReturn

/-- One step of the Pd thread or of the worker, on a ring of `2 ^ k` slots. -/
inductive Step (k : Nat) : NestedQueue → Act → NestedQueue → Prop
  | add {s : NestedQueue} (item : QueueItem) (h : s.MayCall) : Step k s (.add item) (s.add k item)
  | wait {s : NestedQueue} (h : s.MayCall) : Step k s .wait { s with stack := .wait :: s.stack }
  | finishNone {s : NestedQueue} (h : s.MayCall) : Step k s (.finish (-1)) s
  | finish {s : NestedQueue} (indx : Int) (h : s.MayCall) (hindx : indx ≠ -1) :
      Step k s (.finish indx) { s with stack := .wait :: .strike indx :: s.stack }
  | flush {s : NestedQueue} (h : s.MayCall) :
      Step k s .flush { s with stack := NestedQueue.flush ++ s.stack }
  | useThreadOn {s : NestedQueue} (h : s.MayCall) :
      Step k s (.useThread true) { s with q := { s.q with useThread := true } }
  | useThreadOff {s : NestedQueue} (h : s.MayCall) :
      Step k s (.useThread false) { s with stack := NestedQueue.useThreadOff ++ s.stack }
  | tick {s : NestedQueue} (h : s.stack = []) (hthread : s.q.useThread = true) :
      Step k s .tick { s with stack := [.loop] }
  | methodReturn {s : NestedQueue} {rest : List Frame} (h : s.stack = .callback :: rest) :
      Step k s .methodReturn { s with stack := rest }
  | advance {s : NestedQueue} {rest : List Frame} (h : s.stack = .advance :: rest) :
      Step k s .goOn { s with
        q := { s.q with tail := toInt32 (s.q.tail + 1) }
        stack := rest
        tail := s.tail + 1 }
  | loopCall {s : NestedQueue} {rest : List Frame} (h : s.stack = .loop :: rest)
      (hdata : hasFinished k s.q = true) : Step k s .goOn (s.callNext k)
  | loopEnd {s : NestedQueue} {rest : List Frame} (h : s.stack = .loop :: rest)
      (hdata : hasFinished k s.q = false) :
      Step k s .goOn { s with stack := rest, unfinished := hasData k s.q }
  | waited {s : NestedQueue} {rest : List Frame} (h : s.stack = .wait :: rest)
      (hdata : hasData k s.q = false) : Step k s .goOn { s with stack := rest }
  | flushAgain {s : NestedQueue} {rest : List Frame} (h : s.stack = .again :: rest)
      (hdata : hasData k s.q = true) :
      Step k s .goOn { s with stack := .loop :: .wait :: .again :: rest }
  | flushReturn {s : NestedQueue} {rest : List Frame} (h : s.stack = .again :: rest)
      (hdata : hasData k s.q = false) : Step k s .goOn { s with stack := rest }
  | strike {s : NestedQueue} {indx : Int} {rest : List Frame}
      (h : s.stack = .strike indx :: rest) :
      Step k s .goOn { s.strikeOut k indx with stack := rest }
  | disable {s : NestedQueue} {rest : List Frame} (h : s.stack = .disable :: rest) :
      Step k s .goOn { s with q := { s.q with useThread := false }, stack := rest }
  | process {s : NestedQueue} (hidle : s.running = false) (hdata : hasData k s.q = true) :
      Step k s .process { s with
        running := true
        processed :=
          if (s.currItem k).process then s.processed ++ [(s.currItem k).id] else s.processed }
  | processReturn {s : NestedQueue} (hrunning : s.running = true) :
      Step k s .processReturn { s with
        running := false
        q := { s.q with curr := toInt32 (s.q.curr + 1) }
        curr := s.curr + 1 }

/-- The states of runs whose steps all meet a condition. -/
inductive Run (k : Nat) (ok : NestedQueue → Act → Prop) : NestedQueue → Prop
  | init : Run k ok init
  | step {s s' : NestedQueue} {a : Act} (hs : Run k ok s) (ha : ok s a) (h : Step k s a s') :
      Run k ok s'

/-- No callback loop is entered from a callback of a callback loop. -/
def NoReentry (s : NestedQueue) (a : Act) : Prop :=
  a = .flush ∨ a = .useThread false → .advance ∉ s.stack

end NestedQueue

end PureDataPacket
