/-
# `PureDataPacket.Dpd.Command` — command objects

An object of a rendering chain that has parameters does not read them when its
methods run: it copies them, while the message is handled, to a command object of
its command factory, and queues the command.  The last process method of a command
(for `3dp_snap` its callback) marks the command unused, so that the factory can
hand it out again.

The queue here is a list, and `pdp_procqueue_add` may find it full at any time.
A queue that does not use its thread is one whose tasks run as soon as they are added.
-/
import Mathlib.Data.List.Range
import Mathlib.Logic.Function.Basic

namespace PureDataPacket

/-- What uses command objects. -/
inductive CommandKind where
  | draw
  | view
  | drawmesh
  | color
  | snap
  /-- `_pdp_packet_texture_convert_bitmap_to_texture` -/
  | texture
deriving DecidableEq

namespace CommandKind

/-- The number of packets that a command holds: the texture, or source and destination. -/
def captures : CommandKind → Nat
  | .draw => 1
  | .texture => 2
  | _ => 0

/-- The number of the last task, from 0. -/
def last : CommandKind → Nat
  | .color => 1
  | _ => 0

/-- The command is marked unused in the callback, not in the process method. -/
def endsInCallback (kind : CommandKind) : Bool := kind = .snap

end CommandKind

/-- A task of a command.  `use` says which call of
`pdp_dpd_commandfactory_get_new_command` the command is from. -/
structure CommandTask where
  use : Nat
  command : Nat
  kind : CommandKind
  index : Nat
  packets : List Int
deriving DecidableEq

/-- What a process method or callback does with its command. -/
inductive CommandAct where
  /-- it reads the command -/
  | run
  /-- `pdp_packet_mark_unused`, for the packet of this number -/
  | markUnused (i : Nat)
  /-- `pdp_dpd_command_suicide` -/
  | suicide
deriving DecidableEq

namespace CommandTask

/-- What the last task does when it is done with the command. -/
def ending (t : CommandTask) : List CommandAct :=
  if t.index = t.kind.last then (List.range t.packets.length).map .markUnused ++ [.suicide]
  else []

def process (t : CommandTask) : List CommandAct :=
  .run :: if t.kind.endsInCallback then [] else t.ending

end CommandTask

/-- The tasks of a command, in the order in which they are queued. -/
def CommandKind.tasks (kind : CommandKind) (use command : Nat) (packets : List Int) :
    List CommandTask :=
  (List.range (kind.last + 1)).map fun i => ⟨use, command, kind, i, packets⟩

/-- One call of `pdp_dpd_commandfactory_get_new_command`. -/
structure CommandUse where
  command : Nat
  kind : CommandKind
  packets : List Int
deriving DecidableEq

/-- The command factories, the Pd thread and the worker. -/
structure CommandSystem where
  /-- the commands of each factory, newest first -/
  commands : Nat → List Nat
  used : Nat → Bool
  /-- how many commands there are -/
  created : Nat
  /-- the loop of `get_new_command`: for whom, with which packets, and where it is -/
  scan : Option (Nat × CommandKind × List Int × List Nat)
  /-- what the messages that are being handled still have to queue, innermost first -/
  todo : List CommandTask
  queue : List CommandTask
  worker : Option (CommandTask × List CommandAct)
  /-- tasks whose callback is still to come -/
  finished : List CommandTask
  uses : List CommandUse
  /-- what was done with the packets and commands, for which use -/
  log : List (Nat × CommandAct)

namespace CommandSystem

/-- No object has a command yet. -/
def init : CommandSystem where
  commands := fun _ => []
  used := fun _ => false
  created := 0
  scan := none
  todo := []
  queue := []
  worker := none
  finished := []
  uses := []
  log := []

/-- `get_new_command` returns `command`: it is filled in, and its tasks are to be queued. -/
def claim (s : CommandSystem) (kind : CommandKind) (packets : List Int) (command : Nat) :
    CommandSystem :=
  { s with
    used := Function.update s.used command true
    scan := none
    todo := kind.tasks s.uses.length command packets ++ s.todo
    uses := s.uses ++ [⟨command, kind, packets⟩] }

/-- A process method at its end is no longer running. -/
def resume (t : CommandTask) (acts : List CommandAct) :
    Option (CommandTask × List CommandAct) :=
  if acts = [] then none else some (t, acts)

/-- The callbacks to come, when the worker is done with a task. -/
def finish (finished : List CommandTask) (t : CommandTask) (acts : List CommandAct) :
    List CommandTask :=
  if acts = [] ∧ t.kind.endsInCallback = true then finished ++ [t] else finished

/-- `markUnused` and `suicide` in a callback. -/
def callBack (s : CommandSystem) (t : CommandTask) : CommandSystem :=
  { s with
    used := if t.ending = [] then s.used else Function.update s.used t.command false
    log := s.log ++ t.ending.map fun a => (t.use, a) }

/-- One step of the Pd thread or of the worker.  `full` says for which tasks the queue
may be full: for the code it is all of them. -/
inductive Step (full : CommandTask → Prop) : CommandSystem → CommandSystem → Prop
  /-- a traversal or a conversion gets to something that uses a command -/
  | visit {s : CommandSystem} (factory : Nat) (kind : CommandKind) (packets : List Int)
      (hscan : s.scan = none) (hpackets : packets.length = kind.captures) :
      Step full s { s with scan := some (factory, kind, packets, s.commands factory) }
  | scanUsed {s : CommandSystem} {factory : Nat} {kind : CommandKind} {packets : List Int}
      {c : Nat} {left : List Nat} (hscan : s.scan = some (factory, kind, packets, c :: left))
      (hused : s.used c = true) :
      Step full s { s with scan := some (factory, kind, packets, left) }
  | scanReuse {s : CommandSystem} {factory : Nat} {kind : CommandKind} {packets : List Int}
      {c : Nat} {left : List Nat} (hscan : s.scan = some (factory, kind, packets, c :: left))
      (hused : s.used c = false) : Step full s (s.claim kind packets c)
  | scanNew {s : CommandSystem} {factory : Nat} {kind : CommandKind} {packets : List Int}
      (hscan : s.scan = some (factory, kind, packets, [])) :
      Step full s { s.claim kind packets s.created with
        commands := Function.update s.commands factory (s.created :: s.commands factory)
        created := s.created + 1 }
  | add {s : CommandSystem} {t : CommandTask} {rest : List CommandTask} (hscan : s.scan = none)
      (htodo : s.todo = t :: rest) : Step full s { s with todo := rest, queue := s.queue ++ [t] }
  /-- the queue is full: the process method is skipped -/
  | addFull {s : CommandSystem} {t : CommandTask} {rest : List CommandTask} (hscan : s.scan = none)
      (htodo : s.todo = t :: rest) (hfull : full t) (hcallback : t.kind.endsInCallback = false) :
      Step full s { s with todo := rest }
  | addFullCallback {s : CommandSystem} {t : CommandTask} {rest : List CommandTask}
      (hscan : s.scan = none) (htodo : s.todo = t :: rest) (hfull : full t)
      (hcallback : t.kind.endsInCallback = true) :
      Step full s ({ s with todo := rest }.callBack t)
  | start {s : CommandSystem} {t : CommandTask} {rest : List CommandTask} (hidle : s.worker = none)
      (hqueue : s.queue = t :: rest) :
      Step full s { s with queue := rest, worker := some (t, t.process) }
  | run {s : CommandSystem} {t : CommandTask} {acts : List CommandAct}
      (hworker : s.worker = some (t, .run :: acts)) :
      Step full s { s with
        worker := resume t acts
        finished := finish s.finished t acts }
  | markUnused {s : CommandSystem} {t : CommandTask} {i : Nat} {acts : List CommandAct}
      (hworker : s.worker = some (t, .markUnused i :: acts)) :
      Step full s { s with
        worker := resume t acts
        log := s.log ++ [(t.use, .markUnused i)] }
  | suicide {s : CommandSystem} {t : CommandTask} {acts : List CommandAct}
      (hworker : s.worker = some (t, .suicide :: acts)) :
      Step full s { s with
        worker := resume t acts
        used := Function.update s.used t.command false
        log := s.log ++ [(t.use, .suicide)] }
  | callback {s : CommandSystem} {t : CommandTask} {rest : List CommandTask}
      (hfinished : s.finished = t :: rest) :
      Step full s ({ s with finished := rest }.callBack t)

/-- The states that can be reached. -/
inductive Reachable (full : CommandTask → Prop) : CommandSystem → Prop
  | init : Reachable full init
  | step {s s' : CommandSystem} (hs : Reachable full s) (h : Step full s s') : Reachable full s'

/-- The tasks that are still to be queued, to be run or to be called back. -/
def inFlight (s : CommandSystem) : List CommandTask :=
  s.finished ++ (s.worker.toList.map Prod.fst ++ (s.queue ++ s.todo))

end CommandSystem

end PureDataPacket
