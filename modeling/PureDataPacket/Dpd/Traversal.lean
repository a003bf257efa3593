/-
# `PureDataPacket.Dpd.Traversal` — a rendering chain is walked

A traversal goes through a patch of `dpd` objects while one message is handled.  It
stores the context packet in each object that it gets to and queues the methods of
the object; the worker runs them later, and they read the packet from the object then.

`bang` is all that one traversal stores and queues, in order.  `Step` lets the worker
run while it does.
-/
import PureDataPacket.Lib.CInt
import Mathlib.Logic.Function.Basic

namespace PureDataPacket

/-- A context outlet: whether it has an accumulator method, and the objects that are
connected to it. -/
structure DpdOutlet where
  accum : Bool
  connections : List Nat

/-- `t_pdp_dpd_base`, but for what changes. -/
structure DpdObject where
  /-- not `b_dpd_active_inlet_disabled` -/
  activeInlet : Bool
  inspector : Bool
  cleanup : Bool
  outlets : List DpdOutlet
  /-- what `b_complete_notify` does to the outlets that are enabled -/
  notify : (Nat → Bool) → Nat → Bool

/-- Which outlets of which objects are enabled. -/
abbrev OutletFlags := Nat → Nat → Bool

/-- A patch without a cycle.  The objects that are a `3dp_push` have two outlets, and
never disable one. -/
structure DpdPatch where
  object : Nat → DpdObject
  rank : Nat → Nat
  acyclic : ∀ o, ∀ outlet ∈ (object o).outlets, ∀ c ∈ outlet.connections, rank c < rank o
  isPush : Nat → Bool
  push_outlets : ∀ o, isPush o = true →
    ∃ left right, (object o).outlets = [⟨true, left⟩, ⟨true, right⟩] ∧
      ∀ flags, (object o).notify flags = flags

inductive DpdMethod where
  | inspector
  | accum (outlet : Nat)
  | cleanup
deriving DecidableEq

/-- A method of an object. -/
structure DpdCall where
  object : Nat
  method : DpdMethod
deriving DecidableEq

/-- What a traversal does. -/
inductive DpdAct where
  /-- `b_context_packet = p` -/
  | store (object : Nat) (p : Int)
  /-- `pdp_dpd_base_queue_command` -/
  | queue (call : DpdCall)
deriving DecidableEq

namespace DpdPatch

variable (g : DpdPatch) (p : Int)

/-- `S_INSPECT` for an object. -/
def inspect (c : Nat) : List DpdAct :=
  if (g.object c).activeInlet then [.store c p, .queue ⟨c, .inspector⟩] else []

/-- The same message to several objects. -/
def sendAll (send : Nat → OutletFlags → List DpdAct × OutletFlags) :
    List Nat → OutletFlags → List DpdAct × OutletFlags
  | [], flags => ([], flags)
  | c :: rest, flags =>
      let r := send c flags
      let r' := sendAll send rest r.2
      (r.1 ++ r'.1, r'.2)

/-- `outlet_dpd`. -/
def outletDpd (send : Nat → OutletFlags → List DpdAct × OutletFlags) (connections : List Nat)
    (flags : OutletFlags) : List DpdAct × OutletFlags :=
  let r := sendAll send connections flags
  (connections.flatMap (g.inspect p) ++ r.1, r.2)

/-- The loop of `pdp_dpd_base_bang`, from outlet `i - 1` down. -/
def outletLoop (send : Nat → OutletFlags → List DpdAct × OutletFlags) (o : Nat) :
    Nat → OutletFlags → List DpdAct × OutletFlags
  | 0, flags => ([], flags)
  | i + 1, flags =>
      match (g.object o).outlets[i]? with
      | none => outletLoop send o i flags
      | some outlet =>
          if flags o i then
            let r := g.outletDpd p send outlet.connections flags
            let r' := outletLoop send o i r.2
            (.queue ⟨o, .accum i⟩ :: (r.1 ++ r'.1), r'.2)
          else outletLoop send o i flags

/-- `pdp_dpd_base_bang`. -/
def bangWith (send : Nat → OutletFlags → List DpdAct × OutletFlags) (o : Nat)
    (flags : OutletFlags) : List DpdAct × OutletFlags :=
  let r := g.outletLoop p send o (g.object o).outlets.length flags
  (r.1 ++ if (g.object o).cleanup then [.queue ⟨o, .cleanup⟩] else [],
    Function.update r.2 o ((g.object o).notify (r.2 o)))

/-- `S_ACCUMULATE` for an object, in a chain of at most `n` objects. -/
def accumulate : Nat → Nat → OutletFlags → List DpdAct × OutletFlags
  | 0, _, flags => ([], flags)
  | n + 1, o, flags =>
      if (g.object o).activeInlet then
        let r := g.bangWith p (accumulate n) o flags
        (.store o p :: r.1, r.2)
      else ([], flags)

/-- `pdp_dpd_base_bang` of the object where a traversal starts. -/
def bang (o : Nat) (flags : OutletFlags) : List DpdAct × OutletFlags :=
  g.bangWith p (g.accumulate p (g.rank o)) o flags

def has (call : DpdCall) : Bool :=
  match call.method with
  | .inspector => (g.object call.object).inspector
  | .accum i => ((g.object call.object).outlets[i]?.map DpdOutlet.accum).getD false
  | .cleanup => (g.object call.object).cleanup

end DpdPatch

def callsOf (acts : List DpdAct) : List DpdCall :=
  acts.filterMap fun
    | .queue call => some call
    | .store _ _ => none

/-! ## Traversals and the worker -/

/-- A traversal: where it starts, its context packet, the outlets that are enabled then, and
what it queues. -/
structure DpdPlan where
  root : Nat
  packet : Int
  enabled : OutletFlags
  calls : List DpdCall

/-- A method that was to be queued: its number, and the traversal that it is from. -/
structure DpdTask where
  index : Nat
  traversal : Nat
  call : DpdCall
deriving DecidableEq

/-- The objects, the Pd thread and the worker. -/
structure DpdSystem where
  contextPacket : Nat → Int
  enabled : OutletFlags
  /-- what is left of the traversal -/
  todo : List DpdAct
  queue : List DpdTask
  worker : Option DpdTask
  plans : List DpdPlan
  /-- what was run, with the packet that it read -/
  log : List (DpdTask × Int)
  /-- what was to be queued, and whether the queue had room for it -/
  asked : List (DpdTask × Bool)
  /-- by the number of a task: another packet was stored in its object while it was waiting -/
  disturbed : Nat → Bool

namespace DpdSystem

/-- No traversal yet; `pdp_dpd_base_add_outlet` enables each outlet. -/
def init : DpdSystem where
  contextPacket := fun _ => -1
  enabled := fun _ _ => true
  todo := []
  queue := []
  worker := none
  plans := []
  log := []
  asked := []
  disturbed := fun _ => false

/-- Tasks that are queued or running. -/
def waiting (s : DpdSystem) : List DpdTask := s.worker.toList ++ s.queue

def packet (s : DpdSystem) (traversal : Nat) : Int :=
  (s.plans[traversal]?.map DpdPlan.packet).getD (-1)

/-- The task that a method of the last traversal becomes. -/
def next (s : DpdSystem) (call : DpdCall) : DpdTask := ⟨s.asked.length, s.plans.length - 1, call⟩

/-- One step of the Pd thread or of the worker. -/
inductive Step (g : DpdPatch) : DpdSystem → DpdSystem → Prop
  /-- `pdp_dpd_base_enable_outlet`, between two traversals -/
  | enable {s : DpdSystem} (o i : Nat) (toggle : Bool) (htodo : s.todo = [])
      (hpush : g.isPush o = false) :
      Step g s { s with
        enabled := Function.update s.enabled o (Function.update (s.enabled o) i toggle) }
  /-- a traversal starts: nothing else reads the flags before it is at its end -/
  | traverse {s : DpdSystem} (root : Nat) (p : Int) (htodo : s.todo = []) :
      Step g s { s with
        todo := .store root p :: (g.bang p root s.enabled).1
        enabled := (g.bang p root s.enabled).2
        plans := s.plans ++ [⟨root, p, s.enabled, callsOf (g.bang p root s.enabled).1⟩] }
  | store {s : DpdSystem} {o : Nat} {p : Int} {rest : List DpdAct}
      (htodo : s.todo = .store o p :: rest) :
      Step g s { s with
        contextPacket := Function.update s.contextPacket o p
        todo := rest
        disturbed := fun n => s.disturbed n || s.waiting.any fun task =>
          task.index = n && task.call.object = o && s.packet task.traversal ≠ p }
  | add {s : DpdSystem} {call : DpdCall} {rest : List DpdAct} (htodo : s.todo = .queue call :: rest) :
      Step g s { s with
        todo := rest
        queue := s.queue ++ [s.next call]
        asked := s.asked ++ [(s.next call, true)] }
  /-- the queue is full: there is no callback to call -/
  | addFull {s : DpdSystem} {call : DpdCall} {rest : List DpdAct}
      (htodo : s.todo = .queue call :: rest) :
      Step g s { s with
        todo := rest
        asked := s.asked ++ [(s.next call, false)] }
  | start {s : DpdSystem} {task : DpdTask} {rest : List DpdTask} (hidle : s.worker = none)
      (hqueue : s.queue = task :: rest) : Step g s { s with queue := rest, worker := some task }
  /-- the method reads the context packet of its object -/
  | run {s : DpdSystem} {task : DpdTask} (hworker : s.worker = some task) :
      Step g s { s with
        worker := none
        log := s.log ++ [(task, s.contextPacket task.call.object)] }

/-- The states that can be reached. -/
inductive Reachable (g : DpdPatch) : DpdSystem → Prop
  | init : Reachable g init
  | step {s s' : DpdSystem} (hs : Reachable g s) (h : Step g s s') : Reachable g s'

end DpdSystem

end PureDataPacket
