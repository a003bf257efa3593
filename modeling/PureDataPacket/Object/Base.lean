/-
# `PureDataPacket.Object.Base` — the base class of packet processors

An object of this class takes a packet at its hot inlet, processes it when it is told
to, in the thread of the process queue or at once, and passes it to its outlet.
Packets at the cold inlets wait in a second row of cells for the next run.

The outlet may be connected to inlets of the object itself.  A message handler is run
to its end, but sending a packet is many messages: `todo` is what is left to send.
What other objects do with the packet is not modelled; they may send messages of their
own at any time, also while the packet is still offered to them.
-/
import PureDataPacket.Queue.ProcQueue
import Mathlib.Data.List.Range

namespace PureDataPacket

/-- `MAX_NB_PDP_BASE_INLETS` -/
def maxNbPdpBaseInlets : Nat := 4

/-- What the constructor of a derived class decides, and how the object is connected. -/
structure BaseClass where
  /-- `b_inlets` -/
  inlets : Nat
  inlets_le : inlets ≤ maxNbPdpBaseInlets
  /-- there is an outlet -/
  outlet : Bool
  /-- `b_active_inlet_enabled` -/
  activeInlet : Bool
  /-- `b_active_inlet_readonly` -/
  readonly : Bool
  /-- the inlets of the object that its outlet is connected to: 0 is the hot one -/
  connections : List Nat
  /-- other objects may say *process* while the packet is still offered to them -/
  interrupted : Bool
  /-- `b_postproc_method` removes the packet of slot 0, and releases it -/
  postprocTakes : Bool

/-- What a message says. -/
inductive PdpMessage where
  | registerRo (p : Int)
  | registerRw (p : Int)
  | process
deriving DecidableEq

/-- What is left of sending a packet. -/
inductive SendAct where
  | message (inlet : Nat) (m : PdpMessage)
  /-- `pdp_packet_mark_unused`, and the cell is -1 -/
  | unregister
deriving DecidableEq

/-- Where the task of the object is in the process queue. -/
inductive TaskPhase where
  | queued
  | running
  | finished
deriving DecidableEq

/-- What happens to a hot packet. -/
inductive HotEvent where
  | processed
  /-- passed to the outlet -/
  | passed
  /-- removed by `b_postproc_method` -/
  | taken
  /-- released by `pdp_base_free` -/
  | freed
deriving DecidableEq

/-- `t_pdp_base`, its task and its messages.  The last fields are read by nothing. -/
structure BaseState where
  packet : Nat → Int
  packetNext : Nat → Int
  queueId : Int
  threadEnabled : Bool
  task : Option TaskPhase
  todo : List SendAct
  freed : Bool
  /-- the references that the object owns -/
  refs : List Int
  /-- a packet was released that the object did not own -/
  releasedTwice : Bool
  /-- how many hot packets were accepted -/
  accepted : Nat
  /-- which of them is in slot 0 -/
  held : Option Nat
  log : List (Nat × HotEvent)
  /-- for each hot packet that was offered: one was still held, and a drop was notified -/
  offers : List (Bool × Bool)
  runs : Nat

namespace BaseState

/-- `pdp_base_init`. -/
def init : BaseState where
  packet := fun _ => -1
  packetNext := fun _ => -1
  queueId := -1
  threadEnabled := true
  task := none
  todo := []
  freed := false
  refs := []
  releasedTwice := false
  accepted := 0
  held := none
  log := []
  offers := []
  runs := 0

/-- `pdp_packet_mark_unused`. -/
def markUnused (s : BaseState) (p : Int) : BaseState :=
  { s with
    refs := if p = -1 then s.refs else s.refs.erase p
    releasedTwice := s.releasedTwice || (p ≠ -1 && p ∉ s.refs) }

/-- A copy or a conversion returns `r`. -/
def receive (s : BaseState) (r : Int) : BaseState :=
  { s with refs := if r = -1 then s.refs else r :: s.refs }

/-- An event of the packet in slot 0. -/
def record (s : BaseState) (e : HotEvent) : BaseState :=
  { s with log := s.log ++ s.held.toList.map fun n => (n, e) }

/-- The packet of slot 0 is released, and the cell is -1. -/
def leaveSlot (s : BaseState) (e : HotEvent) : BaseState :=
  { (s.record e).markUnused (s.packet 0) with
    packet := Function.update s.packet 0 (-1)
    held := none }

/-- `pdp_packet_replace_if_valid(&b->b_packet[i], &b->b_packet_next[i])`. -/
def replaceIfValid (s : BaseState) (i : Nat) : BaseState :=
  if s.packetNext i = -1 then s
  else
    let s' := s.markUnused (s.packet i)
    { s' with
      packet := Function.update s'.packet i (s'.packetNext i)
      packetNext := Function.update s'.packetNext i (-1) }

/-- `pdp_base_movepassive`. -/
def movepassive (c : BaseClass) (s : BaseState) : BaseState :=
  (List.range' 1 (c.inlets - 1)).foldl replaceIfValid s

/-- `outlet_pdp_register`, `pdp_packet_mark_unused` and `outlet_pdp_process`, as far as they
come back. -/
def sendActs (c : BaseClass) (p : Int) : List SendAct :=
  c.connections.map (fun i => .message i (.registerRo p)) ++
    (c.connections.map (fun i => .message i (.registerRw p)) ++
      .unregister :: c.connections.map fun i => .message i .process)

/-- `b_postproc_method`. -/
def postproc (c : BaseClass) (s : BaseState) : BaseState :=
  if c.postprocTakes then s.leaveSlot .taken else s

/-- `pdp_base_postprocess`. -/
def postprocess (c : BaseClass) (s : BaseState) : BaseState :=
  let s' := postproc c s
  if c.outlet = true ∧ s'.packet 0 ≠ -1 then
    { s' with todo := sendActs c (s'.packet 0) ++ s'.todo }
  else s'

/-- `pdp_base_bang`.  `mode` is what `pdp_procqueue_add` does, and `slot` the queue id. -/
def bang (c : BaseClass) (s : BaseState) (mode : Mode) (slot : Nat) : BaseState :=
  if s.queueId ≠ -1 then s
  else
    let s' := { movepassive c s with runs := s.runs + 1 }
    if s'.threadEnabled then
      match mode with
      | .direct => postprocess c ({ s' with queueId := -1 }.record .processed)
      | .full => postprocess c { s' with queueId := -1 }
      | .queued => { s' with queueId := slot, task := some .queued }
    else postprocess c (s'.record .processed)

/-- `pdp_packet_copy_ro_or_drop` and its three siblings, for slot 0; `r` is the copy. -/
def acceptHot (s : BaseState) (r : Int) : BaseState :=
  if s.packet 0 = -1 then
    { s.receive r with
      packet := Function.update s.packet 0 r
      held := if r = -1 then s.held else some s.accepted
      accepted := if r = -1 then s.accepted else s.accepted + 1
      offers := s.offers ++ [(s.held.isSome, false)] }
  else { s with offers := s.offers ++ [(s.held.isSome, true)] }

/-- `pdp_base_input_hot`. -/
def inputHot (c : BaseClass) (s : BaseState) (m : PdpMessage) (r : Int) (mode : Mode)
    (slot : Nat) : BaseState :=
  if c.activeInlet = false then s
  else
    match m with
    | .registerRo _ => if c.readonly then acceptHot s r else s
    | .registerRw _ => if c.readonly then s else acceptHot s r
    | .process => if s.packet 0 ≠ -1 ∧ s.queueId = -1 then bang c s mode slot else s

/-- `pdp_base_input_cold`. -/
def inputCold (s : BaseState) (inlet : Nat) (m : PdpMessage) (r : Int) : BaseState :=
  match m with
  | .registerRo _ =>
      if inlet < maxNbPdpBaseInlets ∧ s.packetNext inlet = -1 then
        { s.receive r with packetNext := Function.update s.packetNext inlet r }
      else s
  | _ => s

def input (c : BaseClass) (s : BaseState) (inlet : Nat) (m : PdpMessage) (r : Int) (mode : Mode)
    (slot : Nat) : BaseState :=
  if inlet = 0 then inputHot c s m r mode slot else inputCold s inlet m r

/-- The cells, in the order in which they are released. -/
def cells (s : BaseState) : List Int :=
  (List.range maxNbPdpBaseInlets).flatMap fun i => [s.packet i, s.packetNext i]

/-- The packet is still offered to other objects. -/
def Offering (s : BaseState) : Prop := .unregister ∈ s.todo

/-- One step of the Pd thread, of the queue or of its worker. -/
inductive Step (c : BaseClass) : BaseState → BaseState → Prop
  /-- a message that the object does not send itself -/
  | message {s : BaseState} (inlet : Nat) (m : PdpMessage) (r : Int) (mode : Mode) (slot : Nat)
      (hfreed : s.freed = false) (hphase : m = .process → s.Offering → c.interrupted = true) :
      Step c s (input c s inlet m r mode slot)
  /-- a message from its own outlet -/
  | own {s : BaseState} {inlet : Nat} {m : PdpMessage} {rest : List SendAct} (r : Int)
      (mode : Mode) (slot : Nat) (hfreed : s.freed = false)
      (htodo : s.todo = .message inlet m :: rest) :
      Step c s (input c { s with todo := rest } inlet m r mode slot)
  | unregister {s : BaseState} {rest : List SendAct} (hfreed : s.freed = false)
      (htodo : s.todo = .unregister :: rest) :
      Step c s ({ s with todo := rest }.leaveSlot .passed)
  /-- `pdp_base_thread` -/
  | thread {s : BaseState} (b : Bool) (hfreed : s.freed = false) :
      Step c s { s with threadEnabled := b }
  /-- the worker calls the process method -/
  | start {s : BaseState} (htask : s.task = some .queued) :
      Step c s { s.record .processed with task := some .running }
  | finish {s : BaseState} (htask : s.task = some .running) :
      Step c s { s with task := some .finished }
  /-- the callback loop gets to the task -/
  | callback {s : BaseState} (htask : s.task = some .finished) :
      Step c s (postprocess c { s with queueId := -1, task := none })
  /-- `pdp_base_free`: `pdp_procqueue_finish` waits for the worker, and drops the callback -/
  | free {s : BaseState} (hfreed : s.freed = false) (htodo : s.todo = [])
      (htask : s.task = none ∨ s.task = some .finished) :
      Step c s { s.cells.foldl markUnused (s.record .freed) with
        task := none
        held := none
        freed := true }

/-- The states that can be reached. -/
inductive Reachable (c : BaseClass) : BaseState → Prop
  | init : Reachable c init
  | step {s s' : BaseState} (hs : Reachable c s) (h : Step c s s') : Reachable c s'

end BaseState

end PureDataPacket
