/-
# `PureDataPacket.Object.Scale` — one packet at a time is scaled

`pdp_scale` accepts a packet if it holds none, and when it is told to process it adds a task to
the process queue; the callback of the task releases the packet and passes the scaled one on.
The packet stays in its cell until then, and so does a packet that no task is added for.

The worker and the callback are steps of their own.  A step without a result dereferences the
header of a packet that is not there.

| | |
| :-- | :-- |
| `Processable` | a packet can be processed |
| `Orderly` | the condition |
| `Settled` | the invariant |
| `Live` | what is owed |
-/
import Mathlib.Data.List.Perm.Basic
import PureDataPacket.Queue.ProcQueue
import PureDataPacket.Type.Image

namespace PureDataPacket

/-- What the object reads of the header of a packet. -/
structure ScaleHeader where
  type : Nat
  encoding : Nat
  width : Nat
  height : Nat
  deriving DecidableEq

/-- What `x_packet1` can be. -/
inductive ScaleOutput where
  /-- the packet that was accepted, which has the right size already -/
  | accepted (packet : ScaleHeader)
  | created
  deriving DecidableEq

/-- `t_pdp_scale`, and its tasks. -/
structure Scale where
  packet0 : Option ScaleHeader
  packet1 : Option ScaleOutput
  dropped : Bool
  width : Nat
  height : Nat
  /-- tasks that the worker has not got to -/
  queued : Nat
  /-- tasks whose callback has not been called -/
  processed : Nat
  /-- the packets that were put into `x_packet0` -/
  accepted : List ScaleHeader
  /-- those of them that were marked unused -/
  released : List ScaleHeader
  passed : List ScaleOutput
  /-- no `process` has come since the packet was accepted -/
  awaits : Bool
  deriving DecidableEq

inductive ScaleStep where
  /-- `register_rw`; `pdp_packet_copy_ro` returns -1, or a packet -/
  | register (packet : Option ScaleHeader)
  /-- `process`; if a packet can be created, and what `pdp_procqueue_add` does -/
  | process (created : Bool) (mode : Mode)
  | dim (w h : Int)
  /-- the worker calls the process method of a task -/
  | work
  /-- the callback of a task is called -/
  | callback
  deriving DecidableEq

namespace Scale

/-- `pdp_scale_new`, with the size that it takes if none is given. -/
def new : Scale := ⟨none, none, false, 320, 240, 0, 0, [], [], [], false⟩

/-- `pdp_packet_pass_if_valid` for `x_packet1`. -/
def passIfValid (x : Scale) : Scale :=
  match x.packet1 with
  | none => x
  | some p =>
      { x with
        packet1 := none
        passed := x.passed ++ [p]
        released := x.released ++
          match p with
          | .accepted h => [h]
          | .created => [] }

/-- `pdp_scale_sendpacket`. -/
def sendpacket (x : Scale) : Scale :=
  { x with packet0 := none, released := x.released ++ x.packet0.toList }.passIfValid

/-- `pdp_scale_process_yv12` and `pdp_scale_process_grey`; both packets have to be there. -/
def processMethod (x : Scale) : Option Scale :=
  if x.packet0.isSome && x.packet1.isSome then some x else none

/-- `pdp_procqueue_add`. -/
def procqueueAdd (mode : Mode) (x : Scale) : Option Scale :=
  match mode with
  | .direct => x.processMethod.map sendpacket
  | .full => some x.sendpacket
  | .queued => some { x with queued := x.queued + 1 }

/-- `pdp_scale_process`. -/
def process (created : Bool) (mode : Mode) (x : Scale) : Option Scale :=
  match x.packet0 with
  | none => some x
  | some header0 =>
      if header0.type = pdpImage then
        if header0.width = x.width ∧ header0.height = x.height then
          some { x with packet0 := none, packet1 := some (.accepted header0) }.sendpacket
        else if header0.encoding = pdpImageYV12 ∨ header0.encoding = pdpImageGREY then
          if created then { x with packet1 := some .created }.procqueueAdd mode
          else some { x with packet1 := none }
        else some x
      else some x

/-- `pdp_scale_input_0` with `register_rw`: `pdp_packet_copy_ro_or_drop`. -/
def register (packet : Option ScaleHeader) (x : Scale) : Scale :=
  if x.packet0.isNone then
    { x with
      packet0 := packet
      dropped := false
      accepted := x.accepted ++ packet.toList
      awaits := packet.isSome }
  else { x with dropped := true }

def step (x : Scale) : ScaleStep → Option Scale
  | .register packet => some (x.register packet)
  | .process created mode =>
      let x := { x with awaits := false }
      if x.packet0.isSome && !x.dropped then x.process created mode else some x
  | .dim w h =>
      some { x with
        width := (if w < 32 then 32 else w).toNat
        height := (if h < 32 then 32 else h).toNat }
  | .work =>
      if x.queued = 0 then some x
      else x.processMethod.map fun x =>
        { x with queued := x.queued - 1, processed := x.processed + 1 }
  | .callback =>
      if x.processed = 0 then some x
      else some { x with processed := x.processed - 1 }.sendpacket

def run : List ScaleStep → Scale → Option Scale
  | [], x => some x
  | st :: l, x => (x.step st).bind (run l)

/-! ## What the object is meant to do -/

/-- How many steps the queue has left for the object. -/
def pending (x : Scale) : Nat := 2 * x.queued + x.processed

/-- The packet can be processed: it is an image of the right size, or one of those that can be
scaled, and there is a packet for the result. -/
def Processable (x : Scale) (created : Bool) (p : ScaleHeader) : Prop :=
  p.type = pdpImage ∧ ((p.width = x.width ∧ p.height = x.height) ∨
    (p.encoding = pdpImageYV12 ∨ p.encoding = pdpImageGREY) ∧ created = true)

/-- A packet comes when the one before has got its `process`; and `process` comes for a packet
that can be processed, and not again while that is done. -/
def Orderly (x : Scale) : ScaleStep → Prop
  | .register _ => x.awaits = false
  | .process created _ => x.dropped = false → ∀ p, x.packet0 = some p →
      x.pending = 0 ∧ x.Processable created p
  | _ => True

/-- The condition for each step of a run. -/
def AllOrderly : List ScaleStep → Scale → Prop
  | [], _ => True
  | st :: l, x => x.Orderly st ∧ ∀ x', x.step st = some x' → AllOrderly l x'

/-- Packets are accounted for; the queue comes to its end, whatever comes in between; and then
there is no packet, unless its `process` is still to come, and the next one is accepted. -/
structure Live (x : Scale) : Prop where
  accounted : (x.released ++ x.packet0.toList).Perm x.accepted
  advances : 0 < x.pending → ∃ st x', (st = .work ∨ st = .callback) ∧ x.step st = some x' ∧
    x'.pending < x.pending
  steady : ∀ st x', 0 < x.pending → x.Orderly st → x.step st = some x' → x'.pending ≤ x.pending
  empty : x.pending = 0 → x.awaits = false → x.packet0 = none
  accepts : x.pending = 0 → x.awaits = false → ∀ p, ∃ x', x.step (.register (some p)) = some x' ∧
    x'.packet0 = some p ∧ x'.accepted = x.accepted ++ [p]

/-! ## The cells -/

/-- There is a task, and the packets for it, or the packet waits for its `process`, or there is
none. -/
inductive Settled (x : Scale) : Prop
  | task (p : ScaleHeader) (h0 : x.packet0 = some p) (h1 : x.packet1 = some .created)
      (hone : x.queued + x.processed = 1) (hawaits : x.awaits = false)
  | waiting (p : ScaleHeader) (h0 : x.packet0 = some p) (h1 : x.packet1 = none)
      (hnone : x.queued + x.processed = 0) (hawaits : x.awaits = true)
      (hdropped : x.dropped = false)
  | empty (h0 : x.packet0 = none) (h1 : x.packet1 = none) (hnone : x.queued + x.processed = 0)
      (hawaits : x.awaits = false)

/-- The references to the accepted packets. -/
def Accounted (x : Scale) : Prop := (x.released ++ x.packet0.toList).Perm x.accepted

section Step

variable {x x' : Scale} {st : ScaleStep} {l : List ScaleStep}

/-- The callback, when the packet and its result are there. -/
theorem settled_sendpacket (h1 : x.packet1 = some .created)
    (hnone : x.queued + x.processed = 0) (hawaits : x.awaits = false) (hacc : x.Accounted) :
    Settled x.sendpacket ∧ x.sendpacket.Accounted := by
  unfold sendpacket passIfValid
  simp only [h1]
  refine ⟨.empty rfl rfl hnone hawaits, ?_⟩
  show (x.released ++ x.packet0.toList ++ [] ++ []).Perm x.accepted
  rw [List.append_nil, List.append_nil]
  exact hacc

/-- The packet of the right size goes out as it is. -/
theorem settled_same {p : ScaleHeader} (h0 : x.packet0 = some p)
    (hnone : x.queued + x.processed = 0) (hawaits : x.awaits = false) (hacc : x.Accounted) :
    let x' := { x with packet0 := none, packet1 := some (.accepted p) }.sendpacket
    Settled x' ∧ x'.Accounted := by
  refine ⟨.empty rfl rfl hnone hawaits, ?_⟩
  show (x.released ++ [] ++ [p] ++ []).Perm x.accepted
  unfold Accounted at hacc
  rw [h0] at hacc
  rw [List.append_nil, List.append_nil]
  exact hacc

/-- A task is added for a packet that can be scaled. -/
theorem settled_procqueueAdd {p : ScaleHeader} {mode : Mode} (h0 : x.packet0 = some p)
    (h1 : x.packet1 = some .created) (hnone : x.queued + x.processed = 0)
    (hawaits : x.awaits = false) (hacc : x.Accounted) :
    ∃ x', x.procqueueAdd mode = some x' ∧ Settled x' ∧ x'.Accounted := by
  cases mode with
  | direct =>
      refine ⟨x.sendpacket, ?_, settled_sendpacket h1 hnone hawaits hacc⟩
      unfold procqueueAdd processMethod
      rw [h0, h1]
      rfl
  | full => exact ⟨_, rfl, settled_sendpacket h1 hnone hawaits hacc⟩
  | queued =>
      refine ⟨_, rfl, .task p h0 h1 ?_ hawaits, hacc⟩
      show x.queued + 1 + x.processed = 1
      omega

theorem step_process_skip {created : Bool} {mode : Mode}
    (h : x.packet0 = none ∨ x.dropped = true) :
    x.step (.process created mode) = some { x with awaits := false } := by
  unfold Scale.step
  dsimp only
  rw [if_neg]
  rcases h with h0 | hd
  · rw [h0]
    exact Bool.false_ne_true
  · rw [hd, Bool.not_true, Bool.and_false]
    exact Bool.false_ne_true

theorem step_process {created : Bool} {mode : Mode} {p : ScaleHeader} (h0 : x.packet0 = some p)
    (hd : x.dropped = false) :
    x.step (.process created mode) = { x with awaits := false }.process created mode := by
  unfold Scale.step
  dsimp only
  rw [if_pos]
  rw [h0, hd]
  rfl

theorem process_eq {created : Bool} {mode : Mode} {p : ScaleHeader} (h0 : x.packet0 = some p)
    (htype : p.type = pdpImage) : x.process created mode =
      if p.width = x.width ∧ p.height = x.height then
        some { x with packet0 := none, packet1 := some (.accepted p) }.sendpacket
      else if p.encoding = pdpImageYV12 ∨ p.encoding = pdpImageGREY then
        if created then { x with packet1 := some .created }.procqueueAdd mode
        else some { x with packet1 := none }
      else some x := by
  unfold Scale.process
  rw [h0]
  exact if_pos htype

theorem register_of_some {p : ScaleHeader} (h0 : x.packet0 = some p) (packet : Option ScaleHeader) :
    x.register packet = { x with dropped := true } := by
  unfold register
  rw [if_neg]
  rw [h0]
  exact Bool.false_ne_true

theorem register_of_none (h0 : x.packet0 = none) (packet : Option ScaleHeader) :
    x.register packet =
      { x with
        packet0 := packet
        dropped := false
        accepted := x.accepted ++ packet.toList
        awaits := packet.isSome } := by
  unfold register
  rw [if_pos]
  rw [h0]
  rfl

theorem settled_process {created : Bool} {mode : Mode} {p : ScaleHeader} (h0 : x.packet0 = some p)
    (hnone : x.queued + x.processed = 0) (hawaits : x.awaits = false) (hacc : x.Accounted)
    (hok : x.Processable created p) :
    ∃ x', x.process created mode = some x' ∧ Settled x' ∧ x'.Accounted := by
  rw [process_eq h0 hok.1]
  by_cases hsame : p.width = x.width ∧ p.height = x.height
  · rw [if_pos hsame]
    exact ⟨_, rfl, settled_same h0 hnone hawaits hacc⟩
  · obtain ⟨hencoding, hcreated⟩ := hok.2.resolve_left hsame
    rw [if_neg hsame, if_pos hencoding, if_pos hcreated]
    exact settled_procqueueAdd (x := { x with packet1 := some .created }) h0 rfl hnone hawaits hacc

theorem Settled.process (h : Settled x) (hacc : x.Accounted) {created : Bool} {mode : Mode}
    (ho : x.Orderly (.process created mode)) :
    ∃ x', x.step (.process created mode) = some x' ∧ Settled x' ∧ x'.Accounted := by
  cases h with
  | task p h0 h1 hone hawaits =>
      cases hd : x.dropped with
      | true => exact ⟨_, step_process_skip (.inr hd), .task p h0 h1 hone rfl, hacc⟩
      | false =>
          have hpending := (ho hd p h0).1
          unfold pending at hpending
          omega
  | waiting p h0 h1 hnone _ hdropped =>
      obtain ⟨_, hok⟩ := ho hdropped p h0
      rw [step_process h0 hdropped]
      exact settled_process (x := { x with awaits := false }) h0 hnone rfl hacc hok
  | empty h0 h1 hnone _ =>
      exact ⟨_, step_process_skip (.inl h0), .empty h0 h1 hnone rfl, hacc⟩

theorem Settled.step (h : Settled x) (hacc : x.Accounted) (ho : x.Orderly st) :
    ∃ x', x.step st = some x' ∧ Settled x' ∧ x'.Accounted := by
  cases st with
  | register packet =>
      refine ⟨_, rfl, ?_⟩
      cases h with
      | task p h0 h1 hone hawaits =>
          rw [register_of_some h0]
          exact ⟨.task p h0 h1 hone hawaits, hacc⟩
      | waiting p h0 h1 hnone hawaits _ => cases hawaits.symm.trans ho
      | empty h0 h1 hnone hawaits =>
          unfold Accounted at hacc
          rw [h0, Option.toList_none, List.append_nil] at hacc
          rw [register_of_none h0]
          cases packet with
          | none =>
              refine ⟨.empty rfl h1 hnone rfl, ?_⟩
              show (x.released ++ []).Perm (x.accepted ++ [])
              rwa [List.append_nil, List.append_nil]
          | some p => exact ⟨.waiting p rfl h1 hnone rfl rfl, List.Perm.append_right [p] hacc⟩
  | process created mode => exact h.process hacc ho
  | dim w h' =>
      refine ⟨_, rfl, ?_, hacc⟩
      cases h with
      | task p h0 h1 hone hawaits => exact .task p h0 h1 hone hawaits
      | waiting p h0 h1 hnone hawaits hdropped => exact .waiting p h0 h1 hnone hawaits hdropped
      | empty h0 h1 hnone hawaits => exact .empty h0 h1 hnone hawaits
  | work =>
      unfold Scale.step
      by_cases hqueued : x.queued = 0
      · exact ⟨x, if_pos hqueued, h, hacc⟩
      · cases h with
        | task p h0 h1 hone hawaits =>
            have hmethod : x.processMethod = some x := by
              unfold processMethod
              rw [h0, h1]
              rfl
            dsimp only
            rw [if_neg hqueued, hmethod]
            refine ⟨_, rfl, .task p h0 h1 ?_ hawaits, hacc⟩
            show x.queued - 1 + (x.processed + 1) = 1
            omega
        | waiting p h0 h1 hnone _ _ => omega
        | empty h0 h1 hnone _ => omega
  | callback =>
      unfold Scale.step
      by_cases hprocessed : x.processed = 0
      · exact ⟨x, if_pos hprocessed, h, hacc⟩
      · cases h with
        | task p h0 h1 hone hawaits =>
            refine ⟨_, if_neg hprocessed, ?_⟩
            refine settled_sendpacket (x := { x with processed := x.processed - 1 }) h1 ?_
              hawaits hacc
            show x.queued + (x.processed - 1) = 0
            omega
        | waiting p h0 h1 hnone _ _ => omega
        | empty h0 h1 hnone _ => omega

theorem Settled.run (h : Settled x) (hacc : x.Accounted) (hl : x.AllOrderly l) :
    ∃ x', Scale.run l x = some x' ∧ Settled x' ∧ x'.Accounted := by
  induction l generalizing x with
  | nil => exact ⟨x, rfl, h, hacc⟩
  | cons st l ih =>
      obtain ⟨x₁, hstep, h₁, hacc₁⟩ := h.step hacc hl.1
      obtain ⟨x', hrun, h'⟩ := ih h₁ hacc₁ (hl.2 x₁ hstep)
      refine ⟨x', ?_, h'⟩
      rw [Scale.run, hstep, Option.bind_some, hrun]

/-- The steps of the queue for the task that there is. -/
theorem Settled.advances (h : Settled x) (hpending : 0 < x.pending) :
    ∃ st x', (st = .work ∨ st = .callback) ∧ x.step st = some x' ∧ x'.pending < x.pending := by
  unfold pending at hpending
  cases h with
  | task p h0 h1 hone hawaits =>
      by_cases hqueued : x.queued = 0
      · refine ⟨.callback, _, .inr rfl, if_neg (by omega), ?_⟩
        unfold sendpacket passIfValid pending
        simp only [h1]
        omega
      · have hmethod : x.processMethod = some x := by
          unfold processMethod
          rw [h0, h1]
          rfl
        refine ⟨.work, { x with queued := x.queued - 1, processed := x.processed + 1 }, .inl rfl,
          ?_, ?_⟩
        · show (if x.queued = 0 then some x else x.processMethod.map _) = _
          rw [if_neg hqueued, hmethod]
          rfl
        · show 2 * (x.queued - 1) + (x.processed + 1) < 2 * x.queued + x.processed
          omega
  | waiting p h0 h1 hnone _ _ => omega
  | empty h0 h1 hnone _ => omega

theorem Settled.steady (h : Settled x) (hpending : 0 < x.pending) (ho : x.Orderly st)
    (hstep : x.step st = some x') : x'.pending ≤ x.pending := by
  unfold pending at hpending
  cases h with
  | task p h0 h1 hone hawaits =>
      cases st with
      | register packet =>
          obtain rfl := Option.some.inj hstep
          rw [register_of_some h0]
          exact Nat.le_refl _
      | process created mode =>
          cases hd : x.dropped with
          | true =>
              obtain rfl := Option.some.inj ((step_process_skip (.inr hd)).symm.trans hstep)
              exact Nat.le_refl _
          | false =>
              have hzero := (ho hd p h0).1
              unfold pending at hzero
              omega
      | dim w h' =>
          obtain rfl := Option.some.inj hstep
          exact Nat.le_refl _
      | work =>
          by_cases hqueued : x.queued = 0
          · obtain rfl := Option.some.inj ((if_pos hqueued).symm.trans hstep)
            exact Nat.le_refl _
          · obtain ⟨x₁, hmethod, rfl⟩ :=
              Option.map_eq_some_iff.mp ((if_neg hqueued).symm.trans hstep)
            unfold processMethod at hmethod
            obtain ⟨_, hx⟩ := Option.ite_none_right_eq_some.mp hmethod
            obtain rfl := Option.some.inj hx
            show 2 * (x.queued - 1) + (x.processed + 1) ≤ 2 * x.queued + x.processed
            omega
      | callback =>
          by_cases hprocessed : x.processed = 0
          · obtain rfl := Option.some.inj ((if_pos hprocessed).symm.trans hstep)
            exact Nat.le_refl _
          · obtain rfl := Option.some.inj ((if_neg hprocessed).symm.trans hstep)
            unfold sendpacket passIfValid
            simp only [h1]
            show 2 * x.queued + (x.processed - 1) ≤ 2 * x.queued + x.processed
            omega
  | waiting p h0 h1 hnone _ _ => omega
  | empty h0 h1 hnone _ => omega

theorem Settled.packet0_eq_none (h : Settled x) (hpending : x.pending = 0)
    (hawaits : x.awaits = false) : x.packet0 = none := by
  unfold pending at hpending
  cases h with
  | task p _ _ hone _ => omega
  | waiting p _ _ _ hwaits _ => cases hwaits.symm.trans hawaits
  | empty h0 _ _ _ => exact h0

/-- In every orderly run no header is missing, and the object never gets stuck. -/
theorem scale_live (hl : new.AllOrderly l) : ∃ x, Scale.run l new = some x ∧ x.Live := by
  have hnew : Accounted new := .refl _
  obtain ⟨x, hrun, h, hacc⟩ := Settled.run (.empty rfl rfl rfl rfl) hnew hl
  refine ⟨x, hrun, hacc, h.advances, fun _ _ => h.steady, h.packet0_eq_none,
    fun hpending hawaits p => ?_⟩
  refine ⟨_, rfl, ?_⟩
  rw [register_of_none (h.packet0_eq_none hpending hawaits)]
  exact ⟨rfl, rfl⟩

end Step

/-- A grey image is scaled, and meanwhile another one is dropped. -/
theorem scale_live_grey : ∃ x, Scale.run [.register (some ⟨pdpImage, pdpImageGREY, 64, 64⟩),
    .process true .queued, .register (some ⟨pdpImage, pdpImageYV12, 64, 64⟩),
    .process true .queued, .work, .callback] new = some x ∧ x.Live := by
  refine scale_live ⟨rfl, fun x₁ h₁ => ?_⟩
  obtain rfl := Option.some.inj h₁
  refine ⟨fun _ p hp => ?_, fun x₂ h₂ => ?_⟩
  · obtain rfl := Option.some.inj hp
    exact ⟨rfl, rfl, .inr ⟨.inr rfl, rfl⟩⟩
  obtain rfl := Option.some.inj h₂
  refine ⟨rfl, fun x₃ h₃ => ?_⟩
  obtain rfl := Option.some.inj h₃
  refine ⟨fun hd => (by cases hd), fun x₄ h₄ => ?_⟩
  obtain rfl := Option.some.inj h₄
  refine ⟨trivial, fun x₅ h₅ => ⟨trivial, fun x₆ h₆ => trivial⟩⟩

/-- A multi-channel image is kept for ever, and nothing is accepted after it. -/
theorem not_scale_live : ¬∀ l, ∃ x, Scale.run l new = some x ∧ x.Live := by
  intro h
  obtain ⟨x, hrun, hlive⟩ := h [.register (some ⟨pdpImage, pdpImageMCHP, 64, 64⟩),
    .process true .queued]
  obtain rfl := Option.some.inj hrun
  cases hlive.empty rfl rfl

end Scale

end PureDataPacket
