/-
# `PureDataPacket.Object.Rawout` — packets are written to a pipe by a thread

The main thread puts packets into a queue, and the writer takes them out and writes them.  A
reference belongs to the queue, then to the writer; whoever has it last has to mark the packet
unused.

A step is what one thread does between two accesses of the other one to `x_queue`, `x_giveup` or
`x_done`.  The main thread waits in `pthread_join` while the writer goes on.

| | |
| :-- | :-- |
| `Accounted` | what is owed |
| `Placed` | who is where, whatever calls fail |
| `AllSent` | no step of a run abandons its packet |
| `Placed.work_lt` | each step brings the writer closer to its end |
-/
import Mathlib.Data.List.Perm.Basic
import Mathlib.Tactic.Common

namespace PureDataPacket

/-- What `write` answers. -/
inductive WriteAnswer where
  /-- not more than 0, and `errno` is `EAGAIN` -/
  | again
  /-- not more than 0, and `errno` is something else -/
  | failed
  | bytes (n : Nat)
  deriving DecidableEq

inductive WriteSelect where
  /-- -1 -/
  | failed
  | timeout
  | ready (write : WriteAnswer)
  deriving DecidableEq

/-- Where the writer is. -/
inductive WriterAt where
  /-- there is no thread -/
  | none
  | opening
  /-- at the test of `x_queue->elements` -/
  | polling
  /-- before `pdp_list_pop` -/
  | popping
  /-- in the inner loop -/
  | sending (packet : Int) (left : Nat)
  /-- it has returned -/
  | finished
  deriving DecidableEq

/-- Where the main thread is. -/
inductive MainAt where
  | idle
  /-- in `pthread_join`, on behalf of `rawout_close` or of `rawout_free` -/
  | joining (free : Bool)
  | freed
  deriving DecidableEq

/-- `t_rawout`, and where the threads are. -/
structure Rawout where
  queue : List Int
  giveup : Bool
  active : Bool
  done : Bool
  maxQueuesize : Int
  writer : WriterAt
  main : MainAt
  /-- what was ever put into the queue -/
  received : List Int
  /-- what was taken out and marked unused -/
  released : List Int
  deriving DecidableEq

inductive RawoutAct where
  /-- `pdp_in` with `register_ro`; `pdp_packet_copy_ro` returns `p` -/
  | register (p : Int)
  /-- the end of `pdp_in`, and `rawout_tick` -/
  | checkDone
  | queuesize (n : Int)
  | openPipe
  | close
  | free
  /-- `pthread_join` returns -/
  | joined
  /-- the writer has called `open` -/
  | opened (ok : Bool)
  | poll
  /-- `pdp_list_pop`; the packet has `size` bytes -/
  | pop (size : Nat)
  /-- a round of the inner loop -/
  | round (answer : WriteSelect)
  deriving DecidableEq

namespace Rawout

/-- `rawout_init`. -/
def new : Rawout := ⟨[], false, false, false, 100, .none, .idle, [], []⟩

/-- `clear_queue`. -/
def clearQueue (x : Rawout) : Rawout :=
  { x with
    queue := []
    released := x.released ++ x.queue }

/-- `rawout_close`, as far as `pthread_join`. -/
def close (x : Rawout) : Rawout :=
  if x.active then { x with giveup := true, main := .joining false } else x

/-- The end of `rawout_free`. -/
def finishFree (x : Rawout) : Rawout := { x.clearQueue with main := .freed }

/-- `rawout_free`, as far as `pthread_join`. -/
def free (x : Rawout) : Rawout :=
  if x.active then { x with giveup := true, main := .joining true } else x.finishFree

/-- The end of `rawout_stopthread`, and of what called it. -/
def join (free : Bool) (x : Rawout) : Rawout :=
  let x := { x with writer := .none, active := false, main := .idle }.clearQueue
  if free then x.finishFree else x

/-- `rawout_open`. -/
def openPipe (x : Rawout) : Rawout :=
  if x.active then x
  else { x.clearQueue with giveup := false, done := false, writer := .opening, active := true }

/-- `pdp_in` with `register_ro`. -/
def register (p : Int) (x : Rawout) : Rawout :=
  if (x.queue.length : Int) < x.maxQueuesize then
    if p ≠ -1 then { x with queue := x.queue ++ [p], received := x.received ++ [p] } else x
  else x

/-- The test of the outer loop. -/
def poll (x : Rawout) : Rawout :=
  if x.queue = [] then
    if x.giveup then { x with writer := .finished, done := true } else x
  else { x with writer := .popping }

/-- `pdp_packet_mark_unused(packet)` after the inner loop. -/
def discard (packet : Int) (x : Rawout) : Rawout :=
  { x with released := x.released ++ [packet], writer := .polling }

/-- `while (left)`. -/
def sendLoop (packet : Int) (left : Nat) (x : Rawout) : Rawout :=
  if left = 0 then x.discard packet else { x with writer := .sending packet left }

/-- A round of the inner loop. -/
def round (packet : Int) (left : Nat) (answer : WriteSelect) (x : Rawout) : Rawout :=
  if x.giveup then
    { x with released := x.released ++ [packet], writer := .finished, done := true }
  else
    match answer with
    | .failed => { x with writer := .finished, done := true }
    | .timeout => x
    | .ready .again => x
    | .ready .failed => { x with writer := .finished, done := true }
    | .ready (.bytes n) => x.sendLoop packet (left - n)

/-- A step; none when the thread is elsewhere, or nothing is in the list that is popped. -/
def step (x : Rawout) : RawoutAct → Option Rawout
  | .register p => if x.main = .idle then some (x.register p) else none
  | .checkDone => if x.main = .idle then some (if x.done then x.close else x) else none
  | .queuesize n => if x.main = .idle then some { x with maxQueuesize := n } else none
  | .openPipe => if x.main = .idle then some x.openPipe else none
  | .close => if x.main = .idle then some x.close else none
  | .free => if x.main = .idle then some x.free else none
  | .joined =>
      match x.main, x.writer with
      | .joining free, .finished => some (x.join free)
      | _, _ => none
  | .opened ok =>
      if x.writer = .opening then
        some (if ok then { x with writer := .polling }
          else { x with writer := .finished, done := true })
      else none
  | .poll => if x.writer = .polling then some x.poll else none
  | .pop size =>
      match x.writer, x.queue with
      | .popping, packet :: rest => some ({ x with queue := rest }.sendLoop packet size)
      | _, _ => none
  | .round answer =>
      match x.writer with
      | .sending packet left => some (x.round packet left answer)
      | _ => none

def run : List RawoutAct → Rawout → Option Rawout
  | [], x => some x
  | a :: l, x => (x.step a).bind (run l)

/-- What the writer has taken out of the queue. -/
def inHand (x : Rawout) : List Int :=
  match x.writer with
  | .sending packet _ => [packet]
  | _ => []

/-! ## What is meant to become of a reference -/

/-- Every reference is in one place or has been released, and in the end all have been. -/
structure Accounted (x : Rawout) : Prop where
  once : (x.released ++ x.inHand ++ x.queue).Perm x.received
  freed : x.main = .freed → x.released.Perm x.received

/-- An answer that makes the writer leave both loops. -/
def WriteSelect.Fails (answer : WriteSelect) : Prop :=
  answer = .failed ∨ answer = .ready .failed

/-- A call of the writer fails while it sends a packet. -/
def Abandons (x : Rawout) (a : RawoutAct) : Prop :=
  x.giveup = false ∧ ∃ answer, a = .round answer ∧ WriteSelect.Fails answer

/-- No step of a run abandons its packet. -/
def AllSent : List RawoutAct → Rawout → Prop
  | [], _ => True
  | a :: l, x => ¬x.Abandons a ∧ ∀ x', x.step a = some x' → AllSent l x'

/-! ## The threads -/

/-- Who is where, whatever calls fail. -/
structure Placed (x : Rawout) : Prop where
  inactive : x.active = false → x.writer = .none
  active : x.active = true → x.writer ≠ .none
  joining : ∀ free, x.main = .joining free → x.active = true ∧ x.giveup = true
  popping : x.writer = .popping → x.queue ≠ []
  freed : x.main = .freed → x.active = false ∧ x.queue = []

section Step

variable {x x' : Rawout} {a : RawoutAct} {l : List RawoutAct}

theorem of_guard {P : Prop} [Decidable P] {y : Rawout}
    (h : (if P then some y else none) = some x') : P ∧ y = x' := by
  obtain ⟨hP, hy⟩ := Option.ite_none_right_eq_some.mp h
  exact ⟨hP, Option.some.inj hy⟩

theorem step_joined (h : x.step .joined = some x') :
    ∃ free, x.main = .joining free ∧ x.writer = .finished ∧ x' = x.join free := by
  simp only [Rawout.step] at h
  split at h
  · next free hmain hwriter => exact ⟨free, hmain, hwriter, (Option.some.inj h).symm⟩
  · cases h

theorem step_pop {size : Nat} (h : x.step (.pop size) = some x') :
    ∃ packet rest, x.writer = .popping ∧ x.queue = packet :: rest ∧
      x' = { x with queue := rest }.sendLoop packet size := by
  simp only [Rawout.step] at h
  split at h
  · next packet rest hwriter hqueue =>
      exact ⟨packet, rest, hwriter, hqueue, (Option.some.inj h).symm⟩
  · cases h

theorem step_round {answer : WriteSelect} (h : x.step (.round answer) = some x') :
    ∃ packet left, x.writer = .sending packet left ∧ x' = x.round packet left answer := by
  simp only [Rawout.step] at h
  split at h
  · next packet left hwriter => exact ⟨packet, left, hwriter, (Option.some.inj h).symm⟩
  · cases h

theorem placed_new : Placed new :=
  ⟨fun _ => rfl, (fun h => by cases h), (fun _ h => by cases h), (fun h => by cases h),
    fun h => by cases h⟩

theorem Placed.close (h : Placed x) : Placed x.close := by
  unfold Rawout.close
  split
  · next hactive =>
      exact ⟨h.inactive, h.active, fun _ _ => ⟨hactive, rfl⟩, h.popping, fun he => by cases he⟩
  · exact h

theorem Placed.free (h : Placed x) : Placed x.free := by
  unfold Rawout.free
  split
  · next hactive =>
      exact ⟨h.inactive, h.active, fun _ _ => ⟨hactive, rfl⟩, h.popping, fun he => by cases he⟩
  · next hactive =>
      have hnone := h.inactive (by simpa using hactive)
      exact ⟨h.inactive, h.active, (fun _ he => by cases he),
        (fun he => by cases hnone.symm.trans he),
        fun _ => ⟨show x.active = false by simpa using hactive, rfl⟩⟩

/-- The writer has moved, and is neither gone nor popping. -/
theorem Placed.moved (h : Placed x) (hactive : x.writer ≠ .none) {writer : WriterAt}
    {done : Bool} {released : List Int} (hne : writer ≠ .none) (hpop : writer ≠ .popping) :
    Placed { x with writer := writer, done := done, released := released } where
  inactive hin := absurd (h.inactive hin) hactive
  active _ := hne
  joining := h.joining
  popping he := absurd he hpop
  freed := h.freed

theorem Placed.sendLoop (h : Placed x) (hactive : x.writer ≠ .none) (packet : Int) (left : Nat) :
    Placed (x.sendLoop packet left) := by
  unfold Rawout.sendLoop
  split
  · exact h.moved hactive (by decide) (by decide)
  · exact h.moved hactive (fun he => by cases he) fun he => by cases he

theorem Placed.step (h : Placed x) (hstep : x.step a = some x') : Placed x' := by
  cases a with
  | register p =>
      obtain ⟨hmain, rfl⟩ := of_guard hstep
      unfold Rawout.register
      split
      · split
        · exact ⟨h.inactive, h.active, h.joining, (fun _ he => by cases List.append_eq_nil_iff.mp he
            |>.2), fun he => by cases hmain.symm.trans he⟩
        · exact h
      · exact h
  | checkDone =>
      obtain ⟨hmain, rfl⟩ := of_guard hstep
      split
      · exact h.close
      · exact h
  | queuesize n =>
      obtain ⟨hmain, rfl⟩ := of_guard hstep
      exact ⟨h.inactive, h.active, h.joining, h.popping, h.freed⟩
  | openPipe =>
      obtain ⟨hmain, rfl⟩ := of_guard hstep
      unfold Rawout.openPipe
      split
      · exact h
      · exact ⟨(fun he => by cases he), (fun _ he => by cases he),
          (fun _ he => by cases hmain.symm.trans he), (fun he => by cases he),
          fun he => by cases hmain.symm.trans he⟩
  | close =>
      obtain ⟨hmain, rfl⟩ := of_guard hstep
      exact h.close
  | free =>
      obtain ⟨hmain, rfl⟩ := of_guard hstep
      exact h.free
  | joined =>
      obtain ⟨free, hmain, hwriter, rfl⟩ := step_joined hstep
      cases free with
      | false =>
          exact ⟨fun _ => rfl, (fun he => by cases he), (fun _ he => by cases he),
            (fun he => by cases he), fun he => by cases he⟩
      | true =>
          exact ⟨fun _ => rfl, (fun he => by cases he), (fun _ he => by cases he),
            (fun he => by cases he), fun _ => ⟨rfl, rfl⟩⟩
  | opened ok =>
      obtain ⟨hwriter, rfl⟩ := of_guard hstep
      have hactive : x.writer ≠ .none := fun he => by cases hwriter.symm.trans he
      split
      · exact h.moved hactive (by decide) (by decide)
      · exact h.moved hactive (by decide) (by decide)
  | poll =>
      obtain ⟨hwriter, rfl⟩ := of_guard hstep
      have hactive : x.writer ≠ .none := fun he => by cases hwriter.symm.trans he
      unfold Rawout.poll
      split
      · split
        · exact h.moved hactive (by decide) (by decide)
        · exact h
      · next hqueue =>
          exact ⟨fun hin => absurd (h.inactive hin) hactive, (fun _ he => by cases he), h.joining,
            fun _ => hqueue, h.freed⟩
  | pop size =>
      obtain ⟨packet, rest, hwriter, hqueue, rfl⟩ := step_pop hstep
      have hactive : x.writer ≠ .none := fun he => by cases hwriter.symm.trans he
      have hfreed : x.main ≠ .freed := fun he => by cases hqueue.symm.trans (h.freed he).2
      unfold Rawout.sendLoop
      split
      · exact ⟨fun hin => absurd (h.inactive hin) hactive, (fun _ he => by cases he),
          h.joining, (fun he => by cases he), fun he => absurd he hfreed⟩
      · exact ⟨fun hin => absurd (h.inactive hin) hactive, (fun _ he => by cases he),
          h.joining, (fun he => by cases he), fun he => absurd he hfreed⟩
  | round answer =>
      obtain ⟨packet, left, hwriter, rfl⟩ := step_round hstep
      have hactive : x.writer ≠ .none := fun he => by cases hwriter.symm.trans he
      unfold Rawout.round
      split
      · exact h.moved hactive (by decide) (by decide)
      · cases answer with
        | failed => exact h.moved hactive (by decide) (by decide)
        | timeout => exact h
        | ready write =>
            cases write with
            | again => exact h
            | failed => exact h.moved hactive (by decide) (by decide)
            | bytes n => exact h.sendLoop hactive _ _

/-! ## The references -/

def Kept (x : Rawout) : Prop := (x.released ++ x.inHand ++ x.queue).Perm x.received

theorem inHand_eq_nil (h : ∀ packet left, x.writer ≠ .sending packet left) : x.inHand = [] := by
  unfold inHand
  split
  · next packet left hwriter => exact absurd hwriter (h packet left)
  · rfl

/-- While the writer sends no packet, all are in the queue or have been released. -/
theorem Kept.noneInHand (h : Kept x) (hidle : ∀ packet left, x.writer ≠ .sending packet left) :
    (x.released ++ [] ++ x.queue).Perm x.received := by
  unfold Kept at h
  rwa [inHand_eq_nil hidle] at h

theorem kept_clear {released queue received : List Int}
    (h : (released ++ [] ++ queue).Perm received) :
    ((released ++ queue) ++ [] ++ []).Perm received := by
  rw [List.append_nil] at h
  rwa [List.append_nil, List.append_nil]

theorem Kept.finishFree (h : Kept x) (hwriter : x.writer = .none) : Kept x.finishFree := by
  have hidle : ∀ packet left, x.writer ≠ .sending packet left := fun _ _ he => by
    cases hwriter.symm.trans he
  have hhand : x.finishFree.inHand = [] := inHand_eq_nil hidle
  unfold Kept
  rw [hhand]
  exact kept_clear (h.noneInHand hidle)

theorem Kept.register (h : Kept x) (p : Int) : Kept (x.register p) := by
  unfold Rawout.register
  split
  · split
    · show (x.released ++ x.inHand ++ (x.queue ++ [p])).Perm (x.received ++ [p])
      rw [← List.append_assoc]
      exact List.Perm.append_right _ h
    · exact h
  · exact h

theorem Kept.close (h : Kept x) : Kept x.close := by
  unfold Rawout.close
  split
  · exact h
  · exact h

theorem Kept.openPipe (h : Kept x) (hplaced : Placed x) : Kept x.openPipe := by
  unfold Rawout.openPipe
  split
  · exact h
  · next hactive =>
      have hwriter := hplaced.inactive (by simpa using hactive)
      exact kept_clear (h.noneInHand fun _ _ he => by cases hwriter.symm.trans he)

/-- The writer starts to send a packet that it holds, or has sent it. -/
theorem kept_sendLoop {packet : Int} {left : Nat}
    (h : (x.released ++ [packet] ++ x.queue).Perm x.received) : Kept (x.sendLoop packet left) := by
  unfold Rawout.sendLoop
  split
  · show (x.released ++ [packet] ++ [] ++ x.queue).Perm x.received
    rwa [List.append_nil]
  · exact h

theorem Kept.step (h : Kept x) (hplaced : Placed x) (hstep : x.step a = some x')
    (hsent : ¬x.Abandons a) : Kept x' := by
  cases a with
  | register p =>
      obtain ⟨_, rfl⟩ := of_guard hstep
      exact h.register p
  | checkDone =>
      obtain ⟨_, rfl⟩ := of_guard hstep
      split
      · exact h.close
      · exact h
  | queuesize n =>
      obtain ⟨_, rfl⟩ := of_guard hstep
      exact h
  | openPipe =>
      obtain ⟨_, rfl⟩ := of_guard hstep
      exact h.openPipe hplaced
  | close =>
      obtain ⟨_, rfl⟩ := of_guard hstep
      exact h.close
  | free =>
      obtain ⟨_, rfl⟩ := of_guard hstep
      unfold Rawout.free
      split
      · exact h
      · next hactive => exact h.finishFree (hplaced.inactive (by simpa using hactive))
  | joined =>
      obtain ⟨free, _, hwriter, rfl⟩ := step_joined hstep
      have hclear : Kept { x with writer := .none, active := false, main := .idle }.clearQueue :=
        kept_clear (h.noneInHand fun _ _ he => by cases hwriter.symm.trans he)
      cases free with
      | false => exact hclear
      | true => exact hclear.finishFree rfl
  | opened ok =>
      obtain ⟨hwriter, rfl⟩ := of_guard hstep
      have h' := h.noneInHand fun _ _ he => by cases hwriter.symm.trans he
      split
      · exact h'
      · exact h'
  | poll =>
      obtain ⟨hwriter, rfl⟩ := of_guard hstep
      have h' := h.noneInHand fun _ _ he => by cases hwriter.symm.trans he
      unfold Rawout.poll
      split
      · split
        · exact h'
        · exact h
      · exact h'
  | pop size =>
      obtain ⟨packet, rest, hwriter, hqueue, rfl⟩ := step_pop hstep
      have h' := h.noneInHand fun _ _ he => by cases hwriter.symm.trans he
      rw [hqueue, List.append_nil] at h'
      refine kept_sendLoop ?_
      show (x.released ++ [packet] ++ rest).Perm x.received
      rwa [List.append_assoc]
  | round answer =>
      obtain ⟨packet, left, hwriter, rfl⟩ := step_round hstep
      have hhand : x.inHand = [packet] := by
        unfold inHand
        rw [hwriter]
      have h' := h
      unfold Kept at h'
      rw [hhand] at h'
      unfold Rawout.round
      split
      · show (x.released ++ [packet] ++ [] ++ x.queue).Perm x.received
        rwa [List.append_nil]
      · next hgiveup =>
          have hgood : ¬WriteSelect.Fails answer := fun hfails =>
            hsent ⟨by simpa using hgiveup, answer, rfl, hfails⟩
          cases answer with
          | failed => exact absurd (.inl rfl) hgood
          | timeout => exact h
          | ready write =>
              cases write with
              | again => exact h
              | failed => exact absurd (.inr rfl) hgood
              | bytes n => exact kept_sendLoop h'

theorem kept_run (h : Kept x) (hplaced : Placed x) (hsent : x.AllSent l)
    (hrun : run l x = some x') : Kept x' ∧ Placed x' := by
  induction l generalizing x with
  | nil =>
      obtain rfl := Option.some.inj hrun
      exact ⟨h, hplaced⟩
  | cons a l ih =>
      obtain ⟨x₁, hstep, hrest⟩ := Option.bind_eq_some_iff.mp hrun
      exact ih (h.step hplaced hstep hsent.1) (hplaced.step hstep) (hsent.2 x₁ hstep) hrest

/-! ## The end of the writer -/

/-- How long the writer can go on when it is to give up. -/
def work (x : Rawout) : Nat :=
  match x.writer with
  | .none => 0
  | .opening => 2 * x.queue.length + 2
  | .polling => 2 * x.queue.length + 1
  | .popping => 2 * x.queue.length
  | .sending _ _ => 2 * x.queue.length + 1
  | .finished => 0

/-- While the main thread waits, each step is one of the writer, and brings it closer to its
end. -/
theorem Placed.work_lt (h : Placed x) {free : Bool} (hmain : x.main = .joining free)
    (hstep : x.step a = some x') (hne : a ≠ .joined) :
    x'.main = .joining free ∧ x'.work < x.work := by
  have hidle : x.main ≠ .idle := fun he => by cases hmain.symm.trans he
  have hgiveup := (h.joining free hmain).2
  cases a with
  | register p => exact absurd (of_guard hstep).1 hidle
  | checkDone => exact absurd (of_guard hstep).1 hidle
  | queuesize n => exact absurd (of_guard hstep).1 hidle
  | openPipe => exact absurd (of_guard hstep).1 hidle
  | close => exact absurd (of_guard hstep).1 hidle
  | free => exact absurd (of_guard hstep).1 hidle
  | joined => exact absurd rfl hne
  | opened ok =>
      obtain ⟨hwriter, rfl⟩ := of_guard hstep
      simp only [work, hwriter]
      cases ok with
      | true => exact ⟨hmain, show 2 * x.queue.length + 1 < 2 * x.queue.length + 2 by omega⟩
      | false => exact ⟨hmain, show 0 < 2 * x.queue.length + 2 by omega⟩
  | poll =>
      obtain ⟨hwriter, rfl⟩ := of_guard hstep
      unfold Rawout.poll
      simp only [work, hwriter]
      by_cases hqueue : x.queue = []
      · rw [if_pos hqueue, if_pos hgiveup]
        exact ⟨hmain, show 0 < 2 * x.queue.length + 1 by omega⟩
      · rw [if_neg hqueue]
        exact ⟨hmain, show 2 * x.queue.length < 2 * x.queue.length + 1 by omega⟩
  | pop size =>
      obtain ⟨packet, rest, hwriter, hqueue, rfl⟩ := step_pop hstep
      have hlt : 2 * rest.length + 1 < 2 * x.queue.length := by
        rw [hqueue, List.length_cons]
        omega
      unfold Rawout.sendLoop
      simp only [work, hwriter]
      split
      · exact ⟨hmain, hlt⟩
      · exact ⟨hmain, hlt⟩
  | round answer =>
      obtain ⟨packet, left, hwriter, rfl⟩ := step_round hstep
      unfold Rawout.round
      simp only [work, hwriter]
      rw [if_pos hgiveup]
      exact ⟨hmain, show 0 < 2 * x.queue.length + 1 by omega⟩

/-- Something can always be done while the main thread waits. -/
theorem Placed.can_step (h : Placed x) {free : Bool} (hmain : x.main = .joining free) :
    ∃ a x', x.step a = some x' := by
  cases hwriter : x.writer with
  | none => exact absurd hwriter (h.active (h.joining free hmain).1)
  | opening => exact ⟨.opened true, _, if_pos hwriter⟩
  | polling => exact ⟨.poll, _, if_pos hwriter⟩
  | popping =>
      obtain ⟨packet, rest, hqueue⟩ := List.exists_cons_of_ne_nil (h.popping hwriter)
      refine ⟨.pop 0, { x with queue := rest }.sendLoop packet 0, ?_⟩
      simp only [Rawout.step, hwriter, hqueue]
  | sending packet left =>
      refine ⟨.round .timeout, x.round packet left .timeout, ?_⟩
      simp only [Rawout.step, hwriter]
  | finished =>
      refine ⟨.joined, x.join free, ?_⟩
      simp only [Rawout.step, hmain, hwriter]

/-- The waiting comes to an end. -/
structure Ends (x : Rawout) : Prop where
  can : ∀ free, x.main = .joining free → ∃ a x', x.step a = some x'
  less : ∀ free a x', x.main = .joining free → x.step a = some x' → a ≠ .joined →
    x'.main = .joining free ∧ x'.work < x.work

/-- If no call fails while a packet is sent, each reference is released once. -/
theorem released_once (hsent : new.AllSent l) (hrun : run l new = some x) :
    x.Accounted ∧ x.Ends := by
  have hnew : Kept new := .refl _
  obtain ⟨hkept, hplaced⟩ := kept_run hnew placed_new hsent hrun
  refine ⟨⟨hkept, fun hfreed => ?_⟩, fun _ => hplaced.can_step, fun _ _ _ => hplaced.work_lt⟩
  obtain ⟨hactive, hqueue⟩ := hplaced.freed hfreed
  have hwriter := hplaced.inactive hactive
  have hhand : x.inHand = [] := inHand_eq_nil fun _ _ he => by cases hwriter.symm.trans he
  unfold Kept at hkept
  rwa [hhand, hqueue, List.append_nil, List.append_nil] at hkept

end Step

/-- A run in which two packets are taken, one in two parts, and one is left in the queue. -/
def threePackets : List RawoutAct :=
  [.openPipe, .opened true, .register 1, .register 2, .poll, .register 3, .pop 8,
    .round .timeout, .round (.ready (.bytes 5)), .round (.ready .again),
    .round (.ready (.bytes 3)), .poll, .pop 8, .free, .round (.ready (.bytes 1)), .joined]

theorem released_once_threePackets : ∃ x, run threePackets new = some x ∧ x.main = .freed ∧
    x.received = [1, 2, 3] ∧ x.Accounted ∧ x.Ends := by
  have hrun : run threePackets new =
      some ⟨[], true, false, true, 100, .none, .freed, [1, 2, 3], [1, 2, 3]⟩ := by decide
  have hsent : ∀ a ∈ threePackets, a ≠ .round .failed ∧ a ≠ .round (.ready .failed) := by decide
  have hall : ∀ l x, (∀ a ∈ l, a ≠ .round .failed ∧ a ≠ .round (.ready .failed)) →
      Rawout.AllSent l x := by
    intro l
    induction l with
    | nil => exact fun _ _ => trivial
    | cons a l ih =>
        refine fun x hl => ⟨?_, fun x' _ => ih x' fun b hb => hl b (List.mem_cons_of_mem _ hb)⟩
        rintro ⟨_, answer, rfl, rfl | rfl⟩
        · exact (hl _ List.mem_cons_self).1 rfl
        · exact (hl _ List.mem_cons_self).2 rfl
  exact ⟨_, hrun, rfl, rfl, released_once (hall threePackets new hsent) hrun⟩

/-- The reader closes the pipe, and the packet that was being written is never released. -/
theorem not_released_once : ¬∀ l x, run l new = some x → x.Accounted := by
  intro h
  have hrun : run [.openPipe, .opened true, .register 7, .poll, .pop 4, .round (.ready .failed),
      .free, .joined] new = some ⟨[], true, false, true, 100, .none, .freed, [7], []⟩ := by decide
  have hperm := (h _ _ hrun).freed rfl
  exact absurd hperm.length_eq (by decide)

end Rawout

end PureDataPacket
