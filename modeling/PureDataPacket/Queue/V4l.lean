/-
# `PureDataPacket.Queue.V4l` — frames from a driver, by way of a ring

The capture thread dequeues a frame from the driver, gives its buffer back at once, and posts a
semaphore; the reader takes the buffer at its own index of the ring.  The driver has an index of its
own, which the thread does not look at.

| | |
| :-- | :-- |
| `InStep` | what ties the three indices together |
| `next_right` | which frames the reader finds in the buffers it is given, and who else has these |

The writer's index does not move when a frame is dropped, and does move when there was none: then
the three indices are apart.
-/
import Mathlib.Data.List.Rotate
import Mathlib.Data.Nat.ModEq

namespace PureDataPacket

/-- The capture thread is about to call `v4l2_capture_frame`, or `v4l_notify_frame` after a frame or
after `EAGAIN`.  Frames have numbers. -/
inductive CaptureAt where
  | capture
  | notify (frame : Option Nat)

/-- A notification: its frame, and how many frames were dropped and how many notifications had no
frame until then. -/
structure Notice where
  frame : Option Nat
  dropped : Nat
  idle : Nat

/-- A pointer that the reader is given: its buffer, and whether the driver has it in its queue. -/
structure Handed where
  buffer : Nat
  queued : Bool

/-- `struct zl_v4l`, the queue of the driver, and what has happened: the buffers of the frames, the
notifications and the pointers. -/
structure V4l where
  xNbbuffers : Nat
  xFrameWr : Nat
  xFrameRd : Nat
  xFrameReadySem : Nat
  queue : List Nat
  thread : CaptureAt
  frames : List Nat
  notified : List Notice
  dropped : Nat
  idle : Nat
  given : List Handed

namespace V4l

/-- After `v4l2_init_mmap`: all buffers are in the queue. -/
def new (nbbuffers : Nat) : V4l :=
  ⟨nbbuffers, 0, 0, 0, List.range nbbuffers, .capture, [], [], 0, 0, []⟩

/-- `v4l2_capture_frame`, if there is a frame or not.  `VIDIOC_DQBUF` writes the index of the buffer
over that of the writer, so it is this one that is queued again. -/
def v4l2CaptureFrame (filled : Bool) (x : V4l) : Option V4l :=
  if filled then
    match x.queue with
    | [] => none
    | index :: queue => some { x with
        queue := queue ++ [index]
        thread := .notify (some x.frames.length)
        frames := x.frames ++ [index] }
  else some { x with thread := .notify none }

/-- `v4l_notify_frame`. -/
def v4lNotifyFrame (frame : Option Nat) (x : V4l) : V4l :=
  if x.xFrameReadySem ≥ x.xNbbuffers then { x with
    thread := .capture
    dropped := x.dropped + if frame.isSome then 1 else 0 }
  else { x with
    xFrameReadySem := x.xFrameReadySem + 1
    xFrameWr := (x.xFrameWr + 1) % x.xNbbuffers
    thread := .capture
    notified := x.notified ++ [⟨frame, x.dropped, x.idle⟩]
    idle := x.idle + if frame.isSome then 0 else 1 }

/-- `zl_v4l_next`. -/
def zlV4lNext (x : V4l) : V4l :=
  if x.xFrameReadySem = 0 then x
  else { x with
    xFrameReadySem := x.xFrameReadySem - 1
    given := x.given ++ [⟨x.xFrameRd, x.queue.contains x.xFrameRd⟩]
    xFrameRd := (x.xFrameRd + 1) % x.xNbbuffers }

inductive Act where
  | captureFrame (filled : Bool)
  | notifyFrame
  | next

def step (x : V4l) : Act → Option V4l
  | .captureFrame filled =>
      match x.thread with
      | .capture => x.v4l2CaptureFrame filled
      | .notify _ => none
  | .notifyFrame =>
      match x.thread with
      | .capture => none
      | .notify frame => some (x.v4lNotifyFrame frame)
  | .next => some x.zlV4lNext

inductive Run (nbbuffers : Nat) : V4l → Prop
  | new : Run nbbuffers (new nbbuffers)
  | step {x x' : V4l} {a : Act} : Run nbbuffers x → x.step a = some x' → Run nbbuffers x'

/-! ## What the reader is promised -/

/-- Pointer `n` is the buffer that the frame of notification `n` was dequeued from. -/
def FrameRight (x : V4l) (n : Nat) : Prop :=
  ∀ handed, x.given[n]? = some handed → ∃ notice k, x.notified[n]? = some notice ∧
    notice.frame = some k ∧ x.frames[k]? = some handed.buffer

/-- The frames of the notifications are in the order in which they were captured. -/
def CaptureOrder (x : V4l) : Prop :=
  (x.notified.filterMap Notice.frame).Pairwise (· < ·)

/-! ## The three indices -/

/-- How many frames the thread has captured and not notified or dropped yet. -/
def pending (x : V4l) : Nat :=
  match x.thread with
  | .notify (some _) => 1
  | _ => 0

/-- The queue has been turned once for each frame; the writer and the reader have each gone on once
for each notification and for each pointer. -/
structure InStep (nbbuffers : Nat) (x : V4l) : Prop where
  buffers : x.xNbbuffers = nbbuffers
  queue : x.queue = (List.range nbbuffers).rotate x.frames.length
  frames : ∀ k index, x.frames[k]? = some index → index = k % nbbuffers
  wr : x.xFrameWr = x.notified.length % nbbuffers
  rd : x.xFrameRd = x.given.length % nbbuffers
  sem : x.notified.length = x.given.length + x.xFrameReadySem
  bound : x.xFrameReadySem ≤ nbbuffers
  count : x.frames.length + x.idle = x.notified.length + x.dropped + x.pending
  thread : ∀ k, x.thread = .notify (some k) → x.frames.length = k + 1
  given : ∀ n handed, x.given[n]? = some handed →
    handed.buffer = n % nbbuffers ∧ handed.queued = true
  notice : ∀ n notice k, x.notified[n]? = some notice → notice.frame = some k →
    k + notice.idle = n + notice.dropped ∧ k < x.frames.length
  order : x.CaptureOrder
  last : ∀ k ∈ x.notified.filterMap Notice.frame, k + x.pending < x.frames.length

section Steps

variable {nbbuffers n : Nat} {x x' : V4l} {filled : Bool} {frame : Option Nat} {a : Act}

theorem inStep_new : InStep nbbuffers (new nbbuffers) where
  buffers := rfl
  queue := List.rotate_zero _ |>.symm
  frames k index h := by cases h
  wr := (Nat.zero_mod _).symm
  rd := (Nat.zero_mod _).symm
  sem := rfl
  bound := Nat.zero_le _
  count := rfl
  thread k h := by cases h
  given n handed h := by cases h
  notice n notice k h := by cases h
  order := List.Pairwise.nil
  last k h := by cases h

theorem getElem?_append_single {α : Type} {l : List α} {a b : α} (h : (l ++ [a])[n]? = some b) :
    l[n]? = some b ∨ n = l.length ∧ b = a := by
  rcases Nat.lt_trichotomy n l.length with hlt | heq | hgt
  · rw [List.getElem?_append_left hlt] at h
    exact Or.inl h
  · subst heq
    rw [List.getElem?_concat_length] at h
    exact Or.inr ⟨rfl, (Option.some.inj h).symm⟩
  · rw [List.getElem?_eq_none] at h
    · cases h
    · rw [List.length_append, List.length_singleton]
      omega

/-- The frame is in the buffer that comes next in the turn, and all buffers are in the queue
again. -/
theorem InStep.captureFrame (h : InStep nbbuffers x) (hthread : x.thread = .capture)
    (hstep : x.v4l2CaptureFrame filled = some x') : InStep nbbuffers x' := by
  have hpending : x.pending = 0 := by
    unfold pending
    rw [hthread]
  have hcount := h.count
  rw [hpending] at hcount
  unfold v4l2CaptureFrame at hstep
  split at hstep
  · split at hstep
    · cases hstep
    · next index queue hqueue =>
        cases hstep
        have hlength := congrArg List.length hqueue
        rw [h.queue, List.length_rotate, List.length_range, List.length_cons] at hlength
        have hindex : index = x.frames.length % nbbuffers := by
          have hhead : x.queue[0]? = some index := by
            rw [hqueue]
            rfl
          rw [h.queue, List.getElem?_rotate (by rw [List.length_range]; omega), List.length_range,
            Nat.zero_add, List.getElem?_range (Nat.mod_lt _ (by omega))] at hhead
          exact (Option.some.inj hhead).symm
        refine { h with queue := ?queue, frames := ?frames, count := ?count, thread := ?thread,
                        notice := ?notice, last := ?last }
        case queue =>
          change queue ++ [index] = (List.range nbbuffers).rotate (x.frames ++ [index]).length
          rw [List.length_append, List.length_singleton, ← List.rotate_rotate, ← h.queue, hqueue,
            List.rotate_cons_succ, List.rotate_zero]
        case frames =>
          intro k index' hk
          rcases getElem?_append_single hk with hk | ⟨rfl, rfl⟩
          · exact h.frames k index' hk
          · exact hindex
        case count =>
          change (x.frames ++ [index]).length + x.idle = x.notified.length + x.dropped + 1
          rw [List.length_append, List.length_singleton]
          omega
        case thread =>
          intro k hk
          obtain rfl := Option.some.inj (CaptureAt.notify.inj hk)
          exact List.length_append
        case notice =>
          intro n notice k hn hk
          obtain ⟨heq, hlt⟩ := h.notice n notice k hn hk
          refine ⟨heq, ?_⟩
          change k < (x.frames ++ [index]).length
          rw [List.length_append]
          omega
        case last =>
          intro k hk
          have hlt := h.last k hk
          change k + 1 < (x.frames ++ [index]).length
          rw [List.length_append, List.length_singleton]
          omega
  · cases hstep
    refine { h with count := ?count, thread := ?thread, last := ?last }
    case count => exact hcount
    case thread =>
      intro k hk
      cases hk
    case last =>
      intro k hk
      have hlt := h.last k hk
      rw [hpending] at hlt
      exact hlt

theorem pending_notify (hthread : x.thread = .notify frame) :
    x.pending = if frame.isSome then 1 else 0 := by
  unfold pending
  rw [hthread]
  cases frame with
  | none => rfl
  | some k => rfl

theorem InStep.drop (h : InStep nbbuffers x) (hthread : x.thread = .notify frame) :
    InStep nbbuffers { x with
      thread := .capture
      dropped := x.dropped + if frame.isSome then 1 else 0 } := by
  have hcount := h.count
  have hlast := h.last
  rw [pending_notify hthread] at hcount hlast
  refine { h with count := ?count, thread := ?thread, last := ?last }
  case count =>
    change x.frames.length + x.idle =
      x.notified.length + (x.dropped + if frame.isSome then 1 else 0) + 0
    omega
  case thread =>
    intro k hk
    cases hk
  case last =>
    intro k hk
    change k + 0 < x.frames.length
    exact Nat.lt_of_le_of_lt (Nat.le_add_right _ _) (hlast k hk)

theorem frames_append (l : List Notice) (frame : Option Nat) (d i : Nat) :
    (l ++ [Notice.mk frame d i]).filterMap Notice.frame =
      l.filterMap Notice.frame ++ frame.toList := by
  rw [List.filterMap_append]
  cases frame with
  | none => rfl
  | some k => rfl

/-- There is room: the number of the frame that is notified is that of the notification, but for
what was dropped and for what had no frame. -/
theorem InStep.notify (h : InStep nbbuffers x) (hthread : x.thread = .notify frame)
    (hroom : x.xFrameReadySem < nbbuffers) :
    InStep nbbuffers { x with
      xFrameReadySem := x.xFrameReadySem + 1
      xFrameWr := (x.xFrameWr + 1) % x.xNbbuffers
      thread := .capture
      notified := x.notified ++ [⟨frame, x.dropped, x.idle⟩]
      idle := x.idle + if frame.isSome then 0 else 1 } := by
  have hcount := h.count
  have hlast := h.last
  rw [pending_notify hthread] at hcount hlast
  refine { h with wr := ?wr, sem := ?sem, bound := ?bound, count := ?count, thread := ?thread,
                  notice := ?notice, order := ?order, last := ?last }
  case wr =>
    change (x.xFrameWr + 1) % x.xNbbuffers = (x.notified ++ [_]).length % nbbuffers
    rw [h.wr, h.buffers, List.length_append, List.length_singleton, Nat.mod_add_mod]
  case sem =>
    change (x.notified ++ [_]).length = x.given.length + (x.xFrameReadySem + 1)
    rw [List.length_append, List.length_singleton, h.sem, Nat.add_assoc]
  case bound => exact hroom
  case count =>
    change x.frames.length + (x.idle + if frame.isSome then 0 else 1) =
      (x.notified ++ [_]).length + x.dropped + 0
    rw [List.length_append, List.length_singleton]
    cases frame with
    | none =>
        simp only [Option.isSome_none, Bool.false_eq_true, if_false] at hcount ⊢
        omega
    | some k =>
        simp only [Option.isSome_some, if_true] at hcount ⊢
        omega
  case thread =>
    intro k hk
    cases hk
  case notice =>
    intro n notice k hn hk
    rcases getElem?_append_single hn with hn | ⟨rfl, rfl⟩
    · exact h.notice n notice k hn hk
    · change frame = some k at hk
      subst hk
      have hframes := h.thread k hthread
      rw [Option.isSome_some, if_pos rfl] at hcount
      change k + x.idle = x.notified.length + x.dropped ∧ k < x.frames.length
      omega
  case order =>
    change List.Pairwise (· < ·)
      ((x.notified ++ [Notice.mk frame x.dropped x.idle]).filterMap Notice.frame)
    rw [frames_append]
    refine List.pairwise_append.mpr ⟨h.order, ?_, ?_⟩
    · cases frame with
      | none => exact List.Pairwise.nil
      | some k => exact List.pairwise_singleton _ _
    · intro i hi k hk
      obtain rfl := Option.mem_toList.mp hk
      have hframes := h.thread k hthread
      have hlt := hlast i hi
      rw [Option.isSome_some, if_pos rfl] at hlt
      omega
  case last =>
    intro k hk
    change k ∈ (x.notified ++ [Notice.mk frame x.dropped x.idle]).filterMap Notice.frame at hk
    change k + 0 < x.frames.length
    rw [frames_append] at hk
    rcases List.mem_append.mp hk with hk | hk
    · exact Nat.lt_of_le_of_lt (Nat.le_add_right _ _) (hlast k hk)
    · obtain rfl := Option.mem_toList.mp hk
      have hframes := h.thread k hthread
      omega

theorem InStep.notifyFrame (h : InStep nbbuffers x) (hthread : x.thread = .notify frame) :
    InStep nbbuffers (x.v4lNotifyFrame frame) := by
  unfold v4lNotifyFrame
  split
  · exact h.drop hthread
  · next hfull =>
      have hroom : x.xFrameReadySem < nbbuffers := by
        rw [← h.buffers]
        exact Nat.lt_of_not_le hfull
      exact h.notify hthread hroom

/-- The reader is given the buffer of its own index, and all buffers are in the queue. -/
theorem InStep.next (h : InStep nbbuffers x) : InStep nbbuffers x.zlV4lNext := by
  unfold zlV4lNext
  split
  · exact h
  · next hsem =>
      refine { h with rd := ?rd, sem := ?sem, bound := ?bound, given := ?given }
      case rd =>
        change (x.xFrameRd + 1) % x.xNbbuffers = (x.given ++ [_]).length % nbbuffers
        rw [h.rd, h.buffers, List.length_append, List.length_singleton, Nat.mod_add_mod]
      case sem =>
        change x.notified.length = (x.given ++ [_]).length + (x.xFrameReadySem - 1)
        have hcount := h.sem
        rw [List.length_append, List.length_singleton]
        omega
      case bound => exact Nat.le_trans (Nat.sub_le _ _) h.bound
      case given =>
        intro n handed hn
        rcases getElem?_append_single hn with hn | ⟨rfl, rfl⟩
        · exact h.given n handed hn
        · refine ⟨h.rd, ?_⟩
          have hbound := h.bound
          have hlt : x.xFrameRd < nbbuffers := by
            rw [h.rd]
            exact Nat.mod_lt _ (by omega)
          rw [h.queue]
          exact List.contains_iff_mem.mpr (List.mem_rotate.mpr (List.mem_range.mpr hlt))

theorem InStep.step (h : InStep nbbuffers x) (hstep : x.step a = some x') :
    InStep nbbuffers x' := by
  cases a with
  | captureFrame filled =>
      cases hthread : x.thread with
      | capture =>
          simp only [V4l.step, hthread] at hstep
          exact h.captureFrame hthread hstep
      | notify frame =>
          simp only [V4l.step, hthread] at hstep
          cases hstep
  | notifyFrame =>
      cases hthread : x.thread with
      | capture =>
          simp only [V4l.step, hthread] at hstep
          cases hstep
      | notify frame =>
          simp only [V4l.step, hthread] at hstep
          cases hstep
          exact h.notifyFrame hthread
  | next =>
      cases hstep
      exact h.next

theorem run_inStep (h : Run nbbuffers x) : InStep nbbuffers x := by
  induction h with
  | new => exact inStep_new
  | step _ hstep ih => exact ih.step hstep

end Steps

/-! ## Every run -/

/-- Notification `n` has a frame; before it as many frames were dropped as there were notifications
that had none, to within turns of the ring. -/
def Matched (x : V4l) (n : Nat) : Prop :=
  ∃ notice, x.notified[n]? = some notice ∧ notice.frame.isSome ∧
    notice.dropped % x.xNbbuffers = notice.idle % x.xNbbuffers

section Every

variable {nbbuffers n k : Nat} {x : V4l} {acts : List Act}

/-- Frame `k` is in the buffer of pointer `n`. -/
theorem InStep.frameRight (h : InStep nbbuffers x) (hmatched : x.Matched n) : x.FrameRight n := by
  rintro handed hgiven
  obtain ⟨notice, hnotice, hframe, hmod⟩ := hmatched
  obtain ⟨k, hk⟩ := Option.isSome_iff_exists.mp hframe
  obtain ⟨heq, hlt⟩ := h.notice n notice k hnotice hk
  have hturn : k % nbbuffers = n % nbbuffers := by
    rw [h.buffers] at hmod
    have hsum : (k + notice.idle) % nbbuffers = (n + notice.idle) % nbbuffers := by
      rw [heq]
      exact Nat.ModEq.add_left n hmod
    exact Nat.ModEq.add_right_cancel' notice.idle hsum
  have hbuffer := List.getElem?_eq_getElem hlt
  refine ⟨notice, k, hnotice, hk, ?_⟩
  rw [(h.given n handed hgiven).1, ← hturn, ← h.frames k _ hbuffer]
  exact hbuffer

/-- The reader's frames, for any interleaving: they come in the order of capture, each from the
buffer of its notification if the indices agree there; and the driver has the buffer back. -/
theorem next_right (h : Run nbbuffers x) : x.CaptureOrder ∧
    ∀ n handed, x.given[n]? = some handed →
      handed.queued = true ∧ (x.Matched n → x.FrameRight n) :=
  have hinv := run_inStep h
  ⟨hinv.order, fun n handed hgiven => ⟨(hinv.given n handed hgiven).2, hinv.frameRight⟩⟩

/-! ### Two runs -/

def after (nbbuffers : Nat) (acts : List Act) : Option V4l := acts.foldlM step (new nbbuffers)

theorem run_after (h : after nbbuffers acts = some x) : Run nbbuffers x := by
  have hall : ∀ (acts : List Act) (y : V4l), Run nbbuffers y → acts.foldlM step y = some x →
      Run nbbuffers x := by
    intro acts
    induction acts with
    | nil =>
        intro y hy hx
        cases hx
        exact hy
    | cons a acts ih =>
        intro y hy hx
        rw [List.foldlM_cons] at hx
        obtain ⟨y', hstep, hx⟩ := Option.bind_eq_some_iff.mp hx
        exact ih y' (.step hy hstep) hx
  exact hall acts _ .new h

/-- One frame is captured and notified. -/
def oneFrame : List Act := [.captureFrame true, .notifyFrame]

/-- The first pointer is to the buffer of the first frame. -/
theorem next_right_oneFrame : ∃ x : V4l, x.given[0]? = some ⟨0, true⟩ ∧ x.FrameRight 0 := by
  have hright := next_right (@run_after 2 _ (oneFrame ++ [.next]) rfl)
  exact ⟨_, rfl, (hright.2 0 _ rfl).2 ⟨_, rfl, rfl, rfl⟩⟩

/-- A pointer is to a buffer that is queued again; and after a dropped frame, a pointer is to the
buffer of another frame. -/
theorem not_next_right :
    ¬ (∀ nbbuffers, ∀ x : V4l, Run nbbuffers x → ∀ (n : Nat) (handed : Handed),
      x.given[n]? = some handed → handed.queued = false) ∧
    ¬ ∀ nbbuffers, ∀ x : V4l, Run nbbuffers x → ∀ n, x.FrameRight n := by
  constructor
  · intro h
    have hqueued := h 2 _ (@run_after 2 _ (oneFrame ++ [.next]) rfl) 0 ⟨0, true⟩ rfl
    cases hqueued
  · intro h
    obtain ⟨notice, k, hnotice, hk, hbuffer⟩ := h 2 _ (@run_after 2 _ (oneFrame ++ oneFrame ++
      oneFrame ++ [.next] ++ oneFrame ++ [.next, .next]) rfl) 2 ⟨0, true⟩ rfl
    obtain rfl := Option.some.inj hnotice
    obtain rfl := Option.some.inj hk
    cases hbuffer

end Every

end V4l

end PureDataPacket
