/-
# `PureDataPacket.Object.Keeping` — what the base class promises

The promises hold for every class whose objects let go of the hot packet after a run:
to an outlet, or in the postproc method.  An object with neither keeps its packet, and
processes it again.  So does one that is told to by others while its packet is being
offered to them: it lets go of the packet only after that.
-/
import PureDataPacket.Object.Life

namespace PureDataPacket

namespace BaseState

/-- The contract of `pdp_base`, in one state of a run. -/
structure BaseKept (c : BaseClass) (s : BaseState) : Prop where
  /-- There is one reference for each cell that is not -1, and in the end none. -/
  owns : ∀ p, p ≠ -1 → s.refs.count p = if s.freed = true then 0 else s.cells.count p
  never_twice : s.releasedTwice = false
  /-- A hot packet is processed at most once. -/
  processed_le : ∀ n, s.log.count (n, .processed) ≤ 1
  /-- A hot packet that was accepted is in slot 0, or has left once. -/
  left_eq : ∀ n, n < s.accepted → s.left n + (if s.held = some n then 1 else 0) = 1
  slot : s.freed = false → (s.held.isSome = true ↔ s.packet 0 ≠ -1)
  left_freed : s.freed = true → s.held = none
  /-- Nothing happens to it after it has left. -/
  ordered : s.log.Pairwise fun a b => a.1 = b.1 → a.2 = .processed
  /-- A drop is notified when a packet is still held, and only then. -/
  offers_eq : ∀ o ∈ s.offers, o.1 = o.2
  pending_iff : s.freed = false → (s.queueId ≠ -1 ↔ s.task ≠ none)
  /-- No slot is replaced while a task is pending. -/
  pending : ∀ s', Step c s s' → s.task ≠ none → s'.task ≠ none → s'.packet = s.packet
  /-- A cold slot changes when a run starts, and only then. -/
  cold : ∀ s', Step c s s' → s'.freed = false → ∀ i, i ≠ 0 → s'.packet i ≠ s.packet i →
    s'.runs = s.runs + 1

section Kept

variable {c : BaseClass} {s s' : BaseState}

theorem leaveSlot_cold (s : BaseState) (e : HotEvent) {i : Nat} (hi : i ≠ 0) :
    (s.leaveSlot e).packet i = s.packet i :=
  Function.update_of_ne hi (-1) s.packet

theorem postprocess_cold (c : BaseClass) (s : BaseState) {i : Nat} (hi : i ≠ 0) :
    (postprocess c s).packet i = s.packet i ∧ (postprocess c s).runs = s.runs := by
  unfold postprocess postproc
  dsimp only
  split
  · split
    · exact ⟨leaveSlot_cold s .taken hi, rfl⟩
    · exact ⟨leaveSlot_cold s .taken hi, rfl⟩
  · split
    · exact ⟨rfl, rfl⟩
    · exact ⟨rfl, rfl⟩

theorem bang_cold (c : BaseClass) (s : BaseState) (mode : Mode) (slot : Nat) {i : Nat}
    (hi : i ≠ 0) : (bang c s mode slot).packet i = s.packet i ∨
      (bang c s mode slot).runs = s.runs + 1 := by
  unfold bang
  split
  · exact Or.inl rfl
  · refine Or.inr ?_
    dsimp only
    split
    · cases mode with
      | direct => exact (postprocess_cold c _ hi).2
      | full => exact (postprocess_cold c _ hi).2
      | queued => rfl
    · exact (postprocess_cold c _ hi).2

theorem acceptHot_cold (s : BaseState) (r : Int) {i : Nat} (hi : i ≠ 0) :
    (acceptHot s r).packet i = s.packet i := by
  unfold acceptHot
  split
  · exact Function.update_of_ne hi r s.packet
  · rfl

theorem input_cold (c : BaseClass) (s : BaseState) (inlet : Nat) (m : PdpMessage) (r : Int)
    (mode : Mode) (slot : Nat) {i : Nat} (hi : i ≠ 0) :
    (input c s inlet m r mode slot).packet i = s.packet i ∨
      (input c s inlet m r mode slot).runs = s.runs + 1 := by
  unfold input
  split
  · unfold inputHot
    split
    · exact Or.inl rfl
    · cases m with
      | registerRo p =>
          dsimp only
          split
          · exact Or.inl (acceptHot_cold s r hi)
          · exact Or.inl rfl
      | registerRw p =>
          dsimp only
          split
          · exact Or.inl rfl
          · exact Or.inl (acceptHot_cold s r hi)
      | process =>
          dsimp only
          split
          · exact bang_cold c s mode slot hi
          · exact Or.inl rfl
  · unfold inputCold
    cases m with
    | registerRo p =>
        dsimp only
        split
        · exact Or.inl rfl
        · exact Or.inl rfl
    | registerRw p => exact Or.inl rfl
    | process => exact Or.inl rfl

theorem step_cold (hstep : Step c s s') (hfreed : s'.freed = false) {i : Nat} (hi : i ≠ 0)
    (hne : s'.packet i ≠ s.packet i) : s'.runs = s.runs + 1 := by
  cases hstep with
  | message inlet m r mode slot _ _ =>
      exact (input_cold c s inlet m r mode slot hi).resolve_left hne
  | own r mode slot _ _ => exact (input_cold c _ _ _ r mode slot hi).resolve_left hne
  | unregister _ _ => exact absurd (leaveSlot_cold _ _ hi) hne
  | thread _ _ => exact absurd rfl hne
  | start _ => exact absurd rfl hne
  | finish _ => exact absurd rfl hne
  | callback _ => exact absurd (postprocess_cold c _ hi).1 hne
  | free _ _ _ => cases hfreed

/-- While the queue id is set and slot 0 is in use, messages do not touch the first row. -/
theorem input_pending (hid : s.queueId ≠ -1) (hhot : s.packet 0 ≠ -1) (inlet : Nat)
    (m : PdpMessage) (r : Int) (mode : Mode) (slot : Nat) :
    (input c s inlet m r mode slot).packet = s.packet := by
  have haccept : (acceptHot s r).packet = s.packet := by
    unfold acceptHot
    rw [if_neg hhot]
  unfold input
  split
  · unfold inputHot
    split
    · rfl
    · cases m with
      | registerRo p =>
          dsimp only
          split
          · exact haccept
          · rfl
      | registerRw p =>
          dsimp only
          split
          · rfl
          · exact haccept
      | process =>
          dsimp only
          rw [if_neg (fun hand => hid hand.2)]
  · unfold inputCold
    cases m with
    | registerRo p =>
        dsimp only
        split <;> rfl
    | registerRw p => rfl
    | process => rfl

theorem Valid.step_pending (h : Valid s) (hstep : Step c s s') (htask : s.task ≠ none)
    (htask' : s'.task ≠ none) : s'.packet = s.packet := by
  have hid : s.queueId ≠ -1 := fun hid => htask (h.task_id.mp hid)
  have hhot := h.task_held htask
  cases hstep with
  | message inlet m r mode slot _ _ => exact input_pending hid hhot inlet m r mode slot
  | @own inlet m rest r mode slot _ htodo =>
      have hid' : { s with todo := rest }.queueId ≠ -1 := hid
      exact input_pending hid' hhot inlet m r mode slot
  | unregister _ htodo =>
      have hoff : s.Offering := by
        unfold Offering
        rw [htodo]
        exact List.mem_cons_self
      exact absurd (h.offering hoff).2 htask
  | thread _ _ => rfl
  | start _ => rfl
  | finish _ => rfl
  | callback _ =>
      refine absurd ?_ htask'
      unfold postprocess postproc
      dsimp only
      split <;> split <;> rfl
  | free _ _ _ => exact absurd rfl htask'

/-- The contract of `pdp_base`, for every class that lets go of the hot packet after a run and
every order of messages, worker steps and callbacks, as long as no other object says *process*
while the packet is offered. -/
theorem base_kept (c : BaseClass) (hclass : c.outlet = true ∨ c.postprocTakes = true)
    (hquiet : c.interrupted = false) (s : BaseState) (hs : Reachable c s) : BaseKept c s := by
  rcases hs.valid_or_freed hclass hquiet with h | h
  · refine ⟨?_, h.core.custody.never_twice, h.core.processed_le, h.core.left_eq,
      fun _ => h.core.held_iff, ?_, h.core.ordered, h.core.offers_eq, ?_, ?_, ?_⟩
    · intro p hp
      rw [h.not_freed, if_neg Bool.false_ne_true]
      exact h.core.custody.count_eq p hp
    · intro hfreed
      rw [h.not_freed] at hfreed
      cases hfreed
    · intro _
      exact not_congr h.task_id
    · intro s' hstep
      exact h.step_pending hstep
    · intro s' hstep hfreed i hi
      exact step_cold hstep hfreed hi
  · refine ⟨?_, h.never_twice, h.processed_le, ?_, ?_, fun _ => h.empty, h.ordered, h.offers_eq,
      ?_, ?_, ?_⟩
    · intro p hp
      rw [if_pos h.freed]
      exact h.refs p hp
    · intro n hn
      rw [h.empty, h.left_eq n hn]
      rfl
    · intro hfreed
      rw [h.freed] at hfreed
      cases hfreed
    · intro hfreed
      rw [h.freed] at hfreed
      cases hfreed
    · intro s' hstep
      exact absurd hstep h.no_step
    · intro s' hstep
      exact absurd hstep h.no_step

end Kept

/-! ## Four classes -/

/-- A processor like `pdp_gain`, with its outlet connected to its own hot inlet. -/
def feedbackClass : BaseClass where
  inlets := 1
  inlets_le := by decide
  outlet := true
  activeInlet := true
  readonly := false
  connections := [0]
  interrupted := false
  postprocTakes := false

def sinkClass : BaseClass := { feedbackClass with outlet := false, connections := [] }

/-- A processor like `pdp_zoom`: its postproc method releases the packet of slot 0. -/
def takingClass : BaseClass := { feedbackClass with connections := [], postprocTakes := true }

/-- A processor with an object behind it that says *process* as soon as it gets a packet. -/
def interruptedClass : BaseClass := { feedbackClass with connections := [], interrupted := true }

theorem base_kept_feedback : ∃ s, Reachable feedbackClass s ∧ BaseKept feedbackClass s ∧
    s.log = [(0, .processed), (0, .passed)] ∧ s.offers = [(false, false), (true, true)] ∧
    s.refs = [] := by
  have h₁ := Reachable.step (Reachable.init : Reachable feedbackClass init)
    (.message 0 (.registerRw 3) 3 .direct 0 rfl (fun h => by cases h))
  have h₂ := Reachable.step h₁ (.message 0 .process 0 .queued 5 rfl
    (fun _ h => absurd h List.not_mem_nil))
  have h₃ := Reachable.step h₂ (.start rfl)
  have h₄ := Reachable.step h₃ (.finish rfl)
  have h₅ := Reachable.step h₄ (.callback rfl)
  have h₆ := Reachable.step h₅ (.own 0 .direct 0 rfl rfl)
  have h₇ := Reachable.step h₆ (.own 0 .direct 0 rfl rfl)
  have h₈ := Reachable.step h₇ (.unregister rfl rfl)
  have h₉ := Reachable.step h₈ (.own 0 .direct 0 rfl rfl)
  exact ⟨_, h₉, base_kept feedbackClass (Or.inl rfl) rfl _ h₉, by decide, by decide, by decide⟩

/-- Without an outlet a packet is processed for every *process* message. -/
theorem sink_processes_again : ∃ s, Reachable sinkClass s ∧
    s.log = [(0, .processed), (0, .processed)] := by
  have h₁ := Reachable.step (Reachable.init : Reachable sinkClass init)
    (.message 0 (.registerRw 3) 3 .direct 0 rfl (fun h => by cases h))
  have h₂ := Reachable.step h₁ (.message 0 .process 0 .direct 0 rfl
    (fun _ h => absurd h List.not_mem_nil))
  have h₃ := Reachable.step h₂ (.message 0 .process 0 .direct 0 rfl
    (fun _ h => absurd h List.not_mem_nil))
  exact ⟨_, h₃, by decide⟩

/-- The packet that a postproc method releases is neither passed nor released by free. -/
theorem postproc_releases : ∃ s, Reachable takingClass s ∧
    s.log = [(0, .processed), (0, .taken)] ∧ s.packet 0 = -1 ∧ s.todo = [] := by
  have h₁ := Reachable.step (Reachable.init : Reachable takingClass init)
    (.message 0 (.registerRw 3) 3 .direct 0 rfl (fun h => by cases h))
  have h₂ := Reachable.step h₁ (.message 0 .process 0 .direct 0 rfl
    (fun _ h => absurd h List.not_mem_nil))
  exact ⟨_, h₂, by decide, by decide, by decide⟩

theorem offered_processes_again : ∃ s, Reachable interruptedClass s ∧
    s.log = [(0, .processed), (0, .processed)] := by
  have h₁ := Reachable.step (Reachable.init : Reachable interruptedClass init)
    (.message 0 (.registerRw 3) 3 .direct 0 rfl (fun h => by cases h))
  have h₂ := Reachable.step h₁ (.message 0 .process 0 .direct 0 rfl (fun _ _ => rfl))
  have h₃ := Reachable.step h₂ (.message 0 .process 0 .direct 0 rfl (fun _ _ => rfl))
  exact ⟨_, h₃, by decide⟩

/-- A class without an outlet, one whose postproc method takes the packet, and an object that is
interrupted. -/
theorem base_limits :
    (∃ s, Reachable sinkClass s ∧ s.log = [(0, .processed), (0, .processed)]) ∧
      (∃ s, Reachable takingClass s ∧ s.log = [(0, .processed), (0, .taken)] ∧ s.packet 0 = -1 ∧
        s.todo = []) ∧
      ∃ s, Reachable interruptedClass s ∧ s.log = [(0, .processed), (0, .processed)] :=
  ⟨sink_processes_again, postproc_releases, offered_processes_again⟩

end BaseState

end PureDataPacket
