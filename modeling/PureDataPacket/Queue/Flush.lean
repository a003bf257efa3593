/-
# `PureDataPacket.Queue.Flush` — what a flush leaves

`pdp_procqueue_flush` calls callbacks and waits, in turns.  It is meant to repeat
this as long as there are callbacks to call; but what it tests, after the wait, is
whether the worker has something to do, and the wait has seen to that.  So there
is one turn, and what a callback has added stays in the ring unless the worker is
done with it before the callback loop ends.

| | |
| :-- | :-- |
| `Flushed` | nothing is in the ring: every task has been processed and called back |
| `FlushValid` | where a flush is between its last callback and its end |
| `FlushValid.of_top` | the Pd thread is not waiting, and not at the end of a flush |
| `FlushValid.pop` | a frame is left that has no flush above it |
-/
import PureDataPacket.Queue.Reentry
import Mathlib.Data.List.Chain

namespace PureDataPacket

namespace NestedQueue

/-- Nothing is in the ring: every task has been processed and called back. -/
structure Flushed (s : NestedQueue) : Prop where
  tail_eq : s.q.tail = s.q.curr
  curr_eq : s.q.curr = s.q.head
  processed_eq : s.processed = (List.range s.tasks.length).filter s.processes
  called_eq : s.called = (List.range s.tasks.length).filter s.calls

/-- What is above what, where it matters to a flush. -/
def Above (f g : Frame) : Prop := (g = .again → f = .wait) ∧ (g = .wait → f = .loop)

/-- Where a flush is between its last callback and its end. -/
structure FlushValid (s : NestedQueue) : Prop where
  chain : s.stack.IsChain Above
  left : ∀ rest, s.stack = .wait :: .again :: rest ∨ s.stack = .again :: rest →
    (s.tail = s.tasks.length ↔ s.unfinished = false)
  done : ∀ rest, s.stack = .again :: rest → s.curr = s.tasks.length

section FlushSteps

variable {k : Nat} {s s' : NestedQueue}

theorem above_of_cons {f g : Frame} {rest : List Frame} (h : (f :: g :: rest).IsChain Above) :
    Above f g :=
  (List.isChain_cons_cons.mp h).1

theorem FlushValid.push (h : FlushValid s) (hcall : s.MayCall) {f : Frame} {l : List Frame}
    (hchain : (f :: l).IsChain Above) (hagain : f ≠ .again) (hwait : l.head? ≠ some .again)
    {s' : NestedQueue} (hstack : s'.stack = f :: l ++ s.stack) : FlushValid s' := by
  have hhead : ∀ g ∈ s.stack.head?, g ≠ .again ∧ g ≠ .wait := by
    intro g hg
    rw [hcall g hg]
    exact ⟨by decide, by decide⟩
  refine ⟨?_, ?_, ?_⟩
  · rw [hstack, List.isChain_append]
    refine ⟨hchain, h.chain, fun x _ y hy => ?_⟩
    exact ⟨fun he => absurd he (hhead y hy).1, fun he => absurd he (hhead y hy).2⟩
  · rintro rest (heq | heq)
    · rw [hstack, List.cons_append] at heq
      injection heq with _ heq
      cases hframes : l with
      | nil =>
          rw [hframes, List.nil_append] at heq
          exact absurd rfl (hhead .again (by rw [heq]; rfl)).1
      | cons g l =>
          rw [hframes, List.cons_append] at heq
          injection heq with hg _
          rw [hframes, hg] at hwait
          exact absurd rfl hwait
    · rw [hstack, List.cons_append] at heq
      injection heq with hf _
      exact absurd hf hagain
  · intro rest heq
    rw [hstack, List.cons_append] at heq
    injection heq with hf _
    exact absurd hf hagain

theorem FlushValid.pop (h : FlushValid s) {f : Frame} {rest : List Frame}
    (hstack : s.stack = f :: rest) (hwait : f ≠ .wait) (hloop : f ≠ .loop) {s' : NestedQueue}
    (hstack' : s'.stack = rest) : FlushValid s' := by
  have hchain := h.chain
  rw [hstack] at hchain
  refine ⟨?_, ?_, ?_⟩
  · rw [hstack']
    exact hchain.tail
  · rintro rest' (heq | heq)
    · rw [← hstack', heq] at hchain
      exact absurd ((above_of_cons hchain).2 rfl) hloop
    · rw [← hstack', heq] at hchain
      exact absurd ((above_of_cons hchain).1 rfl) hwait
  · intro rest' heq
    rw [← hstack', heq] at hchain
    exact absurd ((above_of_cons hchain).1 rfl) hwait

/-- Steps that leave the stack and the tasks where they are. -/
theorem FlushValid.frame (h : FlushValid s) {s' : NestedQueue} (hstack : s'.stack = s.stack)
    (htail : s'.tail = s.tail) (htasks : s'.tasks = s.tasks)
    (hunfinished : s'.unfinished = s.unfinished)
    (hcurr : ∀ rest, s.stack = .again :: rest → s'.curr = s.curr) : FlushValid s' := by
  refine ⟨by rw [hstack]; exact h.chain, fun rest heq => ?_, fun rest heq => ?_⟩
  · rw [htail, htasks, hunfinished]
    exact h.left rest (by rwa [hstack] at heq)
  · rw [hstack] at heq
    rw [hcurr rest heq, htasks]
    exact h.done rest heq

theorem FlushValid.of_top {f : Frame} {l : List Frame} (hstack : s.stack = f :: l)
    (hchain : (f :: l).IsChain Above) (hagain : f ≠ .again) (hwait : f ≠ .wait) :
    FlushValid s := by
  refine ⟨by rw [hstack]; exact hchain, ?_, fun rest heq => ?_⟩
  · rintro rest (heq | heq) <;> rw [hstack] at heq <;> injection heq with hf _
    · exact absurd hf hwait
    · exact absurd hf hagain
  · rw [hstack] at heq
    injection heq with hf _
    exact absurd hf hagain

theorem FlushValid.add (h : FlushValid s) (hcall : s.MayCall) (item : QueueItem) :
    FlushValid (s.add k item) := by
  have hstack : ∃ mode item', (s.add k item).stack = methods mode item' ++ s.stack := ⟨_, _, rfl⟩
  obtain ⟨mode, item', hstack⟩ := hstack
  unfold methods at hstack
  split at hstack
  · -- nothing is called: the stack is that of an idle thread or of a method
    cases hs : s.stack with
    | nil =>
        rw [hs] at hstack
        refine ⟨by rw [hstack]; exact List.IsChain.nil, fun rest heq => ?_, fun rest heq => ?_⟩
        · rw [hstack] at heq
          rcases heq with heq | heq <;> cases heq
        · rw [hstack] at heq
          cases heq
    | cons f l =>
        have hf : f = .callback := hcall f (by rw [hs]; rfl)
        have hchain := h.chain
        rw [hs] at hstack hchain
        subst hf
        exact .of_top hstack hchain (by decide) (by decide)
  · exact h.push hcall (l := []) (List.isChain_singleton _) (by decide) (by decide) hstack

theorem FlushValid.step (hk' : k ≤ 32) (hs : Valid k s) (h : FlushValid s) {a : Act}
    (hstep : Step k s a s') : FlushValid s' := by
  have hchain := h.chain
  cases hstep with
  | add item hcall => exact h.add hcall item
  | wait hcall =>
      exact h.push hcall (l := []) (List.isChain_singleton _) (by decide) (by decide) rfl
  | finishNone hcall => exact h
  | finish indx hcall hindx =>
      refine h.push hcall (l := [.strike indx]) ?_ (by decide)
        (fun he => by cases he) rfl
      exact List.isChain_pair.mpr ⟨fun he => (by cases he), fun he => (by cases he)⟩
  | flush hcall =>
      refine h.push hcall (l := [.loop, .wait, .again]) ?_ (by decide) (by decide) rfl
      simp [List.isChain_cons_cons, Above]
  | useThreadOn hcall => exact h.frame rfl rfl rfl rfl fun _ _ => rfl
  | useThreadOff hcall =>
      refine h.push hcall (l := [.disable, .loop]) ?_ (by decide) (by decide) rfl
      simp [List.isChain_cons_cons, Above]
  | tick hstack hthread =>
      exact .of_top rfl (List.isChain_singleton _) (by decide) (by decide)
  | methodReturn hstack => exact h.pop hstack (by decide) (by decide) rfl
  | advance hstack => exact h.pop hstack (by decide) (by decide) rfl
  | loopCall hstack hdata =>
      rw [hstack] at hchain
      have hadvance : (Frame.advance :: s.stack).IsChain Above := by
        rw [hstack]
        exact List.isChain_cons_cons.mpr
          ⟨⟨fun he => (by cases he), fun he => (by cases he)⟩, hchain⟩
      by_cases hcall : (s.tailItem k).callback = true
      · refine .of_top (f := .callback) (if_pos hcall) ?_ (by decide) (by decide)
        exact List.isChain_cons_cons.mpr
          ⟨⟨fun he => (by cases he), fun he => (by cases he)⟩, hadvance⟩
      · exact .of_top (f := .advance) (if_neg hcall) hadvance (by decide) (by decide)
  | @loopEnd rest hstack hdata =>
      rw [hstack] at hchain
      refine ⟨hchain.tail, fun rest' _ => ?_, fun rest' heq => ?_⟩
      · -- `tail` is at `curr`, and the worker is done or not
        have htail : ¬ s.tail < s.curr := by
          rw [← hs.hasFinished_iff hk', hdata]
          exact Bool.false_ne_true
        have hle := hs.tail_le
        have hcurr := hs.curr_le
        show s.tail = s.tasks.length ↔ hasData k s.q = false
        rw [← Bool.not_eq_true, hs.hasData_iff hk']
        omega
      · rw [show rest = .again :: rest' from heq] at hchain
        exact absurd ((above_of_cons hchain).1 rfl) (by decide)
  | @waited rest hstack hdata =>
      have hcurr : ¬ s.curr < s.tasks.length := by
        rw [← hs.hasData_iff hk', hdata]
        exact Bool.false_ne_true
      have hle := hs.curr_le
      have htail := hchain
      rw [hstack] at htail
      refine ⟨htail.tail, fun rest' heq => ?_,
        fun _ _ => Nat.le_antisymm hle (Nat.le_of_not_lt hcurr)⟩
      rcases heq with heq | heq
      · rw [show rest = .wait :: .again :: rest' from heq] at htail
        exact absurd ((above_of_cons htail).2 rfl) (by decide)
      · exact h.left rest' (.inl (by rw [hstack, show rest = .again :: rest' from heq]))
  | @flushAgain rest hstack hdata =>
      rw [hstack] at hchain
      refine .of_top rfl ?_ (by decide) (by decide)
      refine List.isChain_cons_cons.mpr ⟨⟨fun he => (by cases he), fun _ => rfl⟩, ?_⟩
      exact List.isChain_cons_cons.mpr ⟨⟨fun _ => rfl, fun he => (by cases he)⟩, hchain⟩
  | flushReturn hstack hdata => exact h.pop hstack (by decide) (by decide) rfl
  | strike hstack =>
      exact h.pop hstack (fun he => by cases he) (fun he => by cases he) rfl
  | disable hstack => exact h.pop hstack (by decide) (by decide) rfl
  | process hidle hdata => exact h.frame rfl rfl rfl rfl fun _ _ => rfl
  | processReturn hrunning =>
      -- at the end of a flush the worker has nothing to do
      refine h.frame rfl rfl rfl rfl fun rest heq => ?_
      have hran := hs.ran_le
      rw [ran, if_pos hrunning] at hran
      have := h.done rest heq
      omega

theorem FlushValid.init : FlushValid init where
  chain := List.IsChain.nil
  left rest h := by rcases h with h | h <;> cases h
  done rest h := by cases h

theorem Run.flushValid (hk : 1 ≤ k) (hk' : k ≤ 32) (h : Run k NoReentry s) : FlushValid s := by
  induction h with
  | init => exact FlushValid.init
  | step hs _ hstep ih => exact ih.step hk' (hs.valid hk hk') hstep

/-- A flush returns with an empty ring if and only if nothing was left for the worker when
its callback loop ended. -/
theorem flush_iff (hk : 1 ≤ k) (hk' : k ≤ 32) (h : Run k NoReentry s) {rest : List Frame}
    (hstack : s.stack = .again :: rest) (hstep : Step k s .goOn s') :
    s'.stack = rest ∧ (Flushed s' ↔ s.unfinished = false) := by
  have hs := h.valid hk hk'
  have hflush := h.flushValid hk hk'
  have hcurr := hflush.done rest hstack
  have hle := hs.tail_le
  have hlt := hs.length_lt
  have hdata : ¬ hasData k s.q = true := by
    rw [hs.hasData_iff hk', hcurr]
    exact Nat.lt_irrefl _
  have hnone := hs.not_mem_of_top hstack rfl (by decide)
  have hreturn : s' = { s with stack := rest } := by
    cases hstep with
    | flushReturn hs' _ =>
        rw [hstack] at hs'
        injection hs' with _ hrest
        rw [hrest]
    | flushAgain _ hdata' => exact absurd hdata' hdata
    | advance hs' => rw [hstack] at hs'; cases hs'
    | loopCall hs' => rw [hstack] at hs'; cases hs'
    | loopEnd hs' => rw [hstack] at hs'; cases hs'
    | waited hs' => rw [hstack] at hs'; cases hs'
    | strike hs' => rw [hstack] at hs'; cases hs'
    | disable hs' => rw [hstack] at hs'; cases hs'
  rw [hreturn, ← hflush.left rest (.inr hstack)]
  refine ⟨rfl, fun hempty => ?_, fun htail => ?_⟩
  · -- the masked counters are the same
    have htail : s.q.curr = s.q.tail := hempty.tail_eq.symm
    have hfinished : ¬ hasFinished k s.q = true := by
      unfold hasFinished
      rw [htail, Int.sub_self]
      simp [masked, toInt32]
    rw [hs.hasFinished_iff hk'] at hfinished
    omega
  · have hbegun := begun_of_not_mem hnone
    have hran : s.ran = s.tasks.length := by
      have hran := hs.ran_le
      have := curr_le_ran s
      omega
    refine ⟨?_, ?_, ?_, ?_⟩
    · show s.q.tail = s.q.curr
      rw [hs.tail_eq, hs.curr_eq, htail, hcurr]
    · show s.q.curr = s.q.head
      rw [hs.curr_eq, hs.head_eq, hcurr]
    · show s.processed = (List.range s.tasks.length).filter s.processes
      rw [hs.processed_eq, hran]
    · show s.called = (List.range s.tasks.length).filter s.calls
      rw [hs.called_eq, hbegun, htail]

/-- A callback of a flush adds a task, and the worker comes to it when the callback loop has
ended. -/
theorem run_flush : ∃ s, Run 10 NoReentry s ∧ s.stack = [.again] ∧ s.q.tail = 1 ∧ s.q.curr = 2 ∧
    hasData 10 s.q = false := by
  have hok : ∀ s a, a ≠ Act.flush → a ≠ .useThread false → NoReentry s a := fun _ _ h₁ h₂ ha =>
    absurd ha (not_or.mpr ⟨h₁, h₂⟩)
  obtain ⟨s, hs, hstack, hq, _, _, hrunning⟩ := run_processed NoReentry hok
  have hdata : hasFinished 10 s.q = true := by rw [hq]; decide
  have hnone : hasData 10 s.q = false := by rw [hq]; decide
  obtain ⟨q, cells, running, stack, tasks, curr, tail, processed, called, struck, unfinished⟩ := s
  subst hstack hq hrunning
  have hs₁ := Run.step hs (fun _ => List.not_mem_nil) (Step.flush fun f hf => by cases hf)
  have hs₂ := hs₁.quiet (.waited rfl hnone) (fun he => by cases he) fun he => by cases he
  have hs₃ := hs₂.quiet (.loopCall rfl hdata) (fun he => by cases he) fun he => by cases he
  have hs₄ := hs₃.quiet (.add plainTask fun f hf => (Option.some.inj hf).symm)
    (fun he => by cases he) fun he => by cases he
  have hs₅ := hs₄.quiet (.methodReturn rfl) (fun he => by cases he) fun he => by cases he
  have hs₆ := hs₅.quiet (.advance rfl) (fun he => by cases he) fun he => by cases he
  have hs₇ := hs₆.quiet (.loopEnd rfl rfl) (fun he => by cases he) fun he => by cases he
  have hs₈ := hs₇.quiet (.process rfl rfl) (fun he => by cases he) fun he => by cases he
  have hs₉ := hs₈.quiet (.processReturn rfl) (fun he => by cases he) fun he => by cases he
  have hs₁₀ := hs₉.quiet (.waited rfl rfl) (fun he => by cases he) fun he => by cases he
  exact ⟨_, hs₁₀, rfl, rfl, rfl, rfl⟩

theorem flush_iff_run : ∃ s s', Run 10 NoReentry s ∧ s'.stack = [] ∧
    (Flushed s' ↔ s.unfinished = false) := by
  obtain ⟨s, hs, hstack, _, _, hdata⟩ := run_flush
  exact ⟨s, _, hs, flush_iff (by decide) (by decide) hs hstack (.flushReturn hstack hdata)⟩

/-- What a callback of a flush adds is still in the ring when the flush returns. -/
theorem flush_leaves_task : ¬ ∀ s s' rest, Run 10 NoReentry s → s.stack = .again :: rest →
    Step 10 s .goOn s' → s'.stack = rest → Flushed s' := by
  intro hall
  obtain ⟨s, hs, hstack, htail, hcurr, hdata⟩ := run_flush
  have hempty := hall s _ [] hs hstack (.flushReturn hstack hdata) rfl
  have heq : s.q.tail = s.q.curr := hempty.tail_eq
  rw [htail, hcurr] at heq
  exact absurd heq (by decide)

end FlushSteps

end NestedQueue

end PureDataPacket
