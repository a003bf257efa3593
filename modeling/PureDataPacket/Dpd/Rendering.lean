/-
# `PureDataPacket.Dpd.Rendering` — what the worker runs

The queue keeps the order, so the methods of one traversal run in the order in which
they were queued, whatever other traversals do in between.  A method that was to be
queued when the queue was full is left out, and no other.  A method reads the packet of
its own traversal unless another one was stored in its object while it was waiting.

| | |
| :-- | :-- |
| `Finished` | all methods of a traversal have been queued, and none is waiting |
| `Ready` | what is still to be queued has its packet stored before it |
| `TraversalNested` | what is asked of one traversal, in one state of a run |
| `Valid.ask` | the step in which a method is asked for |
-/
import PureDataPacket.Dpd.Nesting

namespace PureDataPacket

namespace DpdSystem

/-- The methods of a traversal that were to be queued so far. -/
def askedFor (s : DpdSystem) (t : Nat) : List DpdCall :=
  ((s.asked.map Prod.fst).filter fun task => task.traversal = t).map DpdTask.call

/-- Those of them that the queue had room for. -/
def queuedFor (s : DpdSystem) (t : Nat) : List DpdCall :=
  (((s.asked.filter Prod.snd).map Prod.fst).filter fun task => task.traversal = t).map DpdTask.call

/-- The methods of a traversal that are still to be queued. -/
def rest (s : DpdSystem) (t : Nat) : List DpdCall :=
  if t + 1 = s.plans.length then callsOf s.todo else []

/-- The process methods that were run for a traversal. -/
def executed (g : DpdPatch) (s : DpdSystem) (t : Nat) : List DpdCall :=
  (((s.log.map Prod.fst).filter fun task => task.traversal = t).map DpdTask.call).filter g.has

/-- What the `3dp_push` objects did to the matrix stack for a traversal: their methods do
nothing without a context packet. -/
def matrixOps (g : DpdPatch) (s : DpdSystem) (t : Nat) : List Bracket :=
  g.brackets ((((s.log.filter fun e => e.2 ≠ -1).map Prod.fst).filter
    fun task => task.traversal = t).map DpdTask.call)

/-- All methods of a traversal have been queued, and none is waiting. -/
def Finished (s : DpdSystem) (t : Nat) : Prop :=
  s.rest t = [] ∧ ∀ task ∈ s.waiting, task.traversal ≠ t

/-- What is still to be queued has its packet stored before it. -/
def Ready (p : Int) : (Nat → Prop) → List DpdAct → Prop
  | _, [] => True
  | stored, .store o q :: acts => q = p ∧ Ready p (fun o' => o' = o ∨ stored o') acts
  | stored, .queue call :: acts => stored call.object ∧ Ready p stored acts

section Ready

variable {g : DpdPatch} {p : Int}

theorem Ready.mono {acts : List DpdAct} : ∀ {stored stored' : Nat → Prop},
    (∀ o, stored o → stored' o) → Ready p stored acts → Ready p stored' acts := by
  induction acts with
  | nil =>
      intro _ _ _ _
      trivial
  | cons act acts ih =>
      intro stored stored' hsub h
      cases act with
      | store o q =>
          refine ⟨h.1, ih ?_ h.2⟩
          intro o' ho'
          exact ho'.imp id (hsub o')
      | queue call => exact ⟨hsub _ h.1, ih hsub h.2⟩

theorem Ready.append {acts acts' : List DpdAct} : ∀ {stored : Nat → Prop},
    Ready p stored acts → Ready p stored acts' → Ready p stored (acts ++ acts') := by
  induction acts with
  | nil =>
      intro _ _ h'
      exact h'
  | cons act acts ih =>
      intro stored h h'
      cases act with
      | store o q =>
          refine ⟨h.1, ih h.2 ?_⟩
          exact h'.mono fun o' ho' => Or.inr ho'
      | queue call => exact ⟨h.1, ih h.2 h'⟩

theorem ready_inspect (stored : Nat → Prop) (connections : List Nat) :
    Ready p stored (connections.flatMap (g.inspect p)) := by
  induction connections with
  | nil => trivial
  | cons c rest ih =>
      rw [List.flatMap_cons]
      refine Ready.append ?_ ih
      unfold DpdPatch.inspect
      split
      · exact ⟨rfl, Or.inl rfl, trivial⟩
      · trivial

variable {send : Nat → OutletFlags → List DpdAct × OutletFlags}

theorem ready_sendAll (hsend : ∀ c stored flags, Ready p stored (send c flags).1)
    (connections : List Nat) : ∀ (stored : Nat → Prop) (flags : OutletFlags),
      Ready p stored (DpdPatch.sendAll send connections flags).1 := by
  induction connections with
  | nil =>
      intro _ _
      trivial
  | cons c rest ih =>
      intro stored flags
      exact (hsend c stored flags).append (ih stored _)

theorem ready_outletLoop (hsend : ∀ c stored flags, Ready p stored (send c flags).1) {o : Nat}
    {stored : Nat → Prop} (ho : stored o) (i : Nat) : ∀ flags : OutletFlags,
      Ready p stored (g.outletLoop p send o i flags).1 := by
  induction i with
  | zero =>
      intro _
      trivial
  | succ i ih =>
      intro flags
      unfold DpdPatch.outletLoop
      split
      · exact ih flags
      · split
        · refine ⟨ho, Ready.append ?_ (ih _)⟩
          exact (ready_inspect stored _).append (ready_sendAll hsend _ stored flags)
        · exact ih flags

theorem ready_bangWith (hsend : ∀ c stored flags, Ready p stored (send c flags).1) {o : Nat}
    {stored : Nat → Prop} (ho : stored o) (flags : OutletFlags) :
    Ready p stored (g.bangWith p send o flags).1 := by
  refine (ready_outletLoop hsend ho _ flags).append ?_
  split
  · exact ⟨ho, trivial⟩
  · trivial

theorem ready_accumulate (n : Nat) : ∀ c stored flags,
    Ready p stored (g.accumulate p n c flags).1 := by
  induction n with
  | zero =>
      intro _ _ _
      trivial
  | succ n ih =>
      intro c stored flags
      unfold DpdPatch.accumulate
      split
      · exact ⟨rfl, ready_bangWith ih (Or.inl rfl) flags⟩
      · trivial

theorem ready_bang (o : Nat) (flags : OutletFlags) (stored : Nat → Prop) :
    Ready p stored (.store o p :: (g.bang p o flags).1) :=
  ⟨rfl, ready_bangWith (ready_accumulate _) (Or.inl rfl) flags⟩

end Ready

/-! ## The invariant -/

/-- What is known of a state. -/
structure Valid (g : DpdPatch) (s : DpdSystem) : Prop where
  plans : ∀ plan ∈ s.plans, PushEnabled g plan.enabled ∧
    ∃ flags', Rendering g plan.root plan.enabled plan.calls flags'
  push : PushEnabled g s.enabled
  asked_lt : ∀ e ∈ s.asked, e.1.traversal < s.plans.length
  numbered : ∀ (i : Nat) (e : DpdTask × Bool), s.asked[i]? = some e → e.1.index = i
  started : s.todo ≠ [] → 0 < s.plans.length
  /-- What was run, is running or is queued is what the queue had room for. -/
  served : s.log.map Prod.fst ++ s.waiting = (s.asked.filter Prod.snd).map Prod.fst
  asked_eq : ∀ t plan, s.plans[t]? = some plan → s.askedFor t ++ s.rest t = plan.calls
  ready : Ready (s.packet (s.plans.length - 1))
    (fun o => s.contextPacket o = s.packet (s.plans.length - 1)) s.todo
  waiting_packet : ∀ task ∈ s.waiting, s.disturbed task.index = false →
    s.contextPacket task.call.object = s.packet task.traversal
  log_packet : ∀ e ∈ s.log, s.disturbed e.1.index = false → e.2 = s.packet e.1.traversal

section Steps

variable {g : DpdPatch} {s s' : DpdSystem}

theorem Valid.init (g : DpdPatch) : Valid g init where
  plans := fun _ h => absurd h List.not_mem_nil
  push := fun _ _ => ⟨rfl, rfl⟩
  asked_lt := fun _ h => absurd h List.not_mem_nil
  numbered := by
    intro i e h
    cases h
  started := fun h => absurd rfl h
  served := rfl
  asked_eq := by
    intro t plan h
    cases h
  ready := trivial
  waiting_packet := fun _ h => absurd h List.not_mem_nil
  log_packet := fun _ h => absurd h List.not_mem_nil

/-- What was run or waits is of a traversal that has started. -/
theorem Valid.served_lt (h : Valid g s) {task : DpdTask}
    (htask : task ∈ s.log.map Prod.fst ++ s.waiting) : task.traversal < s.plans.length := by
  rw [h.served] at htask
  obtain ⟨e, he, rfl⟩ := List.mem_map.mp htask
  exact h.asked_lt e (List.mem_of_mem_filter he)

theorem askedFor_eq_nil (h : Valid g s) {t : Nat} (ht : s.plans.length ≤ t) : s.askedFor t = [] := by
  unfold askedFor
  rw [List.map_eq_nil_iff, List.filter_eq_nil_iff]
  intro task htask
  obtain ⟨e, he, rfl⟩ := List.mem_map.mp htask
  have := h.asked_lt e he
  simp only [decide_eq_true_eq]
  omega

theorem packet_append {plan : DpdPlan} {s' : DpdSystem} (hplans : s'.plans = s.plans ++ [plan])
    {t : Nat} (ht : t < s.plans.length) : s'.packet t = s.packet t := by
  unfold packet
  rw [hplans, List.getElem?_append_left ht]

theorem packet_last {plan : DpdPlan} {s' : DpdSystem} (hplans : s'.plans = s.plans ++ [plan]) :
    s'.packet (s'.plans.length - 1) = plan.packet := by
  unfold packet
  rw [hplans, List.length_append, List.length_singleton, Nat.add_sub_cancel,
    List.getElem?_append_right (Nat.le_refl _)]
  simp

theorem Valid.traverse (h : Valid g s) (root : Nat) (p : Int) (htodo : s.todo = []) :
    Valid g { s with
      todo := .store root p :: (g.bang p root s.enabled).1
      enabled := (g.bang p root s.enabled).2
      plans := s.plans ++ [⟨root, p, s.enabled, callsOf (g.bang p root s.enabled).1⟩] } := by
  have hrendering := bang_renders (g := g) (p := p) root s.enabled
  have hlength : (s.plans ++ [(⟨root, p, s.enabled, callsOf (g.bang p root s.enabled).1⟩ :
      DpdPlan)]).length = s.plans.length + 1 := by
    rw [List.length_append, List.length_singleton]
  have hrest : ∀ t, s.rest t = [] := by
    intro t
    unfold rest
    rw [htodo]
    split <;> rfl
  refine ⟨?_, (hrendering.nested h.push).2, ?_, h.numbered, ?_, h.served, ?_, ?_, ?_, ?_⟩
  · intro plan hplan
    rcases List.mem_append.mp hplan with hold | hnew
    · exact h.plans plan hold
    · rw [List.mem_singleton.mp hnew]
      exact ⟨h.push, _, hrendering⟩
  · intro e he
    show e.1.traversal < (s.plans ++ [_]).length
    rw [hlength]
    exact Nat.lt_succ_of_lt (h.asked_lt e he)
  · intro _
    show 0 < (s.plans ++ [_]).length
    rw [hlength]
    exact Nat.succ_pos _
  · -- the methods of an old plan have been asked for, those of the new one are to be queued
    intro t plan hplan
    show s.askedFor t ++ (if t + 1 = (s.plans ++ [_]).length then _ else []) = plan.calls
    rw [hlength]
    rcases Nat.lt_or_ge t s.plans.length with hlt | hge
    · have hold : s.plans[t]? = some plan := by
        rw [← hplan]
        exact (List.getElem?_append_left hlt).symm
      rw [if_neg (by omega), ← hrest t]
      exact h.asked_eq t plan hold
    · obtain ⟨hlt, _⟩ := List.getElem?_eq_some_iff.mp hplan
      have hlt : t < (s.plans ++ [_]).length := hlt
      rw [hlength] at hlt
      obtain rfl : t = s.plans.length := by omega
      have hnew : plan = ⟨root, p, s.enabled, callsOf (g.bang p root s.enabled).1⟩ := by
        have hlast : (s.plans ++ [_])[s.plans.length]? = some plan := hplan
        rw [List.getElem?_append_right (Nat.le_refl _), Nat.sub_self] at hlast
        exact (Option.some.inj hlast).symm
      rw [if_pos rfl, askedFor_eq_nil h (Nat.le_refl _), hnew]
      rfl
  · rw [packet_last rfl]
    exact ready_bang root s.enabled _
  · intro task htask hdisturbed
    have hlt := h.served_lt (List.mem_append_right _ htask)
    rw [packet_append rfl hlt]
    exact h.waiting_packet task htask hdisturbed
  · intro e he hdisturbed
    have hlt := h.served_lt (List.mem_append_left _ (List.mem_map_of_mem he))
    rw [packet_append rfl hlt]
    exact h.log_packet e he hdisturbed

/-- A packet is stored: what waits in this object for another traversal is disturbed. -/
theorem Valid.store (h : Valid g s) {o : Nat} {p : Int} {acts : List DpdAct}
    (htodo : s.todo = .store o p :: acts) :
    Valid g { s with
      contextPacket := Function.update s.contextPacket o p
      todo := acts
      disturbed := fun n => s.disturbed n || s.waiting.any fun task =>
        task.index = n && task.call.object = o && s.packet task.traversal ≠ p } := by
  have hready := h.ready
  rw [htodo] at hready
  obtain ⟨hp, hready⟩ := hready
  have hcalls : callsOf s.todo = callsOf acts := by
    rw [htodo]
    rfl
  refine ⟨h.plans, h.push, h.asked_lt, h.numbered, ?_, h.served, ?_, ?_, ?_, ?_⟩
  · intro _
    exact h.started (by rw [htodo]; exact List.cons_ne_nil _ _)
  · intro t plan hplan
    have := h.asked_eq t plan hplan
    unfold rest at this
    rw [hcalls] at this
    exact this
  · refine hready.mono ?_
    intro o' ho'
    show Function.update s.contextPacket o p o' = _
    by_cases heq : o' = o
    · subst heq
      rw [Function.update_self]
      exact hp
    · rw [Function.update_of_ne heq]
      exact ho'.resolve_left heq
  · intro task htask hdisturbed
    have hor : (s.disturbed task.index || s.waiting.any fun task' =>
      task'.index = task.index && task'.call.object = o &&
        s.packet task'.traversal ≠ p) = false := hdisturbed
    obtain ⟨hold, hany⟩ := Bool.or_eq_false_iff.mp hor
    show Function.update s.contextPacket o p task.call.object = s.packet task.traversal
    by_cases heq : task.call.object = o
    · rw [heq, Function.update_self]
      have hnone := List.any_eq_false.mp hany task htask
      by_contra hne
      apply hnone
      simp [heq, Ne.symm hne]
    · rw [Function.update_of_ne heq]
      exact h.waiting_packet task htask hold
  · intro e he hdisturbed
    exact h.log_packet e he (Bool.or_eq_false_iff.mp hdisturbed).1

/-- The methods of a traversal when one more is to be queued. -/
theorem askedFor_append (call : DpdCall) (room : Bool) (t : Nat) {s' : DpdSystem}
    (hasked : s'.asked = s.asked ++ [(s.next call, room)]) :
    s'.askedFor t = s.askedFor t ++ if s.plans.length - 1 = t then [call] else [] := by
  unfold askedFor
  rw [hasked, List.map_append, List.filter_append, List.map_append]
  congr 1
  split
  · next heq => simp [next, heq]
  · next hne => simp [next, hne]

/-- Whether there is room for it or not, a method has been asked for. -/
theorem Valid.ask (h : Valid g s) {call : DpdCall} {acts : List DpdAct} {room : Bool}
    (htodo : s.todo = .queue call :: acts) (s' : DpdSystem) (hplans : s'.plans = s.plans)
    (hacts : s'.todo = acts) (hasked : s'.asked = s.asked ++ [(s.next call, room)]) :
    (∀ e ∈ s'.asked, e.1.traversal < s'.plans.length) ∧
      (∀ (i : Nat) (e : DpdTask × Bool), s'.asked[i]? = some e → e.1.index = i) ∧
      ∀ t plan, s'.plans[t]? = some plan → s'.askedFor t ++ s'.rest t = plan.calls := by
  have hpos : 0 < s.plans.length := h.started (by rw [htodo]; exact List.cons_ne_nil _ _)
  refine ⟨fun e he => ?_, fun i e he => ?_, fun t plan hplan => ?_⟩
  · rw [hasked] at he
    rw [hplans]
    rcases List.mem_append.mp he with hold | hnew
    · exact h.asked_lt e hold
    · rw [List.mem_singleton.mp hnew]
      exact Nat.sub_lt hpos Nat.zero_lt_one
  · rw [hasked] at he
    rcases Nat.lt_or_ge i s.asked.length with hlt | hge
    · rw [List.getElem?_append_left hlt] at he
      exact h.numbered i e he
    · rw [List.getElem?_append_right hge] at he
      obtain ⟨hlt, _⟩ := List.getElem?_eq_some_iff.mp he
      rw [List.length_singleton] at hlt
      obtain rfl : i = s.asked.length := by omega
      rw [Nat.sub_self] at he
      cases he
      rfl
  · rw [hplans] at hplan
    have hold := h.asked_eq t plan hplan
    unfold rest at hold ⊢
    rw [askedFor_append call room t hasked, hplans, hacts, ← hold, htodo, callsOf_queue,
      List.append_assoc]
    by_cases heq : t + 1 = s.plans.length
    · rw [if_pos heq, if_pos heq, if_pos (by omega)]
      rfl
    · rw [if_neg heq, if_neg heq, if_neg (by omega)]
      rfl

theorem Valid.add (h : Valid g s) {call : DpdCall} {acts : List DpdAct}
    (htodo : s.todo = .queue call :: acts) :
    Valid g { s with
      todo := acts
      queue := s.queue ++ [s.next call]
      asked := s.asked ++ [(s.next call, true)] } := by
  have hready := h.ready
  rw [htodo] at hready
  obtain ⟨hstored, hready⟩ := hready
  have hpos : 0 < s.plans.length := h.started (by rw [htodo]; exact List.cons_ne_nil _ _)
  obtain ⟨hlt, hnumbered, hasked⟩ := h.ask htodo { s with
    todo := acts
    queue := s.queue ++ [s.next call]
    asked := s.asked ++ [(s.next call, true)] } rfl rfl rfl
  refine ⟨h.plans, h.push, hlt, hnumbered, fun _ => hpos, ?_, hasked, hready, ?_, h.log_packet⟩
  · show s.log.map Prod.fst ++ (s.worker.toList ++ (s.queue ++ [s.next call])) = _
    rw [List.filter_append, List.map_append, ← h.served]
    unfold waiting
    rw [List.append_assoc, List.append_assoc]
    rfl
  · intro task htask hdisturbed
    have htask : task ∈ s.worker.toList ++ (s.queue ++ [s.next call]) := htask
    rw [← List.append_assoc] at htask
    rcases List.mem_append.mp htask with hold | hnew
    · exact h.waiting_packet task hold hdisturbed
    · rw [List.mem_singleton.mp hnew]
      exact hstored

theorem Valid.addFull (h : Valid g s) {call : DpdCall} {acts : List DpdAct}
    (htodo : s.todo = .queue call :: acts) :
    Valid g { s with
      todo := acts
      asked := s.asked ++ [(s.next call, false)] } := by
  have hready := h.ready
  rw [htodo] at hready
  have hpos : 0 < s.plans.length := h.started (by rw [htodo]; exact List.cons_ne_nil _ _)
  obtain ⟨hlt, hnumbered, hasked⟩ := h.ask htodo { s with
    todo := acts
    asked := s.asked ++ [(s.next call, false)] } rfl rfl rfl
  refine ⟨h.plans, h.push, hlt, hnumbered, fun _ => hpos, ?_, hasked, hready.2, h.waiting_packet,
    h.log_packet⟩
  show s.log.map Prod.fst ++ s.waiting = _
  rw [List.filter_append, List.map_append, ← h.served]
  exact (List.append_nil _).symm

theorem Valid.step (h : Valid g s) (hstep : Step g s s') : Valid g s' := by
  cases hstep with
  | enable o i toggle htodo hpush =>
      refine ⟨h.plans, ?_, h.asked_lt, h.numbered, h.started, h.served, h.asked_eq, h.ready,
        h.waiting_packet, h.log_packet⟩
      intro o' ho'
      have hne : o' ≠ o := by
        rintro rfl
        rw [hpush] at ho'
        cases ho'
      show Function.update s.enabled o _ o' 0 = true ∧ Function.update s.enabled o _ o' 1 = true
      rw [Function.update_of_ne hne]
      exact h.push o' ho'
  | traverse root p htodo => exact h.traverse root p htodo
  | store htodo => exact h.store htodo
  | add htodo => exact h.add htodo
  | addFull htodo => exact h.addFull htodo
  | @start task rest hidle hqueue =>
      have hwaiting : (some task).toList ++ rest = s.waiting := by
        unfold waiting
        rw [hidle, hqueue]
        rfl
      refine ⟨h.plans, h.push, h.asked_lt, h.numbered, h.started, ?_, h.asked_eq, h.ready, ?_,
        h.log_packet⟩
      · rw [← h.served, ← hwaiting]
        rfl
      · intro task' htask'
        apply h.waiting_packet task'
        rw [← hwaiting]
        exact htask'
  | @run task hworker =>
      have hwaiting : s.waiting = task :: s.queue := by
        unfold waiting
        rw [hworker]
        rfl
      refine ⟨h.plans, h.push, h.asked_lt, h.numbered, h.started, ?_, h.asked_eq, h.ready, ?_, ?_⟩
      · rw [← h.served, hwaiting]
        show (s.log ++ [(task, s.contextPacket task.call.object)]).map Prod.fst ++
          ((none : Option DpdTask).toList ++ s.queue) = s.log.map Prod.fst ++ task :: s.queue
        rw [List.map_append, List.append_assoc]
        rfl
      · intro task' htask'
        apply h.waiting_packet task'
        rw [hwaiting]
        exact List.mem_cons_of_mem _ htask'
      · intro e he hdisturbed
        rcases List.mem_append.mp he with hold | hnew
        · exact h.log_packet e hold hdisturbed
        · obtain rfl := List.mem_singleton.mp hnew
          exact h.waiting_packet task (by rw [hwaiting]; exact List.mem_cons_self) hdisturbed

theorem Reachable.valid (h : Reachable g s) : Valid g s := by
  induction h with
  | init => exact Valid.init g
  | step _ hstep ih => exact ih.step hstep

end Steps

/-! ## Traversals are nested -/

/-- The queue had room for all methods of a traversal so far, and no other packet was stored in
their objects while they were waiting. -/
def Undisturbed (s : DpdSystem) (t : Nat) : Prop :=
  ∀ e ∈ s.asked, e.1.traversal = t → e.2 = true ∧ s.disturbed e.1.index = false

/-- What is asked of one traversal, in one state of a run. -/
structure TraversalNested (g : DpdPatch) (s : DpdSystem) (t : Nat) (plan : DpdPlan) : Prop where
  /-- What it queues is the rendering of the chain below its root, by the outlets that were
  enabled when it started. -/
  rendering : ∃ flags', Rendering g plan.root plan.enabled plan.calls flags'
  /-- All of it is to be queued, in this order; each method that was has a number of its own. -/
  asked : s.askedFor t ++ s.rest t = plan.calls
  numbered : ∀ (i : Nat) (e : DpdTask × Bool), s.asked[i]? = some e → e.1.index = i
  /-- The methods that are run are those that the queue had room for, in this order. -/
  inOrder : (s.executed g t) <+: (s.queuedFor t).filter g.has
  whole : s.Finished t → s.executed g t = (s.queuedFor t).filter g.has
  /-- Each reads the packet of the traversal, unless another packet was stored in its object
  while it was waiting. -/
  packet : ∀ e ∈ s.log, e.1.traversal = t → s.disturbed e.1.index = false → e.2 = plan.packet
  /-- If neither happens to a method of the traversal, the pushes and pops are nested. -/
  brackets : s.Undisturbed t → s.Finished t → Nested (s.matrixOps g t)

section Nested

variable {g : DpdPatch} {s : DpdSystem}

/-- Each push and each pop is a method of its object. -/
theorem has_of_bracket {call : DpdCall} {b : Bracket} (h : g.bracketOf call = some b) :
    g.has call = true := by
  unfold DpdPatch.bracketOf at h
  split at h
  · next hpush =>
      obtain ⟨left, right, houtlets, _⟩ := g.push_outlets _ hpush
      unfold DpdPatch.has
      rw [houtlets]
      split at h
      · next hmethod =>
          rw [hmethod]
          rfl
      · next hmethod =>
          rw [hmethod]
          rfl
      · cases h
  · cases h

theorem brackets_filter_has (calls : List DpdCall) :
    g.brackets (calls.filter g.has) = g.brackets calls := by
  induction calls with
  | nil => rfl
  | cons call rest ih =>
      cases hhas : g.has call with
      | true =>
          rw [List.filter_cons_of_pos hhas]
          unfold DpdPatch.brackets at ih ⊢
          rw [List.filterMap_cons, List.filterMap_cons, ih]
      | false =>
          rw [List.filter_cons_of_neg (by rw [hhas]; exact Bool.false_ne_true), ih]
          cases hbracket : g.bracketOf call with
          | none => exact (brackets_cons_none hbracket rest).symm
          | some b =>
              rw [has_of_bracket hbracket] at hhas
              cases hhas

theorem Valid.executed_prefix (h : Valid g s) (t : Nat) :
    s.executed g t <+: (s.queuedFor t).filter g.has := by
  unfold executed queuedFor
  rw [← h.served, List.filter_append, List.map_append, List.filter_append]
  exact List.prefix_append _ _

/-- When nothing waits, all that was queued has been run. -/
theorem Valid.executed_of_finished (h : Valid g s) {t : Nat} (hfinished : s.Finished t) :
    s.executed g t = (s.queuedFor t).filter g.has := by
  have hnone : s.waiting.filter (fun task => task.traversal = t) = [] := by
    rw [List.filter_eq_nil_iff]
    intro task htask
    simpa using hfinished.2 task htask
  unfold executed queuedFor
  rw [← h.served, List.filter_append, hnone, List.append_nil]

/-- Where there was room for all, all is queued that was to be. -/
theorem queuedFor_eq {t : Nat} (h : s.Undisturbed t) : s.queuedFor t = s.askedFor t := by
  unfold queuedFor askedFor
  rw [List.filter_map, List.filter_map, List.filter_filter]
  refine congrArg _ (congrArg _ (List.filter_congr fun e he => ?_))
  by_cases ht : e.1.traversal = t
  · simp [ht, (h e he ht).1]
  · simp [ht]

/-- Without a context packet nothing is pushed, with one all is. -/
theorem matrixOps_eq {t : Nat} {p : Int} (h : ∀ e ∈ s.log, e.1.traversal = t → e.2 = p) :
    s.matrixOps g t = if p = -1 then [] else g.brackets (s.executed g t) := by
  unfold matrixOps executed
  rw [brackets_filter_has, List.filter_map, List.filter_map, List.filter_filter]
  split
  · next hp =>
      have hnone : s.log.filter (fun e => (((fun task => decide (task.traversal = t)) ∘ Prod.fst) e
          && decide (e.2 ≠ -1))) = [] := by
        rw [List.filter_eq_nil_iff]
        intro e he
        simp only [Function.comp, Bool.and_eq_true, decide_eq_true_eq, not_and, not_not]
        intro heq
        rw [h e he heq, hp]
      rw [hnone]
      rfl
  · next hp =>
      have hall : s.log.filter (fun e => (((fun task => decide (task.traversal = t)) ∘ Prod.fst) e
          && decide (e.2 ≠ -1))) =
          s.log.filter ((fun task => decide (task.traversal = t)) ∘ Prod.fst) := by
        apply List.filter_congr
        intro e he
        cases htest : ((fun task => decide (task.traversal = t)) ∘ Prod.fst) e with
        | false => rfl
        | true =>
            have heq : e.1.traversal = t := of_decide_eq_true htest
            rw [h e he heq, Bool.true_and, decide_eq_true_eq]
            exact hp
      rw [hall]

/-- In every run each traversal is nested, as far as the queue had room for it and nobody
stored another packet. -/
theorem traversals_nested (g : DpdPatch) (s : DpdSystem) (hs : Reachable g s) (t : Nat)
    (plan : DpdPlan) (hplan : s.plans[t]? = some plan) : TraversalNested g s t plan := by
  have h := hs.valid
  obtain ⟨hflags, flags', hrendering⟩ := h.plans plan (List.mem_of_getElem? hplan)
  have hpacket : ∀ e ∈ s.log, e.1.traversal = t → s.disturbed e.1.index = false →
      e.2 = plan.packet := by
    intro e he heq hdisturbed
    subst heq
    rw [h.log_packet e he hdisturbed]
    unfold DpdSystem.packet
    rw [hplan]
    rfl
  refine ⟨⟨flags', hrendering⟩, h.asked_eq t plan hplan, h.numbered, h.executed_prefix t,
    fun hfinished => h.executed_of_finished hfinished, hpacket, fun hquiet hfinished => ?_⟩
  have hlog : ∀ e ∈ s.log, e.1.traversal = t → e.2 = plan.packet := by
    intro e he heq
    have hserved : e.1 ∈ s.log.map Prod.fst ++ s.waiting :=
      List.mem_append_left _ (List.mem_map_of_mem he)
    rw [h.served] at hserved
    obtain ⟨e', he', hsame⟩ := List.mem_map.mp hserved
    refine hpacket e he heq ?_
    rw [← hsame]
    exact (hquiet e' (List.mem_of_mem_filter he') (by rw [hsame, heq])).2
  rw [matrixOps_eq hlog]
  split
  · exact .nil
  · have hall := h.asked_eq t plan hplan
    rw [hfinished.1, List.append_nil] at hall
    rw [h.executed_of_finished hfinished, queuedFor_eq hquiet, hall, brackets_filter_has]
    exact (hrendering.nested hflags).1

/-- A `3dp_push` with nothing connected to it. -/
def pushPatch : DpdPatch where
  object := fun _ => ⟨true, false, false, [⟨true, []⟩, ⟨true, []⟩], id⟩
  rank := fun _ => 0
  acyclic := by
    intro o outlet houtlet c hc
    obtain rfl | rfl : outlet = ⟨true, []⟩ ∨ outlet = ⟨true, []⟩ := by simpa using houtlet
    · exact absurd hc List.not_mem_nil
    · exact absurd hc List.not_mem_nil
  isPush := fun _ => true
  push_outlets := fun _ _ => ⟨[], [], rfl, fun _ => rfl⟩

/-- Two objects with an inspector, on one outlet. -/
def fanPatch : DpdPatch where
  object := fun o =>
    if o = 0 then ⟨true, false, false, [⟨true, [1, 2]⟩], id⟩
    else ⟨true, true, false, [⟨true, []⟩], id⟩
  rank := fun o => if o = 0 then 1 else 0
  acyclic := by
    intro o outlet houtlet c hc
    by_cases ho : o = 0
    · rw [if_pos ho] at houtlet
      obtain rfl := List.mem_singleton.mp houtlet
      have hc : c = 1 ∨ c = 2 := by simpa using hc
      rw [if_pos ho, if_neg (by omega)]
      exact Nat.zero_lt_one
    · rw [if_neg ho] at houtlet
      obtain rfl := List.mem_singleton.mp houtlet
      exact absurd hc List.not_mem_nil
  isPush := fun _ => false
  push_outlets := fun _ h => Bool.noConfusion h

/-- A `3dp_push` on the right outlet of another. -/
def pushesPatch : DpdPatch where
  object := fun o =>
    if o = 0 then ⟨true, false, false, [⟨true, []⟩, ⟨true, [1]⟩], id⟩
    else ⟨true, false, false, [⟨true, []⟩, ⟨true, []⟩], id⟩
  rank := fun o => if o = 0 then 1 else 0
  acyclic := by
    intro o outlet houtlet c hc
    by_cases ho : o = 0
    · rw [if_pos ho] at houtlet
      obtain rfl | rfl : outlet = ⟨true, []⟩ ∨ outlet = ⟨true, [1]⟩ := by simpa using houtlet
      · exact absurd hc List.not_mem_nil
      · rw [if_pos ho, List.mem_singleton.mp hc]
        exact Nat.zero_lt_one
    · rw [if_neg ho] at houtlet
      obtain rfl | rfl : outlet = ⟨true, []⟩ ∨ outlet = ⟨true, []⟩ := by simpa using houtlet
      · exact absurd hc List.not_mem_nil
      · exact absurd hc List.not_mem_nil
  isPush := fun _ => true
  push_outlets := fun o _ => by
    by_cases ho : o = 0
    · rw [if_pos ho]
      exact ⟨[], [1], rfl, fun _ => rfl⟩
    · rw [if_neg ho]
      exact ⟨[], [], rfl, fun _ => rfl⟩

/-- The worker runs while the inner object is still to be pushed. -/
theorem traversals_nested_pushes : ∃ s plan, Reachable pushesPatch s ∧
    s.plans[0]? = some plan ∧ TraversalNested pushesPatch s 0 plan ∧ s.Undisturbed 0 ∧
    s.Finished 0 ∧ s.matrixOps pushesPatch 0 = [.push 0, .push 1, .pop 1, .pop 0] := by
  have h₁ := Reachable.step (Reachable.init : Reachable pushesPatch init) (.traverse 0 5 rfl)
  have h₂ := Reachable.step h₁ (.store rfl)
  have h₃ := Reachable.step h₂ (.add rfl)
  have h₄ := Reachable.step h₃ (.start rfl rfl)
  have h₅ := Reachable.step h₄ (.store rfl)
  have h₆ := Reachable.step h₅ (.run rfl)
  have h₇ := Reachable.step (Reachable.step h₆ (.add rfl)) (.store rfl)
  have h₈ := Reachable.step (Reachable.step h₇ (.add rfl)) (.add rfl)
  have h₉ := Reachable.step h₈ (.add rfl)
  have r₁ := Reachable.step (Reachable.step h₉ (.start rfl rfl)) (.run rfl)
  have r₂ := Reachable.step (Reachable.step r₁ (.start rfl rfl)) (.run rfl)
  have r₃ := Reachable.step (Reachable.step r₂ (.start rfl rfl)) (.run rfl)
  have r₄ := Reachable.step (Reachable.step r₃ (.start rfl rfl)) (.run rfl)
  refine ⟨_, _, r₄, rfl, traversals_nested pushesPatch _ r₄ 0 _ rfl, ?_,
    ⟨rfl, fun _ h => absurd h List.not_mem_nil⟩, rfl⟩
  intro e he _
  simp only [init, List.nil_append, List.cons_append, List.mem_cons, List.not_mem_nil,
    or_false] at he
  rcases he with rfl | rfl | rfl | rfl | rfl <;> exact ⟨rfl, rfl⟩

/-- The queue has room for the push of a `3dp_push`, but not for its pop. -/
theorem push_without_pop : ∃ s, Reachable pushPatch s ∧ s.todo = [] ∧ s.waiting = [] ∧
    s.matrixOps pushPatch 0 = [.push 0] := by
  have h₁ := Reachable.step (Reachable.init : Reachable pushPatch init) (.traverse 0 5 rfl)
  have h₂ := Reachable.step h₁ (.store rfl)
  have h₃ := Reachable.step h₂ (.add rfl)
  have h₄ := Reachable.step h₃ (.addFull rfl)
  have h₅ := Reachable.step h₄ (.start rfl rfl)
  have h₆ := Reachable.step h₅ (.run rfl)
  exact ⟨_, h₆, rfl, rfl, rfl⟩

/-- A second traversal stores its packet before a method of the first is run. -/
theorem packet_of_another : ∃ s, Reachable pushPatch s ∧
    s.log = [(⟨0, 0, ⟨0, .accum 1⟩⟩, 6)] ∧ s.packet 0 = 5 := by
  have h₁ := Reachable.step (Reachable.init : Reachable pushPatch init) (.traverse 0 5 rfl)
  have h₂ := Reachable.step h₁ (.store rfl)
  have h₃ := Reachable.step h₂ (.add rfl)
  have h₄ := Reachable.step h₃ (.add rfl)
  have h₅ := Reachable.step h₄ (.traverse 0 6 rfl)
  have h₆ := Reachable.step h₅ (.store rfl)
  have h₇ := Reachable.step h₆ (.start rfl rfl)
  have h₈ := Reachable.step h₇ (.run rfl)
  exact ⟨_, h₈, rfl, rfl⟩

theorem inspectors_first : ∃ s plan, Reachable fanPatch s ∧ s.plans[0]? = some plan ∧
    plan.calls = [⟨0, .accum 0⟩, ⟨1, .inspector⟩, ⟨2, .inspector⟩, ⟨1, .accum 0⟩,
      ⟨2, .accum 0⟩] :=
  ⟨_, _, Reachable.step (Reachable.init : Reachable fanPatch init) (.traverse 0 5 rfl), rfl, rfl⟩

/-- A full queue, another packet, and two objects on one outlet. -/
theorem nesting_limits :
    (∃ s, Reachable pushPatch s ∧ s.todo = [] ∧ s.waiting = [] ∧
      s.matrixOps pushPatch 0 = [.push 0]) ∧
    (∃ s, Reachable pushPatch s ∧ s.log = [(⟨0, 0, ⟨0, .accum 1⟩⟩, 6)] ∧ s.packet 0 = 5) ∧
    ∃ s plan, Reachable fanPatch s ∧ s.plans[0]? = some plan ∧
      plan.calls = [⟨0, .accum 0⟩, ⟨1, .inspector⟩, ⟨2, .inspector⟩, ⟨1, .accum 0⟩,
        ⟨2, .accum 0⟩] :=
  ⟨push_without_pop, packet_of_another, inspectors_first⟩

end Nested

end DpdSystem

end PureDataPacket
