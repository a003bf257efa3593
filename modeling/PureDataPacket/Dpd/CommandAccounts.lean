/-
# `PureDataPacket.Dpd.CommandAccounts` — everything is given back once

What is to be done for a use of a command (each packet released, the command marked
unused) has been done, or is still owed by the last task of the use.  This holds as
long as no such task meets a full queue.

| | |
| :-- | :-- |
| `MayMiss` | a task that may meet a full queue: its process method does not end the use |
| `Accounted` | what was done and what is owed is what there is to do |
| `owed_inFlight` | what is owed is owed by a task in flight |
| `NoneLost` | a command that is marked used has a last task in flight |
| `CommandsKept` | what is asked of the command objects, in one state of a run |
-/
import PureDataPacket.Dpd.CommandLife
import Mathlib.Data.List.Count
import Mathlib.Data.List.Perm.Basic

namespace PureDataPacket

/-- What is to be done for a use, from when the command is claimed. -/
def CommandUse.duties (x : CommandUse) (use : Nat) : List (Nat × CommandAct) :=
  ((List.range x.packets.length).map CommandAct.markUnused ++ [CommandAct.suicide]).map
    fun a => (use, a)

/-- What is to be done for all uses. -/
def allDuties (uses : List CommandUse) : List (Nat × CommandAct) :=
  uses.zipIdx.flatMap fun p => p.1.duties p.2

theorem allDuties_append (uses : List CommandUse) (x : CommandUse) :
    allDuties (uses ++ [x]) = allDuties uses ++ x.duties uses.length := by
  unfold allDuties
  rw [List.zipIdx_append, List.flatMap_append]
  simp

theorem lt_of_mem_allDuties {uses : List CommandUse} {e : Nat × CommandAct}
    (h : e ∈ allDuties uses) : e.1 < uses.length := by
  obtain ⟨⟨x, use⟩, hx, he⟩ := List.mem_flatMap.mp h
  obtain ⟨_, _, rfl⟩ := List.mem_map.mp he
  have := List.mem_zipIdx hx
  show use < _
  omega

theorem duties_nodup (x : CommandUse) (use : Nat) : (x.duties use).Nodup := by
  unfold CommandUse.duties
  apply List.Nodup.map (fun a b h => (Prod.mk.inj h).2)
  rw [List.nodup_append]
  refine ⟨List.Nodup.map (fun a b h => by injection h) List.nodup_range,
    List.nodup_singleton _, ?_⟩
  intro a ha b hb heq
  obtain ⟨i, _, rfl⟩ := List.mem_map.mp ha
  rw [List.mem_singleton.mp hb] at heq
  cases heq

theorem allDuties_nodup (uses : List CommandUse) : (allDuties uses).Nodup := by
  induction uses using List.reverseRecOn with
  | nil => exact List.nodup_nil
  | append_singleton uses x ih =>
      rw [allDuties_append, List.nodup_append]
      refine ⟨ih, duties_nodup x _, ?_⟩
      intro e he e' he' heq
      have hlt := lt_of_mem_allDuties he
      obtain ⟨_, _, rfl⟩ := List.mem_map.mp he'
      rw [heq] at hlt
      exact Nat.lt_irrefl _ hlt

/-- What a task owes, before its process method or callback is called. -/
def CommandTask.owes (t : CommandTask) : List (Nat × CommandAct) :=
  t.ending.map fun a => (t.use, a)

/-- The last task of a use owes all its duties, the others nothing. -/
theorem owes_tasks (kind : CommandKind) (use command : Nat) (packets : List Int) :
    (kind.tasks use command packets).flatMap CommandTask.owes =
      CommandUse.duties ⟨command, kind, packets⟩ use := by
  unfold CommandKind.tasks
  rw [List.range_succ, List.map_append, List.flatMap_append]
  have hearlier : ((List.range kind.last).map fun i =>
      (⟨use, command, kind, i, packets⟩ : CommandTask)).flatMap CommandTask.owes = [] := by
    rw [List.flatMap_eq_nil_iff]
    intro t ht
    obtain ⟨i, hi, rfl⟩ := List.mem_map.mp ht
    have hlt := List.mem_range.mp hi
    unfold CommandTask.owes
    rw [ending_notLast (Nat.ne_of_lt hlt), List.map_nil]
  have hend : (⟨use, command, kind, kind.last, packets⟩ : CommandTask).owes =
      CommandUse.duties ⟨command, kind, packets⟩ use := by
    unfold CommandTask.owes
    rw [ending_last rfl]
    rfl
  rw [hearlier, List.map_singleton, List.flatMap_singleton, hend, List.nil_append]

/-- What the process method that is running still owes. -/
def runningOwes : Option (CommandTask × List CommandAct) → List (Nat × CommandAct)
  | none => []
  | some (t, acts) =>
      if t.kind.endsInCallback = true then t.owes
      else (acts.filter (· ≠ .run)).map fun a => (t.use, a)

namespace CommandSystem

def owed (s : CommandSystem) : List (Nat × CommandAct) :=
  s.finished.flatMap CommandTask.owes ++
    (runningOwes s.worker ++
      (s.queue.flatMap CommandTask.owes ++ s.todo.flatMap CommandTask.owes))

/-- A task that may meet a full queue: its process method does not end the use. -/
def MayMiss (t : CommandTask) : Prop := t.kind.endsInCallback = true ∨ t.index ≠ t.kind.last

/-- What was done and what is owed is what there is to do. -/
def Accounted (s : CommandSystem) : Prop := (s.log ++ s.owed).Perm (allDuties s.uses)

section Accounts

variable {s s' : CommandSystem}

theorem filter_ending (t : CommandTask) : t.ending.filter (· ≠ .run) = t.ending := by
  apply List.filter_eq_self.mpr
  intro a ha
  unfold CommandTask.ending at ha
  split at ha
  · rcases List.mem_append.mp ha with hrelease | hend
    · obtain ⟨_, _, rfl⟩ := List.mem_map.mp hrelease
      rfl
    · rw [List.mem_singleton.mp hend]
      rfl
  · exact absurd ha List.not_mem_nil

theorem runningOwes_process (t : CommandTask) : runningOwes (some (t, t.process)) = t.owes := by
  show (if _ then _ else _) = _
  split
  · rfl
  · next hcallback =>
      unfold CommandTask.process CommandTask.owes
      rw [if_neg hcallback, List.filter_cons_of_neg (by simp), filter_ending]

theorem runningOwes_resume {t : CommandTask} {acts : List CommandAct}
    (hcallback : t.kind.endsInCallback = false) :
    runningOwes (resume t acts) = (acts.filter (· ≠ .run)).map fun a => (t.use, a) := by
  unfold resume
  split
  · next h =>
      rw [h]
      rfl
  · show (if _ then _ else _) = _
    rw [if_neg (by rw [hcallback]; exact Bool.false_ne_true)]

theorem Accounted.step (h : Accounted s) (hs : Valid s) (hstep : Step MayMiss s s') :
    Accounted s' := by
  unfold Accounted at h ⊢
  rw [List.perm_iff_count] at h ⊢
  intro e
  have he := h e
  unfold owed at he ⊢
  simp only [List.count_append] at he ⊢
  cases hstep with
  | visit factory kind packets hscan hpackets => exact he
  | scanUsed hscan hused => exact he
  | scanReuse hscan hused =>
      simp only [claim, List.flatMap_append, owes_tasks, allDuties_append, List.count_append]
      omega
  | scanNew hscan =>
      simp only [claim, List.flatMap_append, owes_tasks, allDuties_append, List.count_append]
      omega
  | add hscan htodo =>
      rw [htodo] at he
      simp only [List.flatMap_append, List.flatMap_cons, List.flatMap_nil, List.count_append,
        List.count_nil] at he ⊢
      omega
  | addFull hscan htodo hfull hcallback =>
      have hlast := hfull.resolve_left (by rw [hcallback]; exact Bool.false_ne_true)
      rw [htodo, List.flatMap_cons, CommandTask.owes, ending_notLast hlast] at he
      exact he
  | addFullCallback hscan htodo hfull hcallback =>
      rw [htodo] at he
      simp only [callBack, List.flatMap_cons, CommandTask.owes, List.count_append] at he ⊢
      omega
  | start hidle hqueue =>
      rw [hidle, hqueue] at he
      rw [runningOwes_process]
      simp only [runningOwes, List.flatMap_cons, List.count_append, List.count_nil] at he ⊢
      omega
  | @run t acts hworker =>
      have hacts := (hs.worker_at t _ hworker).run
      rw [hworker] at he
      cases hcallback : t.kind.endsInCallback with
      | true =>
          rw [if_pos hcallback] at hacts
          subst hacts
          simp only [runningOwes, hcallback, if_true, resume, finish, and_self,
            List.flatMap_append, List.flatMap_cons, List.flatMap_nil, List.count_append,
            List.count_nil] at he ⊢
          omega
      | false =>
          rw [runningOwes_resume hcallback]
          simp only [runningOwes, hcallback, finish, Bool.false_eq_true, and_false, if_false] at he ⊢
          exact he
  | @markUnused t i acts hworker =>
      have hcallback : t.kind.endsInCallback = false := by
        rcases hs.worker_at t _ hworker with heq | ⟨hcallback, _⟩
        · exact absurd (List.cons.inj heq).1 (by simp)
        · exact hcallback
      rw [hworker] at he
      rw [runningOwes_resume hcallback]
      dsimp only
      simp only [runningOwes, hcallback, Bool.false_eq_true, if_false] at he
      rw [List.filter_cons_of_pos (by simp), List.map_cons, List.count_cons] at he
      rw [List.count_append, List.count_singleton]
      omega
  | @suicide t acts hworker =>
      obtain ⟨rfl, hcallback, hlast⟩ := (hs.worker_at t _ hworker).suicide
      rw [hworker] at he
      rw [runningOwes_resume hcallback]
      dsimp only
      simp only [runningOwes, hcallback, Bool.false_eq_true, if_false] at he
      rw [List.filter_cons_of_pos (by simp), List.map_cons, List.count_cons] at he
      rw [List.count_append, List.count_singleton]
      omega
  | callback hfinished =>
      rw [hfinished] at he
      simp only [callBack, List.flatMap_cons, CommandTask.owes, List.count_append] at he ⊢
      omega

theorem Reachable.accounted (h : Reachable MayMiss s) : Accounted s := by
  induction h with
  | init => exact List.Perm.refl _
  | step hs hstep ih => exact ih.step hs.valid hstep

theorem owed_inFlight {e : Nat × CommandAct} (h : e ∈ s.owed) : ∃ t ∈ s.inFlight, t.use = e.1 := by
  have howes : ∀ {l : List CommandTask}, e ∈ l.flatMap CommandTask.owes → ∃ t ∈ l, t.use = e.1 := by
    intro l hl
    obtain ⟨t, ht, he⟩ := List.mem_flatMap.mp hl
    obtain ⟨_, _, rfl⟩ := List.mem_map.mp he
    exact ⟨t, ht, rfl⟩
  unfold owed at h
  unfold inFlight
  simp only [List.mem_append] at h ⊢
  rcases h with hfinished | hworker | hqueue | htodo
  · obtain ⟨t, ht, heq⟩ := howes hfinished
    exact ⟨t, Or.inl ht, heq⟩
  · unfold runningOwes at hworker
    split at hworker
    · exact absurd hworker List.not_mem_nil
    · next t acts heq =>
        refine ⟨t, Or.inr (Or.inl (by rw [heq]; exact List.mem_singleton_self _)), ?_⟩
        split at hworker
        · obtain ⟨_, _, rfl⟩ := List.mem_map.mp hworker
          rfl
        · obtain ⟨_, _, rfl⟩ := List.mem_map.mp hworker
          rfl
  · obtain ⟨t, ht, heq⟩ := howes hqueue
    exact ⟨t, Or.inr (Or.inr (Or.inl ht)), heq⟩
  · obtain ⟨t, ht, heq⟩ := howes htodo
    exact ⟨t, Or.inr (Or.inr (Or.inr ht)), heq⟩

/-! ## No command is lost -/

/-- A command that is marked used has a last task in flight. -/
def NoneLost (s : CommandSystem) : Prop :=
  ∀ c, s.used c = true → ∃ t ∈ s.inFlight, t.command = c ∧ t.index = t.kind.last

theorem NoneLost.step (h : NoneLost s) (hs : Valid s) (hstep : Step MayMiss s s') :
    NoneLost s' := by
  unfold NoneLost at h ⊢
  cases hs.moves hstep with
  | same hflight hused huses hcreated =>
      rw [hflight, hused]
      exact h
  | claim first rest kind packets command hflight hflight' hused huses hfree hle hlt =>
      intro c hc
      rw [hflight']
      by_cases heq : c = command
      · subst heq
        refine ⟨⟨s.uses.length, c, kind, kind.last, packets⟩, ?_, rfl, rfl⟩
        exact List.mem_append_right _ (List.mem_append_left _
          (mem_tasks.mpr ⟨kind.last, Nat.le_refl _, rfl⟩))
      · rw [hused, Function.update_of_ne heq] at hc
        obtain ⟨t, ht, hlast⟩ := h c hc
        refine ⟨t, ?_, hlast⟩
        rw [hflight] at ht
        simp only [List.mem_append] at ht ⊢
        tauto
  | drop first rest t hflight hflight' hused huses hcreated hlast =>
      have hnot : t.index ≠ t.kind.last := by
        rcases hlast with hnot | ⟨hmiss, hcallback⟩
        · exact hnot
        · exact hmiss.resolve_left (by rw [hcallback]; exact Bool.false_ne_true)
      intro c hc
      rw [hused] at hc
      obtain ⟨t', ht', hcommand, hlast'⟩ := h c hc
      refine ⟨t', ?_, hcommand, hlast'⟩
      rw [hflight] at ht'
      rw [hflight']
      rcases List.mem_append.mp ht' with hfirst | hrest
      · exact List.mem_append_left _ hfirst
      · rcases List.mem_cons.mp hrest with rfl | hrest
        · exact absurd hlast' hnot
        · exact List.mem_append_right _ hrest
  | free first rest t hflight hflight' hused huses hcreated hlast hfirst =>
      intro c hc
      rw [hused] at hc
      have hne : c ≠ t.command := by
        rintro rfl
        rw [Function.update_self] at hc
        cases hc
      rw [Function.update_of_ne hne] at hc
      obtain ⟨t', ht', hcommand, hlast'⟩ := h c hc
      refine ⟨t', ?_, hcommand, hlast'⟩
      rw [hflight] at ht'
      rw [hflight']
      rcases List.mem_append.mp ht' with hbefore | hrest
      · exact List.mem_append_left _ hbefore
      · rcases List.mem_cons.mp hrest with rfl | hrest
        · exact absurd hcommand.symm hne
        · exact List.mem_append_right _ hrest

theorem Reachable.noneLost (h : Reachable MayMiss s) : NoneLost s := by
  induction h with
  | init => exact fun _ hc => Bool.noConfusion hc
  | step hs hstep ih => exact ih.step hs.valid hstep

end Accounts

/-! ## The life of a command -/

/-- What is asked of the command objects, in one state of a run. -/
structure CommandsKept (s : CommandSystem) : Prop where
  /-- A command that `get_new_command` returns belongs to no task in flight. -/
  handed : ∀ (full : CommandTask → Prop) (s' : CommandSystem) (x : CommandUse), Step full s s' →
    s'.uses = s.uses ++ [x] → ∀ t ∈ s.inFlight, t.command ≠ x.command
  /-- Two tasks with the same command are of the same use. -/
  exclusive : ∀ t ∈ s.inFlight, ∀ t' ∈ s.inFlight, t.command = t'.command → t.use = t'.use
  /-- A command can be reused when no task of it is left, and not before. -/
  reusable : ∀ c, s.used c = false ↔ ∀ t ∈ s.inFlight, t.command ≠ c
  /-- Each duty has been done once, or is still owed. -/
  once : ∀ e ∈ allDuties s.uses, s.log.count e + s.owed.count e = 1
  /-- Nothing else is done. -/
  only : ∀ e ∈ s.log, e ∈ allDuties s.uses
  /-- With its last step all has been done for a use. -/
  done : ∀ use < s.uses.length, (∀ t ∈ s.inFlight, t.use ≠ use) →
    ∀ e ∈ allDuties s.uses, e.1 = use → s.log.count e = 1
  /-- The command is handed back in its last step. -/
  ended : ∀ use, (use, .suicide) ∈ s.log → ∀ t ∈ s.inFlight, t.use ≠ use

section Life

variable {full : CommandTask → Prop} {s s' : CommandSystem}

theorem suicide_mem_ending {t : CommandTask} (h : t.index = t.kind.last) :
    .suicide ∈ t.ending := by
  rw [ending_last h]
  exact List.mem_append_right _ (List.mem_singleton_self _)

/-- A last task in flight still has to hand the command back. -/
theorem Valid.suicide_owed (h : Valid s) {t : CommandTask} (ht : t ∈ s.inFlight)
    (hlast : t.index = t.kind.last) : (t.use, .suicide) ∈ s.owed := by
  have howes : (t.use, .suicide) ∈ t.owes := List.mem_map.mpr ⟨_, suicide_mem_ending hlast, rfl⟩
  unfold inFlight at ht
  unfold owed
  simp only [List.mem_append] at ht ⊢
  rcases ht with hfinished | hworker | hqueue | htodo
  · exact Or.inl (List.mem_flatMap.mpr ⟨t, hfinished, howes⟩)
  · refine Or.inr (Or.inl ?_)
    obtain ⟨⟨t', acts⟩, hp, rfl⟩ := List.mem_map.mp hworker
    have hp : s.worker = some (t', acts) := Option.mem_toList.mp hp
    rw [hp]
    rcases h.worker_at t' acts hp with rfl | ⟨hcallback, _, i, _, rfl⟩
    · rw [runningOwes_process]
      exact howes
    · show _ ∈ (if _ then _ else _ : List (Nat × CommandAct))
      rw [if_neg (by rw [hcallback]; exact Bool.false_ne_true)]
      exact List.mem_map.mpr ⟨.suicide, by simp, rfl⟩
  · exact Or.inr (Or.inr (Or.inl (List.mem_flatMap.mpr ⟨t, hqueue, howes⟩)))
  · exact Or.inr (Or.inr (Or.inr (List.mem_flatMap.mpr ⟨t, htodo, howes⟩)))

/-- Whatever `get_new_command` returns is free. -/
theorem Valid.handed (h : Valid s) {x : CommandUse} (hstep : Step full s s')
    (huses : s'.uses = s.uses ++ [x]) : ∀ t ∈ s.inFlight, t.command ≠ x.command := by
  have hne : ∀ {uses : List CommandUse}, uses ≠ uses ++ [x] := by
    intro uses heq
    have := congrArg List.length heq
    simp at this
  cases h.moves hstep with
  | same _ _ huses' _ => exact absurd (huses'.symm.trans huses) hne
  | claim first rest kind packets command _ _ _ huses' hfree _ _ =>
      have hx : x = ⟨command, kind, packets⟩ := by
        have := huses.symm.trans huses'
        simpa using this
      rw [hx]
      exact h.command_free hfree
  | drop _ _ _ _ _ _ huses' _ _ => exact absurd (huses'.symm.trans huses) hne
  | free _ _ _ _ _ _ huses' _ _ _ => exact absurd (huses'.symm.trans huses) hne

/-- The life of the command objects, in every run in which no task that ends a use meets a
full queue. -/
theorem commands_kept (s : CommandSystem) (hs : Reachable MayMiss s) : CommandsKept s := by
  have hvalid := hs.valid
  have hperm := List.perm_iff_count.mp hs.accounted
  have honce : ∀ e ∈ allDuties s.uses, s.log.count e + s.owed.count e = 1 := by
    intro e he
    rw [← List.count_append, hperm e]
    exact List.count_eq_one_of_mem (allDuties_nodup _) he
  have honly : ∀ e ∈ s.log, e ∈ allDuties s.uses := fun e he =>
    hs.accounted.subset (List.mem_append_left _ he)
  refine ⟨?_, hvalid.tasks.exclusive, ?_, honce, honly, ?_, ?_⟩
  · intro full s' x hstep huses
    exact hvalid.handed hstep huses
  · intro c
    constructor
    · intro hunused
      exact hvalid.command_free (Or.inl hunused)
    · intro hnone
      rw [← Bool.not_eq_true]
      intro hused
      obtain ⟨t, ht, hcommand, _⟩ := hs.noneLost c hused
      exact hnone t ht hcommand
  · intro use _ hgone e he heq
    have hzero : s.owed.count e = 0 := by
      rw [List.count_eq_zero]
      intro howed
      obtain ⟨t, ht, huse⟩ := owed_inFlight howed
      exact hgone t ht (huse.trans heq)
    have := honce e he
    omega
  · intro use hlog t ht heq
    subst heq
    obtain ⟨t', ht', hcommand, hlast⟩ := hs.noneLost _ (hvalid.tasks.used_eq t ht)
    have huse := hvalid.tasks.exclusive t' ht' t ht hcommand
    have howed := hvalid.suicide_owed ht' hlast
    rw [huse] at howed
    have hsum := honce _ (honly _ hlog)
    have hpos := List.count_pos_iff.mpr hlog
    have hpos' := List.count_pos_iff.mpr howed
    omega

theorem commands_kept_draw : ∃ s, Reachable MayMiss s ∧ CommandsKept s ∧
    s.log = [(0, .markUnused 0), (0, .suicide)] ∧ s.used 0 = false := by
  have h₁ := Reachable.step (Reachable.init : Reachable MayMiss init) (.visit 0 .draw [7] rfl rfl)
  have h₂ := Reachable.step h₁ (.scanNew rfl)
  have h₃ := Reachable.step h₂ (.add rfl rfl)
  have h₄ := Reachable.step h₃ (.start rfl rfl)
  have h₅ := Reachable.step h₄ (.run rfl)
  have h₆ := Reachable.step h₅ (.markUnused rfl)
  have h₇ := Reachable.step h₆ (.suicide rfl)
  exact ⟨_, h₇, commands_kept _ h₇, rfl, rfl⟩

/-- The queue is full when the one task of a command is added: nobody ever hands the command
back, or releases its texture. -/
theorem full_queue_loses : ∃ s, Reachable (fun _ => True) s ∧ s.scan = none ∧ s.inFlight = [] ∧
    s.uses = [⟨0, .draw, [7]⟩] ∧ s.used 0 = true ∧ s.log = [] ∧ ¬ CommandsKept s := by
  have h₁ := Reachable.step (Reachable.init : Reachable (fun _ => True) init) (.visit 0 .draw [7] rfl rfl)
  have h₂ := Reachable.step h₁ (.scanNew rfl)
  have h₃ := Reachable.step h₂ (.addFull rfl rfl trivial rfl)
  refine ⟨_, h₃, rfl, rfl, rfl, rfl, rfl, ?_⟩
  intro h
  have := h.done 0 (Nat.zero_lt_one) (fun t ht => absurd ht List.not_mem_nil) (0, .suicide)
    (by decide) rfl
  revert this
  decide

end Life

end CommandSystem

end PureDataPacket
