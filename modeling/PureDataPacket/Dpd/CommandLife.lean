/-
# `PureDataPacket.Dpd.CommandLife` — one use after the other

A command with a task in flight is marked used, so the factory does not hand it out;
the task that marks it unused is the last one of its use.  As long as that task is
queued, every packet that the command holds is released once, and the command is
handed back once.  If the queue is full then, neither ever happens.

| | |
| :-- | :-- |
| `TasksValid` | what is known of the tasks in flight |
| `Moves` | what a step does to the tasks in flight |
| `TasksValid.claim` | a command that nobody uses is claimed |
| `TasksValid.alone` | no task of its use comes after the last one |
-/
import PureDataPacket.Dpd.Command
import Mathlib.Data.List.Nodup

namespace PureDataPacket

/-! ## Tasks in flight -/

section Tasks

variable {flight : List CommandTask} {used : Nat → Bool} {uses : List CommandUse} {created : Nat}

/-- What is known of the tasks in flight. -/
structure TasksValid (flight : List CommandTask) (used : Nat → Bool) (uses : List CommandUse)
    (created : Nat) : Prop where
  use_eq : ∀ t ∈ flight, uses[t.use]? = some ⟨t.command, t.kind, t.packets⟩
  index_le : ∀ t ∈ flight, t.index ≤ t.kind.last
  used_eq : ∀ t ∈ flight, used t.command = true
  command_lt : ∀ t ∈ flight, t.command < created
  exclusive : ∀ t ∈ flight, ∀ t' ∈ flight, t.command = t'.command → t.use = t'.use
  ordered : flight.Pairwise fun t t' => t.use = t'.use → t.index < t'.index

theorem mem_tasks {kind : CommandKind} {use command : Nat} {packets : List Int}
    {t : CommandTask} : t ∈ kind.tasks use command packets ↔
      ∃ i ≤ kind.last, t = ⟨use, command, kind, i, packets⟩ := by
  unfold CommandKind.tasks
  rw [List.mem_map]
  constructor
  · rintro ⟨i, hi, rfl⟩
    exact ⟨i, Nat.le_of_lt_succ (List.mem_range.mp hi), rfl⟩
  · rintro ⟨i, hi, rfl⟩
    exact ⟨i, List.mem_range.mpr (Nat.lt_succ_of_le hi), rfl⟩

theorem tasks_ordered (kind : CommandKind) (use command : Nat) (packets : List Int) :
    (kind.tasks use command packets).Pairwise fun t t' => t.use = t'.use → t.index < t'.index := by
  unfold CommandKind.tasks
  rw [List.pairwise_map]
  refine List.Pairwise.imp ?_ List.pairwise_lt_range
  intro i j hlt _
  exact hlt

theorem TasksValid.sublist {flight' : List CommandTask}
    (h : TasksValid flight used uses created) (hsub : flight'.Sublist flight) :
    TasksValid flight' used uses created where
  use_eq := fun t ht => h.use_eq t (hsub.subset ht)
  index_le := fun t ht => h.index_le t (hsub.subset ht)
  used_eq := fun t ht => h.used_eq t (hsub.subset ht)
  command_lt := fun t ht => h.command_lt t (hsub.subset ht)
  exclusive := fun t ht t' ht' => h.exclusive t (hsub.subset ht) t' (hsub.subset ht')
  ordered := h.ordered.sublist hsub

theorem TasksValid.claim {first rest : List CommandTask}
    (h : TasksValid (first ++ rest) used uses created) {command created' : Nat}
    (kind : CommandKind) (packets : List Int)
    (hfree : ∀ t ∈ first ++ rest, t.command ≠ command) (hle : created ≤ created')
    (hlt : command < created') :
    TasksValid (first ++ (kind.tasks uses.length command packets ++ rest))
      (Function.update used command true) (uses ++ [⟨command, kind, packets⟩]) created' := by
  have hmem : ∀ {t}, t ∈ first ++ (kind.tasks uses.length command packets ++ rest) →
      t ∈ first ++ rest ∨ t ∈ kind.tasks uses.length command packets := by
    intro t ht
    simp only [List.mem_append] at ht ⊢
    tauto
  have hlength : ∀ t ∈ first ++ rest, t.use < uses.length := by
    intro t ht
    exact (List.getElem?_eq_some_iff.mp (h.use_eq t ht)).1
  refine ⟨?_, ?_, ?_, ?_, ?_, ?_⟩
  · intro t ht
    rcases hmem ht with hold | hnew
    · rw [List.getElem?_append_left (hlength t hold)]
      exact h.use_eq t hold
    · obtain ⟨i, _, rfl⟩ := mem_tasks.mp hnew
      simp
  · intro t ht
    rcases hmem ht with hold | hnew
    · exact h.index_le t hold
    · obtain ⟨i, hi, rfl⟩ := mem_tasks.mp hnew
      exact hi
  · intro t ht
    rcases hmem ht with hold | hnew
    · rw [Function.update_of_ne (hfree t hold)]
      exact h.used_eq t hold
    · obtain ⟨i, _, rfl⟩ := mem_tasks.mp hnew
      exact Function.update_self _ _ _
  · intro t ht
    rcases hmem ht with hold | hnew
    · exact Nat.lt_of_lt_of_le (h.command_lt t hold) hle
    · obtain ⟨i, _, rfl⟩ := mem_tasks.mp hnew
      exact hlt
  · intro t ht t' ht' heq
    rcases hmem ht with hold | hnew <;> rcases hmem ht' with hold' | hnew'
    · exact h.exclusive t hold t' hold' heq
    · obtain ⟨i, _, rfl⟩ := mem_tasks.mp hnew'
      exact absurd heq (hfree t hold)
    · obtain ⟨i, _, rfl⟩ := mem_tasks.mp hnew
      exact absurd heq.symm (hfree t' hold')
    · obtain ⟨i, _, rfl⟩ := mem_tasks.mp hnew
      obtain ⟨i', _, rfl⟩ := mem_tasks.mp hnew'
      rfl
  · have hfirst := List.pairwise_append.mp h.ordered
    rw [List.pairwise_append, List.pairwise_append]
    refine ⟨hfirst.1, ⟨tasks_ordered _ _ _ _, hfirst.2.1, ?_⟩, ?_⟩
    · intro t ht t' ht' heq
      obtain ⟨i, _, rfl⟩ := mem_tasks.mp ht
      have hold := hlength t' (List.mem_append_right _ ht')
      exact absurd hold (by rw [← heq]; exact Nat.lt_irrefl _)
    · intro t ht t' ht' heq
      rcases List.mem_append.mp ht' with hnew | hold
      · obtain ⟨i, _, rfl⟩ := mem_tasks.mp hnew
        have hold := hlength t (List.mem_append_left _ ht)
        exact absurd hold (by rw [heq]; exact Nat.lt_irrefl _)
      · exact hfirst.2.2 t ht t' hold heq

theorem TasksValid.alone {first rest : List CommandTask} {t : CommandTask}
    (h : TasksValid (first ++ t :: rest) used uses created) (hlast : t.index = t.kind.last)
    (hfirst : ∀ a ∈ first, a.use ≠ t.use) : ∀ a ∈ first ++ rest, a.use ≠ t.use := by
  intro a ha heq
  rcases List.mem_append.mp ha with hbefore | hafter
  · exact hfirst a hbefore heq
  · have hmem : a ∈ first ++ t :: rest :=
      List.mem_append_right _ (List.mem_cons_of_mem _ hafter)
    have hlt : t.index < a.index :=
      (List.pairwise_cons.mp (List.pairwise_append.mp h.ordered).2.1).1 a hafter heq.symm
    have hle := h.index_le a hmem
    have huse := h.use_eq a hmem
    rw [heq, h.use_eq t (by simp)] at huse
    have hkind : t.kind = a.kind := by
      injection huse with huse
      injection huse
    rw [← hkind] at hle
    omega

/-- The last task of a use goes, and the command is unused. -/
theorem TasksValid.free {first rest : List CommandTask} {t : CommandTask}
    (h : TasksValid (first ++ t :: rest) used uses created) (hlast : t.index = t.kind.last)
    (hfirst : ∀ a ∈ first, a.use ≠ t.use) :
    TasksValid (first ++ rest) (Function.update used t.command false) uses created := by
  have halone := h.alone hlast hfirst
  have hsub : (first ++ rest).Sublist (first ++ t :: rest) :=
    List.Sublist.append_left (List.sublist_cons_self t rest) first
  have h' := h.sublist hsub
  refine ⟨h'.use_eq, h'.index_le, ?_, h'.command_lt, h'.exclusive, h'.ordered⟩
  intro a ha
  have hne : a.command ≠ t.command := fun heq =>
    halone a ha (h.exclusive a (hsub.subset ha) t (by simp) heq)
  rw [Function.update_of_ne hne]
  exact h'.used_eq a ha

end Tasks

/-! ## What the worker still does -/

/-- Where the worker is in the process method of `t`. -/
def WorkerAt (t : CommandTask) (acts : List CommandAct) : Prop :=
  acts = t.process ∨
    (t.kind.endsInCallback = false ∧ t.index = t.kind.last ∧ ∃ i ≤ t.packets.length,
      acts = ((List.range t.packets.length).drop i).map .markUnused ++ [.suicide])

section Worker

variable {t : CommandTask} {acts : List CommandAct}

theorem ending_last (h : t.index = t.kind.last) :
    t.ending = (List.range t.packets.length).map .markUnused ++ [.suicide] := if_pos h

theorem ending_notLast (h : t.index ≠ t.kind.last) : t.ending = [] := if_neg h

theorem WorkerAt.run (h : WorkerAt t (.run :: acts)) :
    acts = if t.kind.endsInCallback = true then [] else t.ending := by
  rcases h with h | ⟨_, _, i, hi, h⟩
  · exact (List.cons.inj h).2
  · exfalso
    have hmem : CommandAct.run ∈ ((List.range t.packets.length).drop i).map .markUnused ++
        [.suicide] := by
      rw [← h]
      exact List.mem_cons_self
    rcases List.mem_append.mp hmem with hrelease | hend
    · obtain ⟨_, _, heq⟩ := List.mem_map.mp hrelease
      cases heq
    · cases List.mem_singleton.mp hend

theorem WorkerAt.markUnused {i : Nat} (h : WorkerAt t (.markUnused i :: acts)) :
    acts ≠ [] ∧ WorkerAt t acts := by
  rcases h with h | ⟨hkind, hlast, j, hj, h⟩
  · exact absurd (List.cons.inj h).1 (by simp)
  · rcases Nat.lt_or_ge j t.packets.length with hlt | hge
    · rw [List.drop_eq_getElem_cons (by simpa using hlt), List.map_cons, List.cons_append] at h
      have hrest := (List.cons.inj h).2
      refine ⟨?_, Or.inr ⟨hkind, hlast, j + 1, hlt, hrest⟩⟩
      rw [hrest]
      simp
    · rw [List.drop_eq_nil_of_le (by simpa using hge)] at h
      exact absurd (List.cons.inj h).1 (by simp)

theorem WorkerAt.suicide (h : WorkerAt t (.suicide :: acts)) :
    acts = [] ∧ t.kind.endsInCallback = false ∧ t.index = t.kind.last := by
  rcases h with h | ⟨hkind, hlast, j, hj, h⟩
  · exact absurd (List.cons.inj h).1 (by simp)
  · refine ⟨?_, hkind, hlast⟩
    rcases Nat.lt_or_ge j t.packets.length with hlt | hge
    · rw [List.drop_eq_getElem_cons (by simpa using hlt), List.map_cons, List.cons_append] at h
      exact absurd (List.cons.inj h).1 (by simp)
    · rw [List.drop_eq_nil_of_le (by simpa using hge)] at h
      exact (List.cons.inj h).2

theorem WorkerAt.ending (hcallback : t.kind.endsInCallback = false) (hne : t.ending ≠ []) :
    WorkerAt t t.ending := by
  have hlast : t.index = t.kind.last := by
    by_contra h
    exact hne (ending_notLast h)
  exact Or.inr ⟨hcallback, hlast, 0, Nat.zero_le _, ending_last hlast⟩

theorem last_of_endsInCallback {kind : CommandKind} (h : kind.endsInCallback = true) :
    kind.last = 0 := by
  cases kind <;> first | rfl | cases h

end Worker

namespace CommandSystem

/-! ## The invariant -/

/-- What is known of a state. -/
structure Valid (s : CommandSystem) : Prop where
  tasks : TasksValid s.inFlight s.used s.uses s.created
  callbacks : ∀ t ∈ s.finished, t.kind.endsInCallback = true
  worker_at : ∀ t acts, s.worker = some (t, acts) → WorkerAt t acts
  commands_lt : ∀ factory, ∀ c ∈ s.commands factory, c < s.created
  scan_lt : ∀ factory kind packets left, s.scan = some (factory, kind, packets, left) →
    ∀ c ∈ left, c < s.created

theorem Valid.init : Valid init where
  tasks := ⟨by simp [inFlight, CommandSystem.init], by simp [inFlight, CommandSystem.init],
    by simp [inFlight, CommandSystem.init], by simp [inFlight, CommandSystem.init],
    by simp [inFlight, CommandSystem.init], List.Pairwise.nil⟩
  callbacks := fun _ h => absurd h List.not_mem_nil
  worker_at := by
    intro _ _ h
    cases h
  commands_lt := fun _ _ h => absurd h List.not_mem_nil
  scan_lt := by
    intro _ _ _ _ h
    cases h

section Steps

variable {full : CommandTask → Prop} {s s' : CommandSystem}

/-- What a step does to the tasks in flight. -/
inductive Moves (full : CommandTask → Prop) (s s' : CommandSystem) : Prop
  /-- They are the same. -/
  | same (hflight : s'.inFlight = s.inFlight) (hused : s'.used = s.used) (huses : s'.uses = s.uses)
      (hcreated : s'.created = s.created)
  /-- `get_new_command` returns a command. -/
  | claim (first rest : List CommandTask) (kind : CommandKind) (packets : List Int) (command : Nat)
      (hflight : s.inFlight = first ++ rest)
      (hflight' : s'.inFlight =
        first ++ (kind.tasks s.uses.length command packets ++ rest))
      (hused : s'.used = Function.update s.used command true)
      (huses : s'.uses = s.uses ++ [⟨command, kind, packets⟩])
      (hfree : s.used command = false ∨ command = s.created)
      (hle : s.created ≤ s'.created) (hlt : command < s'.created)
  /-- A task that is not the last of its use goes, or the queue is full. -/
  | drop (first rest : List CommandTask) (t : CommandTask)
      (hflight : s.inFlight = first ++ t :: rest) (hflight' : s'.inFlight = first ++ rest)
      (hused : s'.used = s.used) (huses : s'.uses = s.uses) (hcreated : s'.created = s.created)
      (hlast : t.index ≠ t.kind.last ∨ full t ∧ t.kind.endsInCallback = false)
  /-- The last task of a use goes. -/
  | free (first rest : List CommandTask) (t : CommandTask)
      (hflight : s.inFlight = first ++ t :: rest) (hflight' : s'.inFlight = first ++ rest)
      (hused : s'.used = Function.update s.used t.command false) (huses : s'.uses = s.uses)
      (hcreated : s'.created = s.created) (hlast : t.index = t.kind.last)
      (hfirst : ∀ a ∈ first, a.use ≠ t.use)

theorem inFlight_head {t : CommandTask} {rest : List CommandTask} (hfinished : s.finished = t :: rest) :
    s.inFlight = [] ++ t :: (rest ++ (s.worker.toList.map Prod.fst ++ (s.queue ++ s.todo))) := by
  unfold inFlight
  rw [hfinished]
  rfl

theorem inFlight_worker {t : CommandTask} {acts : List CommandAct}
    (hworker : s.worker = some (t, acts)) :
    s.inFlight = s.finished ++ t :: (s.queue ++ s.todo) := by
  unfold inFlight
  rw [hworker]
  rfl

theorem inFlight_todo {t : CommandTask} {rest : List CommandTask} (htodo : s.todo = t :: rest) :
    s.inFlight =
      (s.finished ++ (s.worker.toList.map Prod.fst ++ s.queue)) ++ t :: rest := by
  unfold inFlight
  rw [htodo]
  simp only [List.append_assoc]

/-- The tasks of a use with a callback: there is only one. -/
theorem Valid.callback_alone (h : Valid s) {first rest : List CommandTask} {t : CommandTask}
    (hflight : s.inFlight = first ++ t :: rest) (hcallback : t.kind.endsInCallback = true) :
    t.index = t.kind.last ∧ ∀ a ∈ first, a.use ≠ t.use := by
  have htasks := h.tasks
  rw [hflight] at htasks
  have hzero := last_of_endsInCallback hcallback
  have hle := htasks.index_le t (by simp)
  refine ⟨by omega, ?_⟩
  intro a ha heq
  have hlt := (List.pairwise_append.mp htasks.ordered).2.2 a ha t (by simp) heq
  omega

theorem claim_moves (kind : CommandKind) (packets : List Int) {command : Nat}
    {commands : Nat → List Nat} {created : Nat} (hfree : s.used command = false ∨ command = s.created)
    (hle : s.created ≤ created) (hlt : command < created) :
    Moves full s { s.claim kind packets command with commands := commands, created := created } := by
  refine .claim (s.finished ++ (s.worker.toList.map Prod.fst ++ s.queue)) s.todo kind packets command
    ?_ ?_ rfl rfl hfree hle hlt
  · simp only [inFlight, List.append_assoc]
  · simp only [inFlight, claim, List.append_assoc]

theorem Valid.moves (h : Valid s) (hstep : Step full s s') : Moves full s s' := by
  cases hstep with
  | visit factory kind packets hscan hpackets => exact .same rfl rfl rfl rfl
  | scanUsed hscan hused => exact .same rfl rfl rfl rfl
  | @scanReuse factory kind packets c left hscan hused =>
      exact claim_moves kind packets (Or.inl hused) (Nat.le_refl _)
        (h.scan_lt factory kind packets _ hscan c List.mem_cons_self)
  | @scanNew factory kind packets hscan =>
      exact claim_moves kind packets (Or.inr rfl) (Nat.le_succ _) (Nat.lt_succ_self _)
  | add hscan htodo =>
      refine .same ?_ rfl rfl rfl
      rw [inFlight_todo htodo]
      simp only [inFlight, List.append_assoc, List.singleton_append]
  | addFull hscan htodo hfull hcallback =>
      refine .drop _ _ _ (inFlight_todo htodo) ?_ rfl rfl rfl (Or.inr ⟨hfull, hcallback⟩)
      simp only [inFlight, List.append_assoc]
  | addFullCallback hscan htodo hfull hcallback =>
      obtain ⟨hlast, hfirst⟩ := h.callback_alone (inFlight_todo htodo) hcallback
      refine .free _ _ _ (inFlight_todo htodo) ?_ ?_ rfl rfl hlast hfirst
      · simp only [inFlight, callBack, List.append_assoc]
      · show (if _ then _ else _) = _
        rw [if_neg (by rw [ending_last hlast]; simp)]
  | start hidle hqueue =>
      refine .same ?_ rfl rfl rfl
      unfold inFlight
      rw [hidle, hqueue]
      rfl
  | @run t acts hworker =>
      have hacts := (h.worker_at t _ hworker).run
      by_cases hend : acts = []
      · by_cases hcallback : t.kind.endsInCallback = true
        · refine .same ?_ rfl rfl rfl
          rw [inFlight_worker hworker]
          simp [inFlight, resume, finish, hend, hcallback]
        · rw [if_neg hcallback] at hacts
          have hlast : t.index ≠ t.kind.last := by
            intro heq
            rw [hend, ending_last heq] at hacts
            exact absurd hacts.symm (by simp)
          refine .drop _ _ t (inFlight_worker hworker) ?_ rfl rfl rfl (Or.inl hlast)
          simp [inFlight, resume, finish, hend, hcallback]
      · refine .same ?_ rfl rfl rfl
        rw [inFlight_worker hworker]
        simp [inFlight, resume, finish, hend]
  | @markUnused t i acts hworker =>
      have hend := (h.worker_at t _ hworker).markUnused.1
      refine .same ?_ rfl rfl rfl
      rw [inFlight_worker hworker]
      simp [inFlight, resume, hend]
  | @suicide t acts hworker =>
      obtain ⟨hend, hcallback, hlast⟩ := (h.worker_at t _ hworker).suicide
      refine .free _ _ t (inFlight_worker hworker) ?_ rfl rfl rfl hlast ?_
      · simp [inFlight, resume, hend]
      · intro a ha heq
        have htasks := h.tasks
        rw [inFlight_worker hworker] at htasks
        have hlt := (List.pairwise_append.mp htasks.ordered).2.2 a ha t (by simp) heq
        have huse := htasks.use_eq a (List.mem_append_left _ ha)
        rw [heq, htasks.use_eq t (by simp)] at huse
        have hkind : t.kind = a.kind := by
          injection huse with huse
          injection huse
        rw [hkind, h.callbacks a ha] at hcallback
        cases hcallback
  | callback hfinished =>
      have hcallback := h.callbacks _ (by rw [hfinished]; exact List.mem_cons_self)
      obtain ⟨hlast, hfirst⟩ := h.callback_alone (inFlight_head hfinished) hcallback
      refine .free _ _ _ (inFlight_head hfinished) ?_ ?_ rfl rfl hlast hfirst
      · simp only [inFlight, callBack, List.nil_append]
      · show (if _ then _ else _) = _
        rw [if_neg (by rw [ending_last hlast]; simp)]

theorem Valid.command_free (h : Valid s) {command : Nat}
    (hfree : s.used command = false ∨ command = s.created) :
    ∀ t ∈ s.inFlight, t.command ≠ command := by
  intro t ht heq
  rcases hfree with hunused | hnew
  · rw [← heq, h.tasks.used_eq t ht] at hunused
    cases hunused
  · have := h.tasks.command_lt t ht
    omega

theorem Valid.step_tasks (h : Valid s) (hstep : Step full s s') :
    TasksValid s'.inFlight s'.used s'.uses s'.created := by
  have htasks := h.tasks
  cases h.moves hstep with
  | same hflight hused huses hcreated =>
      rw [hflight, hused, huses, hcreated]
      exact htasks
  | claim first rest kind packets command hflight hflight' hused huses hfree hle hlt =>
      have hnone := h.command_free hfree
      rw [hflight] at htasks hnone
      rw [hflight', hused, huses]
      exact htasks.claim kind packets hnone hle hlt
  | drop first rest t hflight hflight' hused huses hcreated hlast =>
      rw [hflight', hused, huses, hcreated]
      apply htasks.sublist
      rw [hflight]
      exact List.Sublist.append_left (List.sublist_cons_self t rest) first
  | free first rest t hflight hflight' hused huses hcreated hlast hfirst =>
      rw [hflight] at htasks
      rw [hflight', hused, huses, hcreated]
      exact htasks.free hlast hfirst

theorem worker_resume {t : CommandTask} {acts : List CommandAct}
    (hat : acts ≠ [] → WorkerAt t acts) :
    ∀ t' acts', resume t acts = some (t', acts') → WorkerAt t' acts' := by
  intro t' acts' heq
  unfold resume at heq
  split at heq
  · cases heq
  · next hne =>
      cases heq
      exact hat hne

theorem Valid.step (h : Valid s) (hstep : Step full s s') : Valid s' := by
  have htasks := h.step_tasks hstep
  cases hstep with
  | visit factory kind packets hscan hpackets =>
      refine ⟨htasks, h.callbacks, h.worker_at, h.commands_lt, ?_⟩
      intro factory' kind' packets' left heq
      cases heq
      exact h.commands_lt factory
  | @scanUsed factory kind packets c left hscan hused =>
      refine ⟨htasks, h.callbacks, h.worker_at, h.commands_lt, ?_⟩
      intro factory' kind' packets' left' heq
      cases heq
      intro c' hc'
      exact h.scan_lt _ _ _ _ hscan c' (List.mem_cons_of_mem _ hc')
  | scanReuse hscan hused =>
      refine ⟨htasks, h.callbacks, h.worker_at, h.commands_lt, ?_⟩
      intro _ _ _ _ heq
      cases heq
  | @scanNew factory kind packets hscan =>
      refine ⟨htasks, h.callbacks, h.worker_at, ?_, ?_⟩
      · intro factory' c hc
        by_cases heq : factory' = factory
        · subst heq
          have hc : c ∈ Function.update s.commands factory' (s.created :: s.commands factory')
            factory' := hc
          rw [Function.update_self] at hc
          rcases List.mem_cons.mp hc with rfl | hold
          · exact Nat.lt_succ_self _
          · exact Nat.lt_succ_of_lt (h.commands_lt _ c hold)
        · have hc : c ∈ Function.update s.commands factory (s.created :: s.commands factory)
            factory' := hc
          rw [Function.update_of_ne heq] at hc
          exact Nat.lt_succ_of_lt (h.commands_lt _ c hc)
      · intro _ _ _ _ heq
        cases heq
  | add hscan htodo => exact ⟨htasks, h.callbacks, h.worker_at, h.commands_lt, h.scan_lt⟩
  | addFull hscan htodo hfull hcallback =>
      exact ⟨htasks, h.callbacks, h.worker_at, h.commands_lt, h.scan_lt⟩
  | addFullCallback hscan htodo hfull hcallback =>
      exact ⟨htasks, h.callbacks, h.worker_at, h.commands_lt, h.scan_lt⟩
  | start hidle hqueue =>
      refine ⟨htasks, h.callbacks, ?_, h.commands_lt, h.scan_lt⟩
      intro t acts heq
      cases heq
      exact Or.inl rfl
  | @run t acts hworker =>
      have hacts := (h.worker_at t _ hworker).run
      refine ⟨htasks, ?_, ?_, h.commands_lt, h.scan_lt⟩
      · intro t' ht'
        have ht' : t' ∈ finish s.finished t acts := ht'
        unfold finish at ht'
        split at ht'
        · next hend =>
            rcases List.mem_append.mp ht' with hold | hnew
            · exact h.callbacks t' hold
            · obtain rfl := List.mem_singleton.mp hnew
              exact hend.2
        · exact h.callbacks t' ht'
      · apply worker_resume
        intro hne
        split at hacts
        · exact absurd hacts hne
        · next hcallback =>
            subst hacts
            exact WorkerAt.ending (Bool.eq_false_iff.mpr hcallback) hne
  | @markUnused t i acts hworker =>
      refine ⟨htasks, h.callbacks, worker_resume fun _ => ?_, h.commands_lt, h.scan_lt⟩
      exact (h.worker_at t _ hworker).markUnused.2
  | @suicide t acts hworker =>
      refine ⟨htasks, h.callbacks, worker_resume fun hne => ?_, h.commands_lt, h.scan_lt⟩
      exact absurd (h.worker_at t _ hworker).suicide.1 hne
  | callback hfinished =>
      refine ⟨htasks, ?_, h.worker_at, h.commands_lt, h.scan_lt⟩
      intro t' ht'
      exact h.callbacks t' (by rw [hfinished]; exact List.mem_cons_of_mem _ ht')

theorem Reachable.valid (h : Reachable full s) : Valid s := by
  induction h with
  | init => exact Valid.init
  | step _ hstep ih => exact ih.step hstep

end Steps

end CommandSystem

end PureDataPacket
