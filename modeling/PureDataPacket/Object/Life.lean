/-
# `PureDataPacket.Object.Life` — a hot packet comes, is processed and goes

Slot 0 is filled by a register message and emptied when the packet has been offered to
the outlet; between these it is processed at most once.  The object cannot be told to
process while its task is pending, for its queue id is set, nor while it offers the
packet, for nobody says *process* then.
-/
import PureDataPacket.Object.Custody

namespace PureDataPacket

namespace BaseState

/-- How often hot packet `n` left the object. -/
def left (s : BaseState) (n : Nat) : Nat :=
  s.log.count (n, .passed) + (s.log.count (n, .taken) + s.log.count (n, .freed))

/-- What is known of cells and log, wherever a handler is. -/
structure Core (s : BaseState) : Prop where
  custody : Custody s
  held_iff : s.held.isSome = true ↔ s.packet 0 ≠ -1
  held_lt : ∀ n, s.held = some n → n < s.accepted
  log_lt : ∀ e ∈ s.log, e.1 < s.accepted
  processed_le : ∀ n, s.log.count (n, .processed) ≤ 1
  left_eq : ∀ n, n < s.accepted → s.left n + (if s.held = some n then 1 else 0) = 1
  ordered : s.log.Pairwise fun a b => a.1 = b.1 → a.2 = .processed
  offers_eq : ∀ o ∈ s.offers, o.1 = o.2

/-- No *process* comes before the packet is unregistered. -/
def OfferFirst : List SendAct → Prop
  | [] => True
  | .unregister :: rest => .unregister ∉ rest
  | .message _ m :: rest => (m = .process → .unregister ∉ rest) ∧ OfferFirst rest

/-- What is known of a state, as long as the object is there. -/
structure Valid (s : BaseState) : Prop where
  core : Core s
  not_freed : s.freed = false
  task_id : s.queueId = -1 ↔ s.task = none
  task_held : s.task ≠ none → s.packet 0 ≠ -1
  offering : s.Offering → s.packet 0 ≠ -1 ∧ s.task = none
  offer_first : OfferFirst s.todo
  fresh : ∀ n, s.held = some n → ¬ s.Offering → (s.task = none ∨ s.task = some .queued) →
    s.log.count (n, .processed) = 0

/-! ## The log -/

section Log

variable {s : BaseState}

theorem record_none (h : s.held = none) (e : HotEvent) : (s.record e).log = s.log := by
  unfold record
  rw [h]
  exact List.append_nil _

theorem record_some {n : Nat} (h : s.held = some n) (e : HotEvent) :
    (s.record e).log = s.log ++ [(n, e)] := by
  unfold record
  rw [h]
  rfl

/-- Nothing but its processing is in the log of a packet that is held. -/
theorem Core.log_held (h : Core s) {n : Nat} (hn : s.held = some n) {e : Nat × HotEvent}
    (he : e ∈ s.log) (heq : e.1 = n) : e.2 = .processed := by
  have hleft := h.left_eq n (h.held_lt n hn)
  rw [if_pos hn] at hleft
  unfold left at hleft
  obtain ⟨m, event⟩ := e
  have heq : m = n := heq
  subst heq
  have hpos := List.count_pos_iff.mpr he
  cases event with
  | processed => rfl
  | passed => omega
  | taken => omega
  | freed => omega

theorem Core.ordered_record (h : Core s) (e : HotEvent) :
    (s.record e).log.Pairwise fun a b => a.1 = b.1 → a.2 = .processed := by
  cases hheld : s.held with
  | none =>
      rw [record_none hheld]
      exact h.ordered
  | some n =>
      rw [record_some hheld, List.pairwise_append]
      refine ⟨h.ordered, List.pairwise_singleton _ _, ?_⟩
      intro a ha b hb heq
      rw [List.mem_singleton.mp hb] at heq
      exact h.log_held hheld ha heq

theorem Core.log_lt_record (h : Core s) (e : HotEvent) :
    ∀ x ∈ (s.record e).log, x.1 < s.accepted := by
  cases hheld : s.held with
  | none =>
      rw [record_none hheld]
      exact h.log_lt
  | some n =>
      rw [record_some hheld]
      intro x hx
      rcases List.mem_append.mp hx with hold | hnew
      · exact h.log_lt x hold
      · rw [List.mem_singleton.mp hnew]
        exact h.held_lt n hheld

theorem count_record {n : Nat} (hheld : s.held = some n) (e e' : HotEvent) (m : Nat) :
    (s.record e).log.count (m, e') =
      s.log.count (m, e') + if n = m ∧ e = e' then 1 else 0 := by
  rw [record_some hheld, List.count_append, List.count_singleton]
  simp only [beq_iff_eq, Prod.mk.injEq]

theorem Core.processed (h : Core s)
    (hfirst : ∀ n, s.held = some n → s.log.count (n, .processed) = 0) :
    Core (s.record .processed) := by
  refine ⟨h.custody, h.held_iff, h.held_lt, h.log_lt_record _, ?_, ?_, h.ordered_record _,
    h.offers_eq⟩
  · intro m
    cases hheld : s.held with
    | none =>
        rw [record_none hheld]
        exact h.processed_le m
    | some n =>
        rw [count_record hheld]
        have hle := h.processed_le m
        split
        · next heq =>
            rw [← heq.1, hfirst n hheld]
        · omega
  · intro m hm
    have hleft := h.left_eq m hm
    cases hheld : s.held with
    | none =>
        unfold left
        rw [record_none hheld]
        exact hleft
    | some n =>
        unfold left at hleft ⊢
        rw [count_record hheld, count_record hheld, count_record hheld]
        simp only [reduceCtorEq, and_false, if_false, Nat.add_zero]
        exact hleft

theorem Core.leaveSlot (h : Core s) {e : HotEvent} (he : e ≠ .processed) :
    Core (s.leaveSlot e) := by
  refine ⟨?_, ?_, ?_, h.log_lt_record _, ?_, ?_, h.ordered_record _, h.offers_eq⟩
  · exact Owns.release h.custody (by decide : 0 < maxNbPdpBaseInlets)
  · refine iff_of_false (by simp [BaseState.leaveSlot]) (not_not.mpr ?_)
    exact Function.update_self 0 (-1) s.packet
  · intro n hn
    cases hn
  · intro m
    show (s.record e).log.count (m, .processed) ≤ 1
    have hle := h.processed_le m
    cases hheld : s.held with
    | none =>
        rw [record_none hheld]
        exact hle
    | some n =>
        rw [count_record hheld, if_neg (fun heq => he heq.2)]
        exact hle
  · intro m hm
    have hleft := h.left_eq m hm
    show (s.record e).log.count (m, .passed) + ((s.record e).log.count (m, .taken) +
      (s.record e).log.count (m, .freed)) + (if (none : Option Nat) = some m then 1 else 0) = 1
    unfold left at hleft
    cases hheld : s.held with
    | none =>
        rw [record_none hheld]
        rw [hheld] at hleft
        exact hleft
    | some n =>
        rw [count_record hheld, count_record hheld, count_record hheld]
        rw [hheld] at hleft
        simp only [Option.some.injEq, reduceCtorEq, if_false] at hleft ⊢
        cases e with
        | processed => exact absurd rfl he
        | passed =>
            simp only [and_true, reduceCtorEq, and_false, if_false]
            omega
        | taken =>
            simp only [and_true, reduceCtorEq, and_false, if_false]
            omega
        | freed =>
            simp only [and_true, reduceCtorEq, and_false, if_false]
            omega

end Log

/-! ## The handlers -/

section Handlers

variable {c : BaseClass} {s : BaseState}

theorem offerFirst_of_not_mem {todo : List SendAct} (h : .unregister ∉ todo) :
    OfferFirst todo := by
  induction todo with
  | nil => trivial
  | cons act rest ih =>
      have hrest : .unregister ∉ rest := fun hm => h (List.mem_cons_of_mem _ hm)
      cases act with
      | message inlet m => exact ⟨fun _ => hrest, ih hrest⟩
      | unregister => exact absurd List.mem_cons_self h

theorem offerFirst_messages {rest : List SendAct} (h : OfferFirst rest) (m : PdpMessage)
    (hm : m ≠ .process) (connections : List Nat) :
    OfferFirst (connections.map (fun i => .message i m) ++ rest) := by
  induction connections with
  | nil => exact h
  | cons i l ih => exact ⟨fun heq => absurd heq hm, ih⟩

theorem offerFirst_sendActs {todo : List SendAct} (h : .unregister ∉ todo) (p : Int) :
    OfferFirst (sendActs c p ++ todo) := by
  unfold sendActs
  rw [List.append_assoc, List.append_assoc]
  apply offerFirst_messages _ _ (by simp)
  apply offerFirst_messages _ _ (by simp)
  show SendAct.unregister ∉ _
  intro hmem
  rcases List.mem_append.mp hmem with hsend | htodo
  · obtain ⟨i, _, heq⟩ := List.mem_map.mp hsend
    cases heq
  · exact h htodo

theorem unregister_mem_sendActs (p : Int) : .unregister ∈ sendActs c p := by
  unfold sendActs
  simp

/-- After a run the packet is offered, or has left. -/
theorem postprocess_valid (hclass : c.outlet = true ∨ c.postprocTakes = true) (h : Core s)
    (hfreed : s.freed = false) (hid : s.queueId = -1) (htask : s.task = none)
    (hoffering : ¬ s.Offering) : Valid (postprocess c s) := by
  unfold postprocess postproc
  cases htakes : c.postprocTakes with
  | true =>
      have hempty : (s.leaveSlot .taken).packet 0 = -1 := Function.update_self 0 (-1) s.packet
      rw [if_pos rfl]
      dsimp only
      rw [if_neg (fun hand => hand.2 hempty)]
      refine ⟨h.leaveSlot (by simp), hfreed, iff_of_true hid htask, fun hne => absurd htask hne,
        fun hoff => absurd hoff hoffering, offerFirst_of_not_mem hoffering, ?_⟩
      intro n hn
      cases hn
  | false =>
      have houtlet : c.outlet = true := hclass.resolve_right (by rw [htakes]; exact Bool.false_ne_true)
      rw [if_neg Bool.false_ne_true]
      dsimp only
      split
      · next hand =>
          have hmem : SendAct.unregister ∈ sendActs c (s.packet 0) ++ s.todo :=
            List.mem_append_left _ (unregister_mem_sendActs _)
          refine ⟨⟨h.custody, h.held_iff, h.held_lt, h.log_lt, h.processed_le, h.left_eq, h.ordered,
            h.offers_eq⟩, hfreed, iff_of_true hid htask, fun hne => absurd htask hne,
            fun _ => ⟨hand.2, htask⟩, offerFirst_sendActs hoffering _, ?_⟩
          intro n _ hnot
          exact absurd hmem hnot
      · next hand =>
          have hempty : s.packet 0 = -1 := by
            by_contra hne
            exact hand ⟨houtlet, hne⟩
          refine ⟨h, hfreed, iff_of_true hid htask, fun hne => absurd htask hne,
            fun hoff => absurd hoff hoffering, offerFirst_of_not_mem hoffering, ?_⟩
          intro n hn
          have := h.held_iff.mp (by rw [hn]; rfl)
          exact absurd hempty this

theorem Core.movesOnly {s' : BaseState} (h : Core s) (hcustody : Custody s')
    (hmoves : MovesOnly s s') : Core s' := by
  obtain ⟨hrest, hhot⟩ := hmoves
  have hheld : s'.held = s.held := by rw [hrest]
  have haccepted : s'.accepted = s.accepted := by rw [hrest]
  have hlog : s'.log = s.log := by rw [hrest]
  have hoffers : s'.offers = s.offers := by rw [hrest]
  have hleft : ∀ n, s'.left n = s.left n := by
    intro n
    unfold left
    rw [hlog]
  refine ⟨hcustody, ?_, ?_, ?_, ?_, ?_, ?_, ?_⟩
  · rw [hheld, hhot]
    exact h.held_iff
  · rw [hheld, haccepted]
    exact h.held_lt
  · rw [hlog, haccepted]
    exact h.log_lt
  · rw [hlog]
    exact h.processed_le
  · intro n hn
    rw [hleft, hheld]
    exact h.left_eq n (by rw [← haccepted]; exact hn)
  · rw [hlog]
    exact h.ordered
  · rw [hoffers]
    exact h.offers_eq

theorem bang_valid (hclass : c.outlet = true ∨ c.postprocTakes = true) (h : Valid s)
    (hoffering : ¬ s.Offering) (hhot : s.packet 0 ≠ -1) (mode : Mode) (slot : Nat) :
    Valid (bang c s mode slot) := by
  unfold bang
  split
  · exact h
  · next hid =>
      have hid : s.queueId = -1 := not_not.mp hid
      have htask := h.task_id.mp hid
      obtain ⟨hcustody, hmoves⟩ := movepassive_spec c h.core.custody
      have hcore := h.core.movesOnly hcustody hmoves
      have heq := hmoves.rest_eq
      have hheld : (movepassive c s).held = s.held := by rw [heq]
      have hlog : (movepassive c s).log = s.log := by rw [heq]
      have htodo : (movepassive c s).todo = s.todo := by rw [heq]
      have hfreed : (movepassive c s).freed = false := by rw [heq]; exact h.not_freed
      have hid' : (movepassive c s).queueId = -1 := by rw [heq]; exact hid
      have htask' : (movepassive c s).task = none := by rw [heq]; exact htask
      have hoffering' : SendAct.unregister ∉ (movepassive c s).todo := by
        rw [htodo]
        exact hoffering
      have hfirst : ∀ n, (movepassive c s).held = some n →
          (movepassive c s).log.count (n, .processed) = 0 := by
        intro n hn
        rw [hlog]
        exact h.fresh n (by rw [← hheld]; exact hn) hoffering (Or.inl htask)
      -- counting the run changes nothing of the rest
      have hcore' : Core { movepassive c s with runs := s.runs + 1 } :=
        ⟨hcore.custody, hcore.held_iff, hcore.held_lt, hcore.log_lt, hcore.processed_le,
          hcore.left_eq, hcore.ordered, hcore.offers_eq⟩
      dsimp only
      split
      · cases mode with
        | direct =>
            have hcore'' : Core { movepassive c s with runs := s.runs + 1, queueId := -1 } :=
              ⟨hcore.custody, hcore.held_iff, hcore.held_lt, hcore.log_lt, hcore.processed_le,
                hcore.left_eq, hcore.ordered, hcore.offers_eq⟩
            exact postprocess_valid hclass (hcore''.processed hfirst) hfreed rfl htask' hoffering'
        | full =>
            have hcore'' : Core { movepassive c s with runs := s.runs + 1, queueId := -1 } :=
              ⟨hcore.custody, hcore.held_iff, hcore.held_lt, hcore.log_lt, hcore.processed_le,
                hcore.left_eq, hcore.ordered, hcore.offers_eq⟩
            exact postprocess_valid hclass hcore'' hfreed rfl htask' hoffering'
        | queued =>
            refine ⟨⟨hcore.custody, hcore.held_iff, hcore.held_lt, hcore.log_lt,
              hcore.processed_le, hcore.left_eq, hcore.ordered, hcore.offers_eq⟩, hfreed, ?_, ?_, ?_,
              offerFirst_of_not_mem hoffering', ?_⟩
            · refine iff_of_false ?_ (by simp)
              show (slot : Int) ≠ -1
              omega
            · intro _
              show (movepassive c s).packet 0 ≠ -1
              rw [hmoves.hot_eq]
              exact hhot
            · intro hoff
              exact absurd hoff hoffering'
            · intro n hn _ _
              exact hfirst n hn
      · exact postprocess_valid hclass (hcore'.processed hfirst) hfreed hid' htask' hoffering'

theorem acceptHot_valid (h : Valid s) (r : Int) : Valid (acceptHot s r) := by
  have hcore := h.core
  unfold acceptHot
  split
  · next hempty =>
      have hnone : s.held = none := by
        rw [← Option.not_isSome_iff_eq_none, hcore.held_iff]
        exact not_not.mpr hempty
      have htask : s.task = none := by
        by_contra hne
        exact h.task_held hne hempty
      have hoffering : ¬ s.Offering := fun hoff => (h.offering hoff).1 hempty
      have hzero : ∀ e, s.log.count (s.accepted, e) = 0 := by
        intro e
        rw [List.count_eq_zero]
        intro hmem
        exact Nat.lt_irrefl _ (hcore.log_lt _ hmem)
      have hoffers : ∀ o ∈ s.offers ++ [(s.held.isSome, false)], o.1 = o.2 := by
        intro o ho
        rcases List.mem_append.mp ho with hold | hnew
        · exact hcore.offers_eq o hold
        · rw [List.mem_singleton.mp hnew, hnone]
          rfl
      by_cases hr : r = -1
      · subst hr
        have hsame : Function.update s.packet 0 (-1) = s.packet := by
          rw [← hempty]
          exact Function.update_eq_self _ _
        simp only [if_true, hsame]
        exact ⟨⟨hcore.custody, hcore.held_iff, hcore.held_lt, hcore.log_lt, hcore.processed_le,
          hcore.left_eq, hcore.ordered, hoffers⟩, h.not_freed, h.task_id, h.task_held, h.offering,
          h.offer_first, h.fresh⟩
      · simp only [if_neg hr]
        have hcell : Function.update s.packet 0 r 0 = r := Function.update_self _ _ _
        refine ⟨⟨Owns.fill hcore.custody (by decide : 0 < maxNbPdpBaseInlets) hempty r, ?_, ?_, ?_,
          hcore.processed_le, ?_, hcore.ordered, hoffers⟩, h.not_freed, h.task_id,
          fun hne => absurd htask hne, fun hoff => absurd hoff hoffering, h.offer_first, ?_⟩
        · refine iff_of_true rfl ?_
          show Function.update s.packet 0 r 0 ≠ -1
          rw [hcell]
          exact hr
        · intro n hn
          cases hn
          exact Nat.lt_succ_self _
        · intro e he
          exact Nat.lt_succ_of_lt (hcore.log_lt e he)
        · intro n hn
          show s.left n + (if some s.accepted = some n then 1 else 0) = 1
          rcases Nat.lt_succ_iff_lt_or_eq.mp hn with hlt | rfl
          · have hleft := hcore.left_eq n hlt
            rw [hnone] at hleft
            rw [if_neg (by simp only [Option.some.injEq]; omega)]
            exact hleft
          · rw [if_pos rfl]
            unfold left
            rw [hzero, hzero, hzero]
        · intro n hn _ _
          cases hn
          exact hzero _
  · next hne =>
      refine ⟨⟨hcore.custody, hcore.held_iff, hcore.held_lt, hcore.log_lt, hcore.processed_le,
        hcore.left_eq, hcore.ordered, ?_⟩, h.not_freed, h.task_id, h.task_held, h.offering,
        h.offer_first, h.fresh⟩
      intro o ho
      rcases List.mem_append.mp ho with hold | hnew
      · exact hcore.offers_eq o hold
      · rw [List.mem_singleton.mp hnew]
        exact hcore.held_iff.mpr hne

theorem input_valid (hclass : c.outlet = true ∨ c.postprocTakes = true) (h : Valid s)
    {m : PdpMessage} (hphase : m = .process → ¬ s.Offering) (inlet : Nat) (r : Int) (mode : Mode)
    (slot : Nat) : Valid (input c s inlet m r mode slot) := by
  have hcore := h.core
  unfold input
  split
  · unfold inputHot
    split
    · exact h
    · cases m with
      | registerRo p =>
          dsimp only
          split
          · exact acceptHot_valid h r
          · exact h
      | registerRw p =>
          dsimp only
          split
          · exact h
          · exact acceptHot_valid h r
      | process =>
          dsimp only
          split
          · next hand => exact bang_valid hclass h (hphase rfl) hand.1 mode slot
          · exact h
  · unfold inputCold
    cases m with
    | registerRo p =>
        dsimp only
        split
        · next hand =>
            exact ⟨⟨Owns.fillNext hcore.custody hand.1 hand.2 r, hcore.held_iff, hcore.held_lt,
              hcore.log_lt, hcore.processed_le, hcore.left_eq, hcore.ordered, hcore.offers_eq⟩,
              h.not_freed, h.task_id, h.task_held, h.offering, h.offer_first, h.fresh⟩
        · exact h
    | registerRw p => exact h
    | process => exact h

end Handlers

/-! ## Steps -/

section Steps

variable {c : BaseClass} {s s' : BaseState}

theorem Valid.init : Valid init := by
  have hcells : ∀ p, p ≠ -1 → ([] : List Int).count p =
      (cellsOf (fun _ => (-1 : Int)) fun _ => (-1 : Int)).count p := by
    intro p hp
    symm
    rw [List.count_nil, List.count_eq_zero]
    intro hmem
    obtain ⟨i, _, hi⟩ := List.mem_flatMap.mp hmem
    rcases List.mem_cons.mp hi with heq | hi
    · exact hp heq
    · exact hp (List.mem_singleton.mp hi)
  refine ⟨⟨⟨hcells, rfl⟩, ?_, ?_, ?_, ?_, ?_, List.Pairwise.nil, ?_⟩, rfl, ?_, ?_, ?_, trivial, ?_⟩
  · exact iff_of_false Bool.false_ne_true (not_not.mpr rfl)
  · intro n hn
    cases hn
  · intro e he
    exact absurd he List.not_mem_nil
  · intro n
    exact Nat.zero_le _
  · intro n hn
    exact absurd hn (Nat.not_lt_zero _)
  · intro o ho
    exact absurd ho List.not_mem_nil
  · exact iff_of_true rfl rfl
  · intro h
    exact absurd rfl h
  · intro h
    exact absurd h List.not_mem_nil
  · intro n hn
    cases hn

theorem Valid.pop (h : Valid s) {inlet : Nat} {m : PdpMessage} {rest : List SendAct}
    (htodo : s.todo = .message inlet m :: rest) :
    Valid { s with todo := rest } ∧ (m = .process → ¬ Offering { s with todo := rest }) := by
  have hfirst := h.offer_first
  rw [htodo] at hfirst
  have hoffering : SendAct.unregister ∈ rest ↔ s.Offering := by
    unfold Offering
    rw [htodo, List.mem_cons]
    exact ⟨Or.inr, fun hor => hor.resolve_left (by simp)⟩
  refine ⟨⟨⟨h.core.custody, h.core.held_iff, h.core.held_lt, h.core.log_lt, h.core.processed_le,
    h.core.left_eq, h.core.ordered, h.core.offers_eq⟩, h.not_freed, h.task_id, h.task_held, ?_,
    hfirst.2, ?_⟩, hfirst.1⟩
  · intro hoff
    exact h.offering (hoffering.mp hoff)
  · intro n hn hnot
    exact h.fresh n hn fun hoff => hnot (hoffering.mpr hoff)

/-- What is left when the object has been freed. -/
structure Freed (s : BaseState) : Prop where
  freed : s.freed = true
  no_task : s.task = none
  empty : s.held = none
  refs : ∀ p, p ≠ -1 → s.refs.count p = 0
  never_twice : s.releasedTwice = false
  processed_le : ∀ n, s.log.count (n, .processed) ≤ 1
  left_eq : ∀ n, n < s.accepted → s.left n = 1
  ordered : s.log.Pairwise fun a b => a.1 = b.1 → a.2 = .processed
  offers_eq : ∀ o ∈ s.offers, o.1 = o.2

/-- `pdp_base_free`. -/
theorem Valid.free (h : Valid s) : Freed { s.cells.foldl markUnused (s.record .freed) with
    task := none
    held := none
    freed := true } := by
  have hcore := h.core
  have hgone := hcore.leaveSlot (e := .freed) (by simp)
  obtain ⟨hrefs, htwice⟩ := releaseAll_owns s.cells (s.record .freed)
    (fun p hp => hcore.custody.count_eq p hp) hcore.custody.never_twice
  have heq := releaseAll_eq s.cells (s.record .freed)
  have hlog : (s.cells.foldl markUnused (s.record .freed)).log = (s.record .freed).log := by
    rw [heq]
  have haccepted : (s.cells.foldl markUnused (s.record .freed)).accepted = s.accepted := by
    rw [heq]
    rfl
  have hoffers : (s.cells.foldl markUnused (s.record .freed)).offers = s.offers := by
    rw [heq]
    rfl
  refine ⟨rfl, rfl, rfl, hrefs, htwice, ?_, ?_, ?_, ?_⟩
  · intro n
    show (s.cells.foldl markUnused (s.record .freed)).log.count (n, .processed) ≤ 1
    rw [hlog]
    exact hgone.processed_le n
  · intro n hn
    have hn : n < (s.cells.foldl markUnused (s.record .freed)).accepted := hn
    rw [haccepted] at hn
    have hleft := hgone.left_eq n hn
    show (s.cells.foldl markUnused (s.record .freed)).log.count (n, .passed) +
      ((s.cells.foldl markUnused (s.record .freed)).log.count (n, .taken) +
        (s.cells.foldl markUnused (s.record .freed)).log.count (n, .freed)) = 1
    rw [hlog]
    exact hleft
  · show (s.cells.foldl markUnused (s.record .freed)).log.Pairwise _
    rw [hlog]
    exact hgone.ordered
  · show ∀ o ∈ (s.cells.foldl markUnused (s.record .freed)).offers, o.1 = o.2
    rw [hoffers]
    exact hcore.offers_eq

theorem Valid.step (hclass : c.outlet = true ∨ c.postprocTakes = true)
    (hquiet : c.interrupted = false) (h : Valid s) (hstep : Step c s s') : Valid s' ∨ Freed s' := by
  have hcore := h.core
  cases hstep with
  | message inlet m r mode slot _ hphase =>
      have hidle : m = .process → ¬ s.Offering := fun hm hoff => by
        have hbusy := hphase hm hoff
        rw [hquiet] at hbusy
        cases hbusy
      exact Or.inl (input_valid hclass h hidle inlet r mode slot)
  | own r mode slot _ htodo =>
      obtain ⟨hvalid, hphase⟩ := h.pop htodo
      exact Or.inl (input_valid hclass hvalid hphase _ r mode slot)
  | @unregister rest _ htodo =>
      have hoff : s.Offering := by
        unfold Offering
        rw [htodo]
        exact List.mem_cons_self
      obtain ⟨_, htask⟩ := h.offering hoff
      have hfirst := h.offer_first
      rw [htodo] at hfirst
      have hcore' : Core { s with todo := rest } :=
        ⟨hcore.custody, hcore.held_iff, hcore.held_lt, hcore.log_lt, hcore.processed_le,
          hcore.left_eq, hcore.ordered, hcore.offers_eq⟩
      refine Or.inl ⟨hcore'.leaveSlot (by simp), h.not_freed, h.task_id, fun hne => absurd htask hne,
        fun hoff' => absurd hoff' hfirst, offerFirst_of_not_mem hfirst, ?_⟩
      intro n hn
      cases hn
  | thread b _ =>
      exact Or.inl ⟨⟨hcore.custody, hcore.held_iff, hcore.held_lt, hcore.log_lt, hcore.processed_le,
        hcore.left_eq, hcore.ordered, hcore.offers_eq⟩, h.not_freed, h.task_id, h.task_held,
        h.offering, h.offer_first, h.fresh⟩
  | start htask =>
      have hne : s.task ≠ none := by
        rw [htask]
        simp
      have hoff : ¬ s.Offering := fun hoff => hne (h.offering hoff).2
      have hcore' := hcore.processed fun n hn => h.fresh n hn hoff (Or.inr htask)
      refine Or.inl ⟨⟨hcore'.custody, hcore'.held_iff, hcore'.held_lt, hcore'.log_lt, hcore'.processed_le,
        hcore'.left_eq, hcore'.ordered, hcore'.offers_eq⟩, h.not_freed, ?_,
        fun _ => h.task_held hne, fun hoff' => absurd hoff' hoff, h.offer_first, ?_⟩
      · exact iff_of_false (fun hid => hne (h.task_id.mp hid)) (by simp)
      · intro n _ _ htask'
        rcases htask' with htask' | htask' <;> cases htask'
  | finish htask =>
      have hne : s.task ≠ none := by
        rw [htask]
        simp
      have hoff : ¬ s.Offering := fun hoff => hne (h.offering hoff).2
      refine Or.inl ⟨⟨hcore.custody, hcore.held_iff, hcore.held_lt, hcore.log_lt, hcore.processed_le,
        hcore.left_eq, hcore.ordered, hcore.offers_eq⟩, h.not_freed, ?_,
        fun _ => h.task_held hne, fun hoff' => absurd hoff' hoff, h.offer_first, ?_⟩
      · exact iff_of_false (fun hid => hne (h.task_id.mp hid)) (by simp)
      · intro n _ _ htask'
        rcases htask' with htask' | htask' <;> cases htask'
  | callback htask =>
      have hne : s.task ≠ none := by
        rw [htask]
        simp
      have hoff : ¬ s.Offering := fun hoff => hne (h.offering hoff).2
      have hcore' : Core { s with queueId := -1, task := none } :=
        ⟨hcore.custody, hcore.held_iff, hcore.held_lt, hcore.log_lt, hcore.processed_le,
          hcore.left_eq, hcore.ordered, hcore.offers_eq⟩
      exact Or.inl (postprocess_valid hclass hcore' h.not_freed rfl rfl hoff)
  | free _ _ _ => exact Or.inr h.free

theorem Freed.no_step (h : Freed s) : ¬ Step c s s' := by
  intro hstep
  have hfreed := h.freed
  have htask := h.no_task
  cases hstep with
  | message _ _ _ _ _ hnot _ => rw [hfreed] at hnot; cases hnot
  | own _ _ _ hnot _ => rw [hfreed] at hnot; cases hnot
  | unregister hnot _ => rw [hfreed] at hnot; cases hnot
  | thread _ hnot => rw [hfreed] at hnot; cases hnot
  | start hphase => rw [htask] at hphase; cases hphase
  | finish hphase => rw [htask] at hphase; cases hphase
  | callback hphase => rw [htask] at hphase; cases hphase
  | free hnot _ _ => rw [hfreed] at hnot; cases hnot

theorem Reachable.valid_or_freed (hclass : c.outlet = true ∨ c.postprocTakes = true)
    (hquiet : c.interrupted = false) (h : Reachable c s) : Valid s ∨ Freed s := by
  induction h with
  | init => exact Or.inl Valid.init
  | step _ hstep ih =>
      rcases ih with hvalid | hfreed
      · exact hvalid.step hclass hquiet hstep
      · exact absurd hstep hfreed.no_step

end Steps

end BaseState

end PureDataPacket
